import GraphQLSyntax.Proofs.Token.Local
import GraphQLSyntax.Proofs.Token.OneByOne

/-!
# Texts line by line

A line end behind a text that can be scanned ends what is skipped, a comment even, and no lexeme
runs over it. The text behind it is scanned as if it stood alone.

* `Scans.line`: the tokens of two texts with a line end between them are those of both.
* `Scanner.scans`: a run that finds no fault is what the source is scanned as.
* `Scanner.kinds_line`: both together, for sources.
-/

namespace GraphQLSyntax

/-! ## What is skipped -/

variable {cs ds tail : List Char} {skipping : Skipping}

theorem skipIgnored_line_of_nil (h : skipIgnored skipping cs = []) (ds : List Char) :
    skipIgnored skipping (cs ++ '\n' :: ds) = skipIgnored .blanks ds := by
  fun_induction skipIgnored skipping cs with
  | case1 skipping => cases skipping <;> rfl
  | case2 c cs ih => exact ih h
  | case3 cs ih =>
    rw [List.cons_append, skipIgnored, if_pos rfl]
    exact ih h
  | case4 c cs hcomment hblank ih =>
    rw [List.cons_append, skipIgnored, if_neg hcomment, if_pos hblank]
    exact ih h
  | case5 => cases h

theorem skipIgnored_line_of_cons {c : Char} (h : skipIgnored skipping cs = c :: tail)
    (ds : List Char) : skipIgnored skipping (cs ++ '\n' :: ds) = c :: (tail ++ '\n' :: ds) := by
  fun_induction skipIgnored skipping cs with
  | case1 => cases h
  | case2 d cs ih => exact ih h
  | case3 cs ih =>
    rw [List.cons_append, skipIgnored, if_pos rfl]
    exact ih h
  | case4 d cs hcomment hblank ih =>
    rw [List.cons_append, skipIgnored, if_neg hcomment, if_pos hblank]
    exact ih h
  | case5 d cs hcomment hblank =>
    cases h
    rw [List.cons_append, skipIgnored, if_neg hcomment, if_neg hblank]

/-! ## What is scanned -/

namespace TokenKind

/-- A line end ends every token. -/
theorem endsBefore_line (k : TokenKind) (ds : List Char) : k.EndsBefore ('\n' :: ds) := by
  rintro c ⟨⟩
  cases k <;> rfl

end TokenKind

/-- No lexeme runs over a line end that stands behind it. -/
theorem lexeme_line {c : Char} {k : TokenKind} {rest : List Char}
    (h : lexeme c cs = ⟨.ok k, rest⟩) (ds : List Char) :
    lexeme c (cs ++ '\n' :: ds) = ⟨.ok k, rest ++ '\n' :: ds⟩ := by
  obtain ⟨pre, rfl, hlocal⟩ := lexeme_local h
  rw [List.append_assoc]
  apply hlocal
  cases rest with
  | nil => exact .inr (k.endsBefore_line ds)
  | cons d rest => exact .inl rfl

namespace Scans

variable {ks ls : List TokenKind}

/-- The tokens of two texts with a line end between them are those of both. -/
theorem line (h : Scans cs ks) (hds : Scans ds ls) : Scans (cs ++ '\n' :: ds) (ks ++ ls) := by
  induction h with
  | done hskip =>
    refine hds.behind (skipIgnored_line_of_nil hskip ds) ?_
    rw [List.length_append, List.length_cons]
    omega
  | token hskip hlexeme hlength others ih =>
    refine .token (skipIgnored_line_of_cons hskip ds) (lexeme_line hlexeme ds) ?_ ih
    simp only [List.length_append]
    omega

end Scans

namespace Scanner

/-- A run that finds no fault is what is ahead of the scanner. -/
theorem scans_ahead {s : Scanner} {token : Token} (h : s.run.1.last = .ok token) :
    Scans s.ahead s.run.1.kinds := by
  induction hn : s.ahead.length using Nat.strongRecOn generalizing s with
  | ind n ih =>
    rcases hscan : s.scan with ⟨e | first, s'⟩
    · rw [run_of_error hscan] at h
      cases h
    · cases hend : first.isEnd with
      | true =>
        have hkinds : s.run.1.kinds = [] := by rw [run_of_end hscan hend]; rfl
        rw [hkinds]
        exact .done (scan_of_end hscan hend).2.2
      | false =>
        have hlt := length_ahead_lt hscan hend
        rw [run_of_token hscan hend] at h ⊢
        rcases scan_eq_ok hscan with rfl | ⟨c, cs, k, hskip, hlexeme, rfl, rfl⟩
        · cases hend
        · exact .token hskip (by rw [← hlexeme]) hlt (ih _ (by omega) h rfl)

theorem scans {source : String} {token : Token} (h : (runOf source).last = .ok token) :
    Scans source.toList (runOf source).kinds :=
  scans_ahead h

/-- The tokens of two sources with a line end between them are those of both. -/
theorem kinds_line {first second : String} {t u : Token} (hfirst : (runOf first).last = .ok t)
    (hsecond : (runOf second).last = .ok u) :
    (runOf (first ++ "\n" ++ second)).kinds = (runOf first).kinds ++ (runOf second).kinds ∧
      ∃ token, (runOf (first ++ "\n" ++ second)).last = .ok token := by
  have hscans := ((scans hfirst).line (scans hsecond)).runOf
  have htext : String.ofList (first.toList ++ '\n' :: second.toList) = first ++ "\n" ++ second := by
    simp [← String.toList_inj]
  rwa [htext] at hscans

end Scanner

end GraphQLSyntax
