import GraphQLSyntax.Proofs.Token.Run
import GraphQLSyntax.Proofs.Token.Suffix
import GraphQLSyntax.Token.Lexeme

/-!
# Scanned tokens

Every lexeme that is a token is readable, so the kinds of all tokens of a source are. The tokens of
a run begin one behind the other, the end behind all of them, so a token is known by its first byte.

* `Scanner.readable_kinds`: the kinds of a source are readable.
* `Scanner.start_injective`: no two tokens of a source begin at the same byte.
-/

namespace GraphQLSyntax

/-! ## Readable lexemes -/

theorem Double.isNaN_ofMagnitude (negative : Bool) (magnitude : Nat) :
    (ofMagnitude negative magnitude).isNaN = false := by
  have hmin : min magnitude infiniteMagnitude ≤ infiniteMagnitude := Nat.min_le_right _ _
  have hfits : infiniteMagnitude < 2 ^ 63 := by decide
  simp only [isNaN, ofMagnitude, BitVec.toNat_ofNat, decide_eq_false_iff_not, Nat.not_lt]
  exact Nat.le_trans (Nat.mod_le _ _) hmin

theorem NumberLiteral.isReadable_of_kind? {n : NumberLiteral} {k : TokenKind}
    (h : n.kind? = some k) : k.isReadable = true := by
  unfold kind? at h
  split at h
  · obtain ⟨value, -, rfl⟩ := Option.map_eq_some_iff.mp h
    rfl
  · cases h
    simp [TokenKind.isReadable, double, Decimal.toDouble, Double.isNaN_ofMagnitude]

private theorem isName_name {c : Char} (h : isNameStart c = true) (cs : List Char) :
    isName (String.ofList (c :: cs.takeWhile isNameChar)) = true := by
  simp [isName, h]

/-- A string is readable whatever its value. -/
private theorem isReadable_ofReading {r : Reading (List Char)}
    (value : List Char × List Char → String × List Char) {resume : List Char} {k : TokenKind}
    (h : (Lexeme.ofReading (r.map fun x => (.string (value x).1, (value x).2)) resume).outcome =
      .ok k) : k.isReadable = true := by
  cases r with
  | error fault => cases h
  | ok x =>
    cases h
    rfl

private theorem isReadable_string {cs : List Char} {k : TokenKind}
    (h : (Lexeme.string cs).outcome = .ok k) : k.isReadable = true := by
  unfold Lexeme.string at h
  split at h
  · exact isReadable_ofReading (fun x => (String.ofList (dedent x.1), x.2)) h
  · exact isReadable_ofReading (fun x => (String.ofList x.1, x.2)) h

theorem isReadable_lexeme {c : Char} {cs : List Char} {k : TokenKind}
    (h : (lexeme c cs).outcome = .ok k) : k.isReadable = true := by
  unfold lexeme at h
  split at h
  · cases h
    rfl
  · split at h
    · unfold Lexeme.spread at h
      split at h <;> cases h
      rfl
    · split at h
      · next hname =>
        cases h
        exact isName_name hname cs
      · split at h
        · unfold Lexeme.number at h
          split at h
          · cases h
          · split at h
            · next hkind =>
              cases h
              exact NumberLiteral.isReadable_of_kind? hkind
            · cases h
        · split at h
          · exact isReadable_string h
          · cases h

/-! ## Runs -/

theorem byteLength_le_of_suffix {cs ds : List Char} (h : cs <:+ ds) :
    byteLength cs ≤ byteLength ds := by
  obtain ⟨front, rfl⟩ := h
  rw [byteLength_append]
  exact Nat.le_add_left _ _

namespace Scanner

/-- A scanner gives the end, or the token of the next lexeme behind what is skipped. -/
theorem scan_eq_ok {s s' : Scanner} {token : Token} (h : s.scan = (.ok token, s')) :
    token = s.endToken ∨ ∃ c cs k, skipIgnored .blanks s.ahead = c :: cs ∧
      (lexeme c cs).outcome = .ok k ∧
      token = ⟨some k, s.offsetOf (c :: cs), s.offsetOf (lexeme c cs).rest⟩ ∧
      s' = { s with ahead := (lexeme c cs).rest } := by
  unfold scan at h
  split at h
  · cases h
    exact .inl rfl
  · next c cs hskip =>
    refine .inr ⟨c, cs, ?_⟩
    cases hk : (lexeme c cs).outcome with
    | error stuck => simp [hk] at h
    | ok k =>
      simp only [hk] at h
      cases h
      exact ⟨k, hskip, rfl, rfl, rfl⟩

/-- The token of a kind is that of a lexeme. -/
theorem isReadable_of_mem {n : Nat} {s : Scanner} {token : Token} {k : TokenKind}
    (h : token ∈ (runFor n s).1.tokens) (hk : token.kind = some k) : k.isReadable = true := by
  induction n generalizing s with
  | zero => cases h
  | succ n ih =>
    unfold runFor at h
    split at h
    · cases h
    · next first s' hscan =>
      split at h
      · cases h
      · rcases List.mem_cons.mp h with rfl | h
        · rcases scan_eq_ok hscan with rfl | ⟨c, cs, k', -, hlexeme, rfl, -⟩
          · cases hk
          · cases hk
            exact isReadable_lexeme hlexeme
        · exact ih h

/-- The kinds of a source are readable. -/
theorem readable_kinds (source : String) : Readable (runOf source).kinds := by
  intro k hk
  obtain ⟨token, htoken, hkind⟩ := List.mem_filterMap.mp hk
  exact isReadable_of_mem htoken hkind

/-! ## Places -/

/-- All tokens of a run, the end among them unless there is a fault. -/
def Run.found (run : Run) : List Token :=
  run.tokens ++ run.last.toOption.toList

/-- What is ahead is the end of the source. -/
def Valid (s : Scanner) : Prop :=
  s.ahead <:+ s.source.toList

theorem valid_ofSource (source : String) : (ofSource source).Valid :=
  List.suffix_refl _

/-- A token that is not the end begins in front of what the scanner goes on with. -/
theorem Valid.scan {s s' : Scanner} (h : s.Valid) {token : Token}
    (hscan : s.scan = (.ok token, s')) (hend : token.isEnd = false) :
    s'.Valid ∧ s.offset ≤ token.start ∧ token.start < s'.offset := by
  rcases scan_eq_ok hscan with rfl | ⟨c, cs, k, hskip, -, rfl, rfl⟩
  · cases hend
  have htail : c :: cs <:+ s.ahead := hskip ▸ skipIgnored_suffix .blanks s.ahead
  have hrest : (lexeme c cs).rest <:+ cs := lexeme_suffix c cs
  refine ⟨hrest.trans ((List.suffix_cons c cs).trans (htail.trans h)), ?_, ?_⟩
  · exact Nat.sub_le_sub_left (byteLength_le_of_suffix htail) _
  · have hsource := byteLength_le_of_suffix (htail.trans h)
    have hcs := byteLength_le_of_suffix hrest
    have hpos := c.utf8Size_pos
    rw [byteLength_toList, byteLength_cons] at hsource
    simp only [offset, offsetOf, byteLength_cons]
    omega

/-- The tokens of a run begin one behind the other, and none in front of the scanner. -/
theorem Valid.found_runFor {s : Scanner} (h : s.Valid) (n : Nat) :
    (∀ token ∈ (runFor n s).1.found, s.offset ≤ token.start) ∧
      (runFor n s).1.found.Pairwise fun t u => t.start < u.start := by
  have hend : s.offset ≤ s.endToken.start := Nat.sub_le _ _
  induction n generalizing s with
  | zero => simpa [runFor, Run.found, Except.toOption] using hend
  | succ n ih =>
    unfold runFor
    split
    · simp [Run.found, Except.toOption]
    · next first s' hscan =>
      split
      · next hlast =>
        rcases scan_eq_ok hscan with rfl | ⟨c, cs, k, -, -, rfl, -⟩
        · simpa [Run.found, Except.toOption] using hend
        · cases hlast
      · next hfirst =>
        obtain ⟨hvalid, hbehind, hfront⟩ := h.scan hscan (by simpa using hfirst)
        obtain ⟨hall, hpairwise⟩ := ih hvalid (Nat.sub_le _ _)
        have hlt : ∀ token ∈ (runFor n s').1.found, first.start < token.start :=
          fun token htoken => Nat.lt_of_lt_of_le hfront (hall token htoken)
        refine ⟨?_, List.pairwise_cons.mpr ⟨hlt, hpairwise⟩⟩
        intro token htoken
        rcases List.mem_cons.mp htoken with rfl | htoken
        · exact hbehind
        · have := hlt token htoken
          omega

/-- No two tokens of a source begin at the same byte. -/
theorem start_injective {source : String} {i j : Nat} {t u : Token}
    (ht : (runOf source).found[i]? = some t) (hu : (runOf source).found[j]? = some u)
    (h : t.start = u.start) : i = j := by
  obtain ⟨-, hpairwise⟩ := (valid_ofSource source).found_runFor (ofSource source).bound
  obtain ⟨hi, rfl⟩ := List.getElem?_eq_some_iff.mp ht
  obtain ⟨hj, rfl⟩ := List.getElem?_eq_some_iff.mp hu
  have hbefore := List.pairwise_iff_getElem.mp hpairwise
  rcases Nat.lt_trichotomy i j with hlt | heq | hlt
  · exact absurd h (Nat.ne_of_lt (hbefore i j hi hj hlt))
  · exact heq
  · exact absurd h.symm (Nat.ne_of_lt (hbefore j i hj hi hlt))

end Scanner

end GraphQLSyntax
