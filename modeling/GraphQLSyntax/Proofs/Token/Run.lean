import GraphQLSyntax.Document

/-!
# Runs of the scanner

The tokens in front of the end have kinds, the end has none, so the kinds of all tokens of a source
are those that the grammar sees.
-/

namespace GraphQLSyntax

namespace Scanner

/-- What the grammar sees of a run. -/
def Run.kinds (run : Run) : List TokenKind :=
  run.tokens.filterMap Token.kind

/-- The tokens of a run have its kinds if they have any. -/
theorem Run.map_kind {run : Run} (h : ∀ token ∈ run.tokens, token.kind.isSome) :
    run.tokens.map Token.kind = run.kinds.map some := by
  obtain ⟨tokens, last⟩ := run
  show tokens.map Token.kind = (tokens.filterMap Token.kind).map some
  induction tokens with
  | nil => rfl
  | cons token tokens ih =>
    obtain ⟨htoken, htokens⟩ := List.forall_mem_cons.mp h
    obtain ⟨k, hk⟩ := Option.isSome_iff_exists.mp htoken
    rw [List.filterMap_cons_some hk, List.map_cons, List.map_cons, hk, ih htokens]

theorem Run.length_kinds {run : Run} (h : ∀ token ∈ run.tokens, token.kind.isSome) :
    run.kinds.length = run.tokens.length := by
  simpa using (congrArg List.length (map_kind h)).symm

/-- The run of a source up to its end or its first fault. -/
def runOf (source : String) : Run :=
  (ofSource source).run.1

/-- Nothing but the end can be the last token. -/
theorem kind_of_last {n : Nat} {s : Scanner} {token : Token}
    (h : (runFor n s).1.last = .ok token) : token.kind = none := by
  induction n generalizing s with
  | zero =>
    cases h
    rfl
  | succ n ih =>
    unfold runFor at h
    split at h
    · cases h
    · split at h
      · next hend =>
        cases h
        exact Option.isNone_iff_eq_none.mp hend
      · exact ih h

theorem kind_isSome {n : Nat} {s : Scanner} {token : Token} (h : token ∈ (runFor n s).1.tokens) :
    token.kind.isSome := by
  induction n generalizing s with
  | zero => cases h
  | succ n ih =>
    unfold runFor at h
    split at h
    · cases h
    · split at h
      · cases h
      · next hend =>
        rcases List.mem_cons.mp h with rfl | h
        · simpa [Token.isEnd, Option.isSome_iff_ne_none] using hend
        · exact ih h

theorem lex_eq_ok {source : String} {tokens : List Token} :
    lex source = .ok tokens ↔
      ∃ token, (runOf source).last = .ok token ∧ tokens = (runOf source).tokens ++ [token] := by
  show (runOf source).last.map (fun token => (runOf source).tokens ++ [token]) = _ ↔ _
  cases (runOf source).last with
  | error e => simp [Except.map]
  | ok token => simp [Except.map, eq_comm]

theorem kinds_of_lex {source : String} {tokens : List Token} (h : lex source = .ok tokens) :
    tokens.filterMap Token.kind = (runOf source).kinds := by
  obtain ⟨token, hlast, rfl⟩ := lex_eq_ok.mp h
  rw [List.filterMap_append, List.filterMap_cons_none (kind_of_last hlast), List.filterMap_nil,
    List.append_nil]
  rfl

end Scanner

end GraphQLSyntax
