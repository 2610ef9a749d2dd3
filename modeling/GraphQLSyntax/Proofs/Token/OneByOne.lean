import GraphQLSyntax.Proofs.Token.Scanned

/-!
# Tokens one at a time

A run of the scanner is its first token and the run of the scanner behind that token. No item of a
source is given by anything but a scan: the bound on the number of items is never reached.

* `Scanner.run_of_token`, `Scanner.run_of_end`, `Scanner.run_of_error`: a run by its first scan.
* `Scanner.tokens_eq`: the items of a scanner are the tokens of its run and what it ended with.
* `Scanner.length_tokens_le`: there are no more tokens than characters.
-/

namespace GraphQLSyntax

namespace Scanner

variable {s s' : Scanner} {token : Token} {e : LexError}

/-- Behind a token that is not the end, fewer characters are ahead. -/
theorem length_ahead_lt (h : s.scan = (.ok token, s')) (hend : token.isEnd = false) :
    s'.ahead.length < s.ahead.length := by
  rcases scan_eq_ok h with rfl | ⟨c, cs, k, hskip, -, -, rfl⟩
  · cases hend
  · have hahead := (hskip ▸ skipIgnored_suffix .blanks s.ahead : c :: cs <:+ s.ahead).length_le
    have hrest := (lexeme_suffix c cs).length_le
    simp only [List.length_cons] at hahead
    exact Nat.lt_of_le_of_lt hrest (by omega)

/-- The end is where nothing is ahead but what is skipped, and nothing is ahead behind it. -/
theorem scan_of_end (h : s.scan = (.ok token, s')) (hend : token.isEnd = true) :
    token = s.endToken ∧ s' = { s with ahead := [] } ∧ skipIgnored .blanks s.ahead = [] := by
  unfold scan at h
  split at h
  · next hskip =>
    cases h
    exact ⟨rfl, rfl, hskip⟩
  · next c cs hskip =>
    cases hk : (lexeme c cs).outcome with
    | error stuck => simp [hk] at h
    | ok k =>
      simp only [hk] at h
      cases h
      cases hend

/-- Any bound above the number of characters gives the same run. -/
theorem runFor_eq_runFor {m n : Nat} (hm : s.ahead.length < m) (hn : s.ahead.length < n) :
    runFor m s = runFor n s := by
  induction m generalizing n s with
  | zero => omega
  | succ m ih =>
    obtain ⟨n, rfl⟩ : ∃ k, n = k + 1 := ⟨n - 1, by omega⟩
    unfold runFor
    split
    · rfl
    · next token s' hscan =>
      split
      · rfl
      · next hend =>
        have hlt := length_ahead_lt hscan (by simpa using hend)
        rw [ih (n := n) (by omega) (by omega)]

theorem run_of_token (h : s.scan = (.ok token, s')) (hend : token.isEnd = false) :
    s.run.1 = ⟨token :: s'.run.1.tokens, s'.run.1.last⟩ := by
  have hlt := length_ahead_lt h hend
  unfold run bound
  rw [runFor, h]
  simp [hend, runFor_eq_runFor hlt (Nat.lt_succ_self _)]

theorem run_of_end (h : s.scan = (.ok token, s')) (hend : token.isEnd = true) :
    s.run.1 = ⟨[], .ok token⟩ := by
  unfold run bound
  rw [runFor, h]
  simp [hend]

theorem run_of_error (h : s.scan = (.error e, s')) : s.run.1 = ⟨[], .error e⟩ := by
  unfold run bound
  rw [runFor, h]

/-- The first kind of a run is that of the first token, unless that is the end. -/
theorem head?_kinds {k : TokenKind} :
    s.run.1.kinds.head? = some k ↔ ∃ token, s.scan.1 = .ok token ∧ token.kind = some k := by
  rcases hscan : s.scan with ⟨e | first, s'⟩
  · simp [run_of_error hscan, Run.kinds]
  · cases hend : first.isEnd with
    | true =>
      have hkind : first.kind = none := by simpa [Token.isEnd] using hend
      simp [run_of_end hscan hend, Run.kinds, hkind]
    | false =>
      obtain ⟨k', hk'⟩ := Option.isSome_iff_exists.mp (by simpa [Token.isEnd] using hend)
      simp [run_of_token hscan hend, Run.kinds, hk']

/-- At most `n` items are those of a run of at most `n` tokens and what it ended with. -/
theorem pull_eq {n : Nat} (h : s.ahead.length < n) :
    (pull n s).1 = (runFor n s).1.tokens.map .ok ++ [(runFor n s).1.last] := by
  induction n generalizing s with
  | zero => omega
  | succ n ih =>
    unfold pull runFor
    rcases hscan : s.scan with ⟨e | token, s'⟩
    · simp [isLast]
    · cases hend : token.isEnd with
      | true => simp [isLast, hend]
      | false =>
        have hlt := length_ahead_lt hscan hend
        simp [isLast, hend, ih (s := s') (by omega)]

/-- The items of a scanner are the tokens of its run and what it ended with. -/
theorem tokens_eq (s : Scanner) : s.tokens.1 = s.run.1.tokens.map .ok ++ [s.run.1.last] :=
  pull_eq (Nat.lt_succ_self _)

/-- The tokens that a scanner gives are those of its run, the end among them unless there is a
fault. -/
theorem ok_mem_tokens : .ok token ∈ s.tokens.1 ↔ token ∈ s.run.1.found := by
  rw [tokens_eq, Run.found]
  cases s.run.1.last <;> simp [Except.toOption]

theorem length_tokens_le (s : Scanner) : s.run.1.tokens.length ≤ s.ahead.length := by
  induction hn : s.ahead.length using Nat.strongRecOn generalizing s with
  | ind n ih =>
    rcases hscan : s.scan with ⟨e | token, s'⟩
    · simp [run_of_error hscan]
    · cases hend : token.isEnd with
      | true => simp [run_of_end hscan hend]
      | false =>
        have hlt := length_ahead_lt hscan hend
        have hle := ih s'.ahead.length (by omega) s' rfl
        rw [run_of_token hscan hend, List.length_cons]
        omega

end Scanner

end GraphQLSyntax
