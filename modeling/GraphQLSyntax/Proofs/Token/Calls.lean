import GraphQLSyntax.Proofs.Token.Tiling

/-!
# Calls of a scanner

A scanner can be asked for the next token, for all that are left, for some of them, and to go back
to the start, in any order and also behind faults. Whatever it was asked for, it stands between two
characters of its source, each scan but one at the end moves it forward, and reading all tokens or
some is scanning again and again.

* `Scanner.scanTimes`: scans in a row.
* `Scanner.exists_pull_eq`: the items up to the end or the first fault are those of some scans.
* `Scanner.scan_scanTimes`: with no more scans than characters a scanner comes to the end.
* `Scanner.steady_after`: all of it, for every scanner that calls can lead to.
-/

namespace GraphQLSyntax

namespace Scanner

/-! ## Calls -/

/-- What a scanner can be asked for. -/
inductive Call
  | scan
  | remaining
  | tokens
  /-- At most so many of the items up to the end or the first fault. -/
  | pull (n : Nat)
  | reset
deriving DecidableEq, Repr

inductive Answer
  | item (item : Except LexError Token)
  | all (tokens : Except LexError (List Token))
  | items (items : List (Except LexError Token))
  | done

/-- What the scanner answers, and the scanner behind that. -/
def answer (s : Scanner) : Call → Answer × Scanner
  | .scan => (.item s.scan.1, s.scan.2)
  | .remaining => (.all s.remaining.1, s.remaining.2)
  | .tokens => (.items s.tokens.1, s.tokens.2)
  | .pull n => (.items (s.pull n).1, (s.pull n).2)
  | .reset => (.done, s.reset)

/-- The scanner behind calls one after the other. -/
def after (s : Scanner) (calls : List Call) : Scanner :=
  calls.foldl (fun s call => (s.answer call).2) s

/-- The answers of calls one after the other. -/
def answers (s : Scanner) : List Call → List Answer
  | [] => []
  | call :: calls => (s.answer call).1 :: (s.answer call).2.answers calls

/-- The items of scans in a row, faults and ends among them, and the scanner behind them. -/
def scanTimes : Nat → Scanner → List (Except LexError Token) × Scanner
  | 0, s => ([], s)
  | n + 1, s =>
    let (item, s) := s.scan
    let (items, s) := scanTimes n s
    (item :: items, s)

/-! ## One scan -/

variable {s : Scanner}

/-- A scan gives the end where nothing is ahead but what is skipped, or else a lexeme and goes on
behind it. -/
theorem scan_cases (s : Scanner) :
    (skipIgnored .blanks s.ahead = [] ∧ s.scan.1 = .ok s.endToken ∧
        s.scan.2 = { s with ahead := [] }) ∨
      ∃ c cs, skipIgnored .blanks s.ahead = c :: cs ∧
        (∀ token, s.scan.1 = .ok token → token.isEnd = false) ∧
        s.scan.2 = { s with ahead := (lexeme c cs).rest } := by
  unfold scan
  split
  · next hskip => exact .inl ⟨hskip, rfl, rfl⟩
  · next c cs hskip =>
    refine .inr ⟨c, cs, hskip, fun token htoken => ?_, rfl⟩
    cases hk : (lexeme c cs).outcome with
    | error stuck => simp [hk] at htoken
    | ok k =>
      simp only [hk] at htoken
      cases htoken
      rfl

theorem source_scan (s : Scanner) : s.scan.2.source = s.source := by
  rcases s.scan_cases with ⟨-, -, h⟩ | ⟨_, _, -, -, h⟩ <;> rw [h]

theorem ahead_scan_suffix (s : Scanner) : s.scan.2.ahead <:+ s.ahead := by
  rcases s.scan_cases with ⟨-, -, h⟩ | ⟨c, cs, hskip, -, h⟩
  · exact h ▸ List.nil_suffix
  · have htail : c :: cs <:+ s.ahead := hskip ▸ skipIgnored_suffix .blanks s.ahead
    exact h ▸ (lexeme_suffix c cs).trans ((List.suffix_cons c cs).trans htail)

/-- A scan that does not give the end takes a character, be it a token or a fault. -/
theorem ahead_lt_of_scan (h : ∀ token, s.scan.1 = .ok token → token.isEnd = false) :
    byteLength s.scan.2.ahead < byteLength s.ahead ∧ s.scan.2.ahead.length < s.ahead.length := by
  rcases s.scan_cases with ⟨-, hend, -⟩ | ⟨c, cs, hskip, -, hs⟩
  · cases h _ hend
  · have htail : c :: cs <:+ s.ahead := hskip ▸ skipIgnored_suffix .blanks s.ahead
    have hrest := lexeme_suffix c cs
    have hbytes := byteLength_le_of_suffix htail
    have hbytes' := byteLength_le_of_suffix hrest
    have hlength := htail.length_le
    have hlength' := hrest.length_le
    have hpos := c.utf8Size_pos
    rw [byteLength_cons] at hbytes
    rw [List.length_cons] at hlength
    rw [hs]
    dsimp only
    omega

/-! ## Scans in a row -/

theorem scanTimes_succ (n : Nat) (s : Scanner) :
    s.scanTimes (n + 1) =
      (s.scan.1 :: (s.scan.2.scanTimes n).1, (s.scan.2.scanTimes n).2) := rfl

theorem pull_succ (n : Nat) (s : Scanner) :
    s.pull (n + 1) =
      if isLast s.scan.1 then ([s.scan.1], s.scan.2)
      else (s.scan.1 :: (s.scan.2.pull n).1, (s.scan.2.pull n).2) := by
  rfl

theorem isEnd_of_isLast_eq_false {item : Except LexError Token} (h : isLast item = false) :
    ∀ token, item = .ok token → token.isEnd = false := by
  rintro token rfl
  exact h

/-- The first scans of a row: all but the last one give tokens, and that one gives the end or a
fault. -/
def StopsAt (s : Scanner) (n : Nat) : Prop :=
  ∃ front last, (s.scanTimes (n + 1)).1 = front ++ [last] ∧ (∀ item ∈ front, isLast item = false) ∧
    isLast last = true

/-- The items up to the end or the first fault are those of some scans, and the scanner stands where
these lead. At most so many items are the first of them. -/
theorem exists_pull_eq (s : Scanner) :
    ∃ n ≤ s.ahead.length, s.StopsAt n ∧ ∀ k, s.pull k = s.scanTimes (min k (n + 1)) := by
  induction hn : s.ahead.length using Nat.strongRecOn generalizing s with
  | ind length ih =>
    cases hlast : isLast s.scan.1 with
    | true =>
      refine ⟨0, Nat.zero_le _, ⟨[], s.scan.1, rfl, by simp, hlast⟩, fun k => ?_⟩
      cases k with
      | zero => rfl
      | succ k => simp [pull_succ, hlast, scanTimes_succ, scanTimes]
    | false =>
      have hlt := (ahead_lt_of_scan (isEnd_of_isLast_eq_false hlast)).2
      obtain ⟨n, hle, ⟨front, last, hitems, hfront, hend⟩, hpull⟩ := ih _ (hn ▸ hlt) s.scan.2 rfl
      refine ⟨n + 1, by omega, ⟨s.scan.1 :: front, last, ?_, ?_, hend⟩, fun k => ?_⟩
      · rw [scanTimes_succ, hitems, List.cons_append]
      · exact List.forall_mem_cons.mpr ⟨hlast, hfront⟩
      · cases k with
        | zero => rfl
        | succ k =>
          rw [pull_succ, hlast, if_neg (by simp), hpull, Nat.add_min_add_right, scanTimes_succ]

/-- A run leads to where its items lead. -/
theorem runFor_snd {n : Nat} (h : s.ahead.length < n) : (s.runFor n).2 = (s.pull n).2 := by
  induction n generalizing s with
  | zero => omega
  | succ n ih =>
    rw [pull_succ, runFor]
    rcases hscan : s.scan with ⟨e | token, s'⟩
    · simp [isLast]
    · cases hend : token.isEnd with
      | true => simp [isLast, hend]
      | false =>
        have hlt := length_ahead_lt hscan hend
        simp [isLast, hend, ih (s := s') (by omega)]

/-- Tokens behind each other and what stands behind them, if that is a token. -/
private theorem mapM_id_append (tokens : List Token) (last : Except LexError Token) :
    (tokens.map Except.ok ++ [last]).mapM id = last.map fun token => tokens ++ [token] := by
  induction tokens with
  | nil => cases last <;> rfl
  | cons token tokens ih =>
    rw [List.map_cons, List.cons_append, List.mapM_cons, ih]
    cases last <;> rfl

/-- All tokens, or the first fault, are what the items up to there come to. -/
theorem remaining_eq (s : Scanner) : s.remaining = (s.tokens.1.mapM id, s.tokens.2) := by
  rw [tokens_eq, mapM_id_append]
  exact Prod.ext rfl (runFor_snd (Nat.lt_succ_self _))

/-- Whatever a scanner is asked for but to go back, it does by scanning. -/
theorem exists_scanTimes_of_answer (s : Scanner) {call : Call} (h : call ≠ .reset) :
    ∃ n, (s.answer call).2 = (s.scanTimes n).2 := by
  obtain ⟨n, -, -, hpull⟩ := s.exists_pull_eq
  have htokens : ∃ n, s.tokens.2 = (s.scanTimes n).2 := ⟨_, by rw [tokens, hpull]⟩
  cases call with
  | scan => exact ⟨1, rfl⟩
  | remaining =>
    show ∃ n, s.remaining.2 = _
    rw [remaining_eq]
    exact htokens
  | tokens => exact htokens
  | pull k => exact ⟨_, congrArg Prod.snd (hpull k)⟩
  | reset => exact absurd rfl h

/-- What each scan preserves is preserved by scans in a row. -/
theorem scanTimes_induction {P : Scanner → Prop} (hscan : ∀ s, P s → P s.scan.2) {s : Scanner}
    (h : P s) (n : Nat) : P (s.scanTimes n).2 := by
  induction n generalizing s with
  | zero => exact h
  | succ n ih => exact ih (hscan s h)

/-- What each scan preserves is preserved by calls, up to going back to the start. -/
theorem after_induction {P : Scanner → Prop} (hscan : ∀ s, P s → P s.scan.2) {calls : List Call}
    (hcalls : .reset ∈ calls → ∀ s, P s → P s.reset) {s : Scanner} (h : P s) :
    P (s.after calls) := by
  induction calls generalizing s with
  | nil => exact h
  | cons call calls ih =>
    have hcall : P (s.answer call).2 := by
      by_cases hreset : call = .reset
      · subst hreset
        exact hcalls List.mem_cons_self s h
      · obtain ⟨n, hn⟩ := s.exists_scanTimes_of_answer hreset
        rw [hn]
        exact scanTimes_induction hscan h n
    exact ih (fun hmem => hcalls (List.mem_cons_of_mem _ hmem)) hcall

/-- With no more scans than characters a scanner comes to the end, whatever faults there are. -/
theorem scan_scanTimes (s : Scanner) : (s.scanTimes s.ahead.length).2.scan.1 = .ok s.endToken := by
  suffices ∀ n, s.ahead.length ≤ n → (s.scanTimes n).2.scan.1 = .ok s.endToken from
    this _ (Nat.le_refl _)
  intro n hn
  induction n generalizing s with
  | zero =>
    have hnil : s.ahead = [] := List.length_eq_zero_iff.mp (Nat.le_zero.mp hn)
    show s.scan.1 = _
    rw [scan, hnil]
    rfl
  | succ n ih =>
    have hsource : s.scan.2.endToken = s.endToken := by
      rw [endToken, source_scan]
      rfl
    have hle : s.scan.2.ahead.length ≤ n := by
      rcases s.scan_cases with ⟨-, -, hs⟩ | ⟨_, _, -, hitem, -⟩
      · rw [hs]
        exact Nat.zero_le n
      · have hlt := (ahead_lt_of_scan hitem).2
        omega
    rw [scanTimes_succ, ← hsource]
    exact ih s.scan.2 hle

/-! ## Whatever was asked for -/

theorem Valid.after_scan (h : s.Valid) : s.scan.2.Valid := by
  rw [Valid, source_scan]
  exact s.ahead_scan_suffix.trans h

/-- Calls leave the source as it is, and the end of it ahead. -/
theorem valid_after (source : String) (calls : List Call) :
    ((ofSource source).after calls).source = source ∧ ((ofSource source).after calls).Valid := by
  apply after_induction (P := fun s => s.source = source ∧ s.Valid)
  · exact fun s h => ⟨s.source_scan.trans h.1, h.2.after_scan⟩
  · exact fun _ s h => ⟨h.1, valid_ofSource s.source⟩
  · exact ⟨rfl, valid_ofSource source⟩

/-- Where nothing is ahead, nothing will be until the scanner goes back. -/
theorem ahead_after_eq_nil {calls : List Call} (hcalls : .reset ∉ calls) (h : s.ahead = []) :
    (s.after calls).ahead = [] ∧ (s.after calls).source = s.source := by
  apply after_induction (P := fun t => t.ahead = [] ∧ t.source = s.source) _
    (fun hmem => absurd hmem hcalls) ⟨h, rfl⟩
  rintro t ⟨hnil, hsource⟩
  have hsuffix := t.ahead_scan_suffix
  rw [hnil, List.suffix_nil] at hsuffix
  exact ⟨hsuffix, t.source_scan.trans hsource⟩

/-- What holds of a scanner of a source at any time. -/
structure Steady (source : String) (s : Scanner) : Prop where
  /-- It stands in front of what is ahead of it. -/
  place : ∃ front, source.toList = front ++ s.ahead ∧ s.offset = byteLength front
  /-- It stands between two characters. -/
  boundary : (String.Pos.Raw.mk s.offset).IsValid source
  within : s.offset ≤ source.utf8ByteSize
  /-- A scan that gives a token or a fault moves it forward. -/
  forward : (∀ token, s.scan.1 = .ok token → token.isEnd = false) → s.offset < s.scan.2.offset
  /-- A scan gives the end exactly where only ignored text is left. -/
  ends : (∃ token, s.scan.1 = .ok token ∧ token.isEnd = true) ↔ Ignored [] s.ahead
  /-- The end takes no bytes behind all others, and every later scan gives it again. -/
  stays : ∀ token, s.scan.1 = .ok token → token.isEnd = true →
    token = ⟨none, source.utf8ByteSize, source.utf8ByteSize⟩ ∧
      ∀ later, .reset ∉ later → (s.scan.2.after later).scan.1 = .ok token
  /-- All items, at most so many of them, and all tokens are what scanning again and again gives, up
  to the end or the first fault, and they leave the scanner where that does. All tokens are no more
  than the fault, if there is one. -/
  reads : ∃ n ≤ s.ahead.length, s.StopsAt n ∧ s.tokens = s.scanTimes (n + 1) ∧
    s.remaining = ((s.scanTimes (n + 1)).1.mapM id, (s.scanTimes (n + 1)).2) ∧
    ∀ k, s.pull k = s.scanTimes (min k (n + 1))
  /-- Scanning on behind each fault comes to the end. -/
  drains : (s.scanTimes s.ahead.length).2.scan.1 =
    .ok ⟨none, source.utf8ByteSize, source.utf8ByteSize⟩
  /-- Back at the start, it answers what a new scanner would. -/
  resets : ∀ later, s.reset.answers later = (ofSource source).answers later

/-- The end is given exactly where only ignored text is left. -/
theorem scan_eq_end_iff (s : Scanner) :
    (∃ token, s.scan.1 = .ok token ∧ token.isEnd = true) ↔ Ignored [] s.ahead := by
  rw [← skipIgnored_eq_nil_iff]
  rcases s.scan_cases with ⟨hskip, hend, -⟩ | ⟨c, cs, hskip, hitem, -⟩
  · exact ⟨fun _ => hskip, fun _ => ⟨_, hend, rfl⟩⟩
  · constructor
    · rintro ⟨token, htoken, hend⟩
      rw [hitem token htoken] at hend
      cases hend
    · intro h
      rw [h] at hskip
      cases hskip

theorem scan_eq_end_after {token : Token} (h : s.scan.1 = .ok token) (hend : token.isEnd = true) :
    token = s.endToken ∧ ∀ later, .reset ∉ later → (s.scan.2.after later).scan.1 = .ok token := by
  obtain ⟨rfl, hs, -⟩ := scan_of_end (Prod.ext h rfl : s.scan = (.ok token, s.scan.2)) hend
  refine ⟨rfl, fun later hlater => ?_⟩
  obtain ⟨hnil, hsource⟩ := ahead_after_eq_nil (s := s.scan.2) hlater (by rw [hs])
  rw [scan, hnil]
  show Except.ok (endToken _) = _
  rw [endToken, hsource, source_scan]
  rfl

theorem Valid.steady (h : s.Valid) : Steady s.source s := by
  have ⟨front, hfront⟩ := h
  have hplace : s.offset = byteLength front := offsetOf_eq hfront.symm
  have hle : byteLength s.ahead ≤ s.source.utf8ByteSize := by
    rw [← byteLength_toList]
    exact byteLength_le_of_suffix h
  obtain ⟨n, hn, hstops, hpull⟩ := s.exists_pull_eq
  have htokens : s.tokens = s.scanTimes (n + 1) := by
    rw [tokens, hpull, bound, Nat.min_eq_right (by omega)]
  exact {
    place := ⟨front, hfront.symm, hplace⟩
    boundary := by
      rw [String.Pos.Raw.isValid_iff_exists_append]
      refine ⟨String.ofList front, String.ofList s.ahead, ?_, ?_⟩
      · rw [← String.ofList_append, hfront, String.ofList_toList]
      · have hbytes : byteLength front = (String.ofList front).utf8ByteSize := by
          rw [← byteLength_toList, String.toList_ofList]
        rw [hplace, hbytes]
        rfl
    within := Nat.sub_le _ _
    forward := fun hitem => by
      have hlt := (ahead_lt_of_scan hitem).1
      rw [offset, offset, offsetOf, offsetOf, source_scan]
      omega
    ends := s.scan_eq_end_iff
    stays := fun token => scan_eq_end_after
    reads := ⟨n, hn, hstops, htokens, htokens ▸ s.remaining_eq, hpull⟩
    drains := s.scan_scanTimes
    resets := fun later => rfl }

/-- **A scanner is steady whatever it was asked for**, faults and all. -/
theorem steady_after (source : String) (calls : List Call) :
    Steady source ((ofSource source).after calls) := by
  obtain ⟨hsource, hvalid⟩ := valid_after source calls
  have hsteady := hvalid.steady
  rwa [hsource] at hsteady

end Scanner

end GraphQLSyntax
