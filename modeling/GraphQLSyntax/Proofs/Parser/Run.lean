import GraphQLSyntax.Parser.Basic
import GraphQLSyntax.Token.Spelling

/-!
# Running parsers

What the building blocks of parsers do to a list of tokens, stated on the list. The rules come in
two forms: `*_run` gives the outcome, and `*_eq_ok` says when a parser succeeds and with what.

* `bind_run`, `bind_eq_ok`: a sequence runs its parts one behind the other.
* `checked_eq_ok`, `checked_eq_error`: a parser that checks what it has read.
* `eat_bind_run`, `peek_bind_run`: a choice by the next token.
* `Takes`: how many tokens a parser takes at least.
* `collect_eq_collect`: if each round takes a token, the bound on the rounds is never reached.
* `each_run`, `delimited_run`, `untilEnd_run`: if its items take tokens, a repetition is an item and
  the repetition of the rest.
-/

namespace GraphQLSyntax

namespace Parser

variable {α β : Type}

/-! ## Sequences -/

theorem pure_run (x : α) (ts : List TokenKind) : (pure x : Parser α) ts = .ok (x, ts) := rfl

theorem bind_run (p : Parser α) (f : α → Parser β) (ts : List TokenKind) :
    (p >>= f) ts = match p ts with
      | .ok (x, rest) => f x rest
      | .error e => .error e := by
  show (p ts >>= fun y => f y.1 y.2) = _
  cases p ts <;> rfl

theorem map_run (f : α → β) (p : Parser α) (ts : List TokenKind) :
    (f <$> p) ts = match p ts with
      | .ok (x, rest) => .ok (f x, rest)
      | .error e => .error e := by
  show (p ts >>= fun y => pure (f y.1, y.2)) = _
  cases p ts <;> rfl

theorem map_eq_bind (f : α → β) (p : Parser α) : f <$> p = p >>= fun x => pure (f x) := by
  funext ts
  rw [map_run, bind_run]
  rfl

theorem bind_of_ok {p : Parser α} {ts rest : List TokenKind} {x : α} (h : p ts = .ok (x, rest))
    (f : α → Parser β) : (p >>= f) ts = f x rest := by
  rw [bind_run, h]

theorem bind_of_error {p : Parser α} {ts : List TokenKind} {e : Failure} (h : p ts = .error e)
    (f : α → Parser β) : (p >>= f) ts = .error e := by
  rw [bind_run, h]

theorem pure_eq_ok {x y : α} {ts rest : List TokenKind} :
    (pure x : Parser α) ts = .ok (y, rest) ↔ x = y ∧ ts = rest := by
  simp [pure_run]

theorem bind_eq_ok {p : Parser α} {f : α → Parser β} {ts rest : List TokenKind} {y : β} :
    (p >>= f) ts = .ok (y, rest) ↔ ∃ x mid, p ts = .ok (x, mid) ∧ f x mid = .ok (y, rest) := by
  rw [bind_run]
  constructor
  · intro h
    cases hp : p ts with
    | error e => simp [hp] at h
    | ok r => exact ⟨r.1, r.2, rfl, by simpa [hp] using h⟩
  · rintro ⟨x, mid, hp, hf⟩
    rw [hp]
    exact hf

theorem map_eq_ok {f : α → β} {p : Parser α} {ts rest : List TokenKind} {y : β} :
    (f <$> p) ts = .ok (y, rest) ↔ ∃ x, p ts = .ok (x, rest) ∧ f x = y := by
  rw [map_eq_bind, bind_eq_ok]
  simp only [pure_eq_ok]
  constructor
  · rintro ⟨x, _, hp, hx, rfl⟩
    exact ⟨x, hp, hx⟩
  · rintro ⟨x, hp, hx⟩
    exact ⟨x, rest, hp, hx, rfl⟩

theorem bind_eq_error {p : Parser α} {f : α → Parser β} {ts : List TokenKind} {e : Failure} :
    (p >>= f) ts = .error e ↔
      p ts = .error e ∨ ∃ x mid, p ts = .ok (x, mid) ∧ f x mid = .error e := by
  rw [bind_run]
  cases hp : p ts with
  | error d => simp
  | ok r =>
    constructor
    · exact fun h => .inr ⟨r.1, r.2, rfl, h⟩
    · rintro (h | ⟨x, mid, h, hf⟩)
      · cases h
      · cases h
        exact hf

/-! ## Single tokens -/

theorem refuse_run (refusal : Refusal) (ts : List TokenKind) :
    (refuse refusal : Parser α) ts = .error ⟨refusal, ts⟩ := rfl

theorem fail_run (f : SyntaxFault) (ts : List TokenKind) :
    (fail f : Parser α) ts = .error ⟨.fault f, ts⟩ := rfl

theorem fail_ne_ok {f : SyntaxFault} {ts rest : List TokenKind} {x : α} :
    (fail f : Parser α) ts ≠ .ok (x, rest) := by
  simp [fail_run]

/-- A parser that checks what it has read gives what passes. -/
theorem checked_eq_ok {p : Parser α} {check : α → Option SyntaxFault} {f : α → β}
    {ts rest : List TokenKind} {y : β} :
    (p >>= fun x =>
      match check x with
      | some g => fail g
      | none => pure (f x)) ts = .ok (y, rest) ↔
      ∃ x, p ts = .ok (x, rest) ∧ check x = none ∧ f x = y := by
  rw [bind_eq_ok]
  constructor
  · rintro ⟨x, mid, hx, hy⟩
    cases hcheck : check x with
    | some g =>
      rw [hcheck] at hy
      exact (fail_ne_ok hy).elim
    | none =>
      rw [hcheck] at hy
      obtain ⟨hfx, rfl⟩ := pure_eq_ok.mp hy
      exact ⟨x, hx, hcheck, hfx⟩
  · rintro ⟨x, hx, hcheck, rfl⟩
    exact ⟨x, rest, hx, by rw [hcheck]; rfl⟩

/-- What does not pass is refused behind the text that it was read from. -/
theorem checked_eq_error {p : Parser α} {check : α → Option SyntaxFault} {f : α → β}
    {ts : List TokenKind} {e : Failure} :
    (p >>= fun x =>
      match check x with
      | some g => fail g
      | none => pure (f x)) ts = .error e ↔
      p ts = .error e ∨ ∃ x g rest, p ts = .ok (x, rest) ∧ check x = some g ∧
        e = ⟨.fault g, rest⟩ := by
  rw [bind_eq_error]
  refine or_congr_right ⟨?_, ?_⟩
  · rintro ⟨x, mid, hx, hy⟩
    cases hcheck : check x with
    | none =>
      rw [hcheck] at hy
      cases hy
    | some g =>
      rw [hcheck] at hy
      cases hy
      exact ⟨x, g, mid, hx, hcheck, rfl⟩
  · rintro ⟨x, g, rest, hx, hcheck, rfl⟩
    exact ⟨x, rest, hx, by rw [hcheck]; rfl⟩

theorem peek_bind_run (f : Option TokenKind → Parser β) (ts : List TokenKind) :
    (peek >>= f) ts = f ts.head? ts :=
  bind_of_ok rfl f

theorem skip_bind_run (f : Unit → Parser β) (ts : List TokenKind) :
    (skip >>= f) ts = f () ts.tail :=
  bind_of_ok rfl f

theorem eat_run (k : TokenKind) (ts : List TokenKind) :
    eat k ts = if ts.head? = some k then .ok (true, ts.tail) else .ok (false, ts) := by
  unfold eat
  rw [peek_bind_run]
  split <;> rfl

theorem eat_cons (k : TokenKind) (ts : List TokenKind) : eat k (k :: ts) = .ok (true, ts) := by
  simp [eat_run]

theorem eat_of_ne {k : TokenKind} {ts : List TokenKind} (h : ts.head? ≠ some k) :
    eat k ts = .ok (false, ts) := by
  rw [eat_run, if_neg h]

theorem eat_bind_run (k : TokenKind) (f : Bool → Parser β) (ts : List TokenKind) :
    (eat k >>= f) ts = if ts.head? = some k then f true ts.tail else f false ts := by
  rw [bind_run, eat_run]
  by_cases h : ts.head? = some k <;> simp [h]

theorem eat_bind_cons (k : TokenKind) (f : Bool → Parser β) (ts : List TokenKind) :
    (eat k >>= f) (k :: ts) = f true ts :=
  bind_of_ok (eat_cons k ts) f

theorem eat_bind_of_ne {k : TokenKind} {ts : List TokenKind} (h : ts.head? ≠ some k)
    (f : Bool → Parser β) : (eat k >>= f) ts = f false ts :=
  bind_of_ok (eat_of_ne h) f

theorem eat_bind_eq_ok {k : TokenKind} {f : Bool → Parser β} {ts rest : List TokenKind} {y : β} :
    (eat k >>= f) ts = .ok (y, rest) ↔
      (∃ tail, ts = k :: tail ∧ f true tail = .ok (y, rest)) ∨
        (ts.head? ≠ some k ∧ f false ts = .ok (y, rest)) := by
  by_cases h : ts.head? = some k
  · obtain ⟨tail, rfl⟩ := List.head?_eq_some_iff.mp h
    simp [eat_bind_cons]
  · rw [eat_bind_of_ne h]
    constructor
    · exact fun hf => .inr ⟨h, hf⟩
    · rintro (⟨tail, rfl, -⟩ | ⟨-, hf⟩)
      · simp at h
      · exact hf

theorem eat_eq_ok {k : TokenKind} {ts rest : List TokenKind} {b : Bool} :
    eat k ts = .ok (b, rest) ↔
      (ts = k :: rest ∧ b = true) ∨ (ts.head? ≠ some k ∧ ts = rest ∧ b = false) := by
  rw [show eat k = eat k >>= pure by funext ts; rw [bind_run]; cases eat k ts <;> rfl,
    eat_bind_eq_ok]
  simp only [pure_eq_ok]
  constructor
  · rintro (⟨tail, rfl, rfl, rfl⟩ | ⟨h, rfl, rfl⟩)
    · exact .inl ⟨rfl, rfl⟩
    · exact .inr ⟨h, rfl, rfl⟩
  · rintro (⟨rfl, rfl⟩ | ⟨h, rfl, rfl⟩)
    · exact .inl ⟨rest, rfl, rfl, rfl⟩
    · exact .inr ⟨h, rfl, rfl⟩

theorem expect_eq_ok {p : Punctuator} {ts rest : List TokenKind} {u : Unit} :
    expect p ts = .ok (u, rest) ↔ ts = punct p :: rest := by
  unfold expect eatPunctuator
  rw [eat_bind_eq_ok]
  simp [fail_run, pure_run]

theorem expectKeyword_eq_ok {keyword : String} {ts rest : List TokenKind} {u : Unit} :
    expectKeyword keyword ts = .ok (u, rest) ↔ ts = .name keyword :: rest := by
  unfold expectKeyword eatKeyword
  rw [eat_bind_eq_ok]
  simp [fail_run, pure_run]

theorem name_eq_ok {ts rest : List TokenKind} {text : String} :
    name ts = .ok (text, rest) ↔ ts = .name text :: rest := by
  unfold name
  rw [peek_bind_run]
  rcases ts with _ | ⟨_ | _ | _ | _ | _, ts⟩ <;> simp [fail_run, skip_bind_run, pure_run]

theorem name?_eq_ok {ts rest : List TokenKind} {text : Option String} :
    name? ts = .ok (text, rest) ↔
      (∃ n, ts = .name n :: rest ∧ text = some n) ∨
        ((∀ n, ts.head? ≠ some (.name n)) ∧ ts = rest ∧ text = none) := by
  unfold name?
  rw [peek_bind_run]
  rcases ts with _ | ⟨_ | _ | _ | _ | _, ts⟩ <;>
    simp only [List.head?_nil, List.head?_cons, List.tail_cons, skip_bind_run, pure_run] <;> grind

theorem string?_eq_ok {ts rest : List TokenKind} {text : Option String} :
    string? ts = .ok (text, rest) ↔
      (∃ s, ts = .string s :: rest ∧ text = some s) ∨
        ((∀ s, ts.head? ≠ some (.string s)) ∧ ts = rest ∧ text = none) := by
  unfold string?
  rw [peek_bind_run]
  rcases ts with _ | ⟨_ | _ | _ | _ | _, ts⟩ <;>
    simp only [List.head?_nil, List.head?_cons, List.tail_cons, skip_bind_run, pure_run] <;> grind

/-- A name that must come next and must have a meaning. -/
def lookedUp (lookup : String → Option α) (unknown expected : SyntaxFault) : Parser α := fun ts =>
  match ts with
  | .name text :: rest =>
    match lookup text with
    | some x => .ok (x, rest)
    | none => .error ⟨.fault unknown, ts⟩
  | _ => .error ⟨.fault expected, ts⟩

theorem lookedUp_eq_ok {lookup : String → Option α} {unknown expected : SyntaxFault}
    {ts rest : List TokenKind} {x : α} :
    lookedUp lookup unknown expected ts = .ok (x, rest) ↔
      ∃ text, ts = .name text :: rest ∧ lookup text = some x := by
  rcases ts with _ | ⟨_ | text | _ | _ | _, ts⟩
  case cons.name =>
    cases h : lookup text with
    | none =>
      simp only [lookedUp, h]
      grind
    | some y =>
      simp only [lookedUp, h]
      grind
  all_goals simp [lookedUp]

/-! ## Progress -/

/-- Whenever the parser succeeds, it takes `n` tokens or more. -/
def Takes (n : Nat) (p : Parser α) : Prop :=
  ∀ ts x rest, p ts = .ok (x, rest) → rest.length + n ≤ ts.length

theorem Takes.mono {p : Parser α} {m n : Nat} (h : Takes n p) (hmn : m ≤ n) : Takes m p :=
  fun ts x rest hp => Nat.le_trans (by omega) (h ts x rest hp)

theorem takes_pure (x : α) : Takes 0 (pure x : Parser α) := by
  intro ts y rest h
  obtain ⟨-, rfl⟩ := pure_eq_ok.mp h
  exact Nat.le_refl _

theorem takes_refuse (refusal : Refusal) (n : Nat) : Takes n (refuse refusal : Parser α) := by
  intro ts x rest h
  simp [refuse_run] at h

theorem takes_fail (f : SyntaxFault) (n : Nat) : Takes n (fail f : Parser α) :=
  takes_refuse _ n

theorem Takes.bind {p : Parser α} {f : α → Parser β} {m n : Nat} (hp : Takes m p)
    (hf : ∀ x, Takes n (f x)) : Takes (m + n) (p >>= f) := by
  intro ts y rest h
  obtain ⟨x, mid, h₁, h₂⟩ := bind_eq_ok.mp h
  have := hp ts x mid h₁
  have := hf x mid y rest h₂
  omega

theorem Takes.map {p : Parser α} {n : Nat} (f : α → β) (hp : Takes n p) : Takes n (f <$> p) := by
  rw [map_eq_bind]
  exact hp.bind fun x => takes_pure (f x)

theorem takes_peek : Takes 0 peek := by
  intro ts x rest h
  cases h
  exact Nat.le_refl _

theorem takes_eat (k : TokenKind) : Takes 0 (eat k) := by
  intro ts b rest h
  rcases eat_eq_ok.mp h with ⟨rfl, -⟩ | ⟨-, rfl, -⟩ <;> simp

theorem takes_expect (p : Punctuator) : Takes 1 (expect p) := by
  intro ts u rest h
  rw [expect_eq_ok.mp h]
  exact Nat.le_refl _

theorem takes_name : Takes 1 name := by
  intro ts text rest h
  rw [name_eq_ok.mp h]
  exact Nat.le_refl _

/-! ## Repetition -/

/-- Each item that the step gives is one token or more. -/
def Progresses (step : Parser (Option α)) : Prop :=
  ∀ ts x rest, step ts = .ok (some x, rest) → rest.length < ts.length

/-- Any bound above the number of tokens gives the same items. -/
theorem collect_eq_collect {step : Parser (Option α)} (h : Progresses step) {m n : Nat}
    {ts : List TokenKind} (hm : ts.length < m) (hn : ts.length < n) :
    collect step m ts = collect step n ts := by
  induction m generalizing n ts with
  | zero => omega
  | succ m ih =>
    obtain ⟨n, rfl⟩ : ∃ k, n = k + 1 := ⟨n - 1, by omega⟩
    unfold collect
    rw [bind_run, bind_run]
    cases hs : step ts with
    | error e => rfl
    | ok r =>
      obtain ⟨_ | x, rest⟩ := r
      · rfl
      · have hlt := h ts x rest hs
        simp only [bind_run]
        rw [ih (n := n) (by omega) (by omega)]

private theorem repeated_eq {step : Parser (Option α)} (h : Progresses step) :
    repeated step = step >>= fun
      | none => pure []
      | some x => (x :: ·) <$> repeated step := by
  funext ts
  show collect step (ts.length + 1) ts = _
  unfold collect
  rw [bind_run, bind_run]
  cases hs : step ts with
  | error e => rfl
  | ok r =>
    obtain ⟨_ | x, rest⟩ := r
    · rfl
    · have hlt := h ts x rest hs
      simp only [map_eq_bind, bind_run, repeated]
      rw [collect_eq_collect h (n := rest.length + 1) (by omega) (by omega)]

theorem takes_repeated {step : Parser (Option α)} (h : Takes 0 step) :
    Takes 0 (repeated step) := by
  have hcollect : ∀ n, Takes 0 (collect step n) := by
    intro n
    induction n with
    | zero => exact takes_pure []
    | succ n ih =>
      refine h.bind (n := 0) fun x => ?_
      cases x with
      | none => exact takes_pure []
      | some x => exact ih.bind fun xs => takes_pure (x :: xs)
  exact fun ts => hcollect (ts.length + 1) ts

private theorem repeated_of_some {step : Parser (Option α)} {item : Parser α}
    {ts us : List TokenKind} (h : Progresses step) (hs : step ts = (some <$> item) us) :
    repeated step ts = (item >>= fun x => (x :: ·) <$> repeated step) us := by
  rw [repeated_eq h, bind_run, hs, map_run, bind_run, ← repeated_eq h]
  cases item us <;> rfl

private theorem repeated_of_none {step : Parser (Option α)} {ts rest : List TokenKind}
    (h : Progresses step) (hs : step ts = .ok (none, rest)) :
    repeated step ts = .ok ([], rest) := by
  rw [repeated_eq h, bind_of_ok hs]
  rfl

/-- A round of items with a separator in front of each. -/
def eachRound (separator : Punctuator) (item : Parser α) : Parser (Option α) := do
  if ← eatPunctuator separator then
    return some (← item)
  else
    return none

theorem each_eq (separator : Punctuator) (item : Parser α) :
    each separator item = repeated (eachRound separator item) := rfl

theorem eachRound_run (separator : Punctuator) (item : Parser α) (ts : List TokenKind) :
    eachRound separator item ts =
      if ts.head? = some (punct separator) then (some <$> item) ts.tail else .ok (none, ts) := by
  simp only [eachRound, eatPunctuator, eat_bind_run, map_eq_bind]
  rfl

theorem progresses_eachRound (separator : Punctuator) {item : Parser α} (h : Takes 0 item) :
    Progresses (eachRound separator item) := by
  intro ts x rest hx
  rw [eachRound_run] at hx
  split at hx
  · next hk =>
    obtain ⟨tail, rfl⟩ := List.head?_eq_some_iff.mp hk
    exact Nat.lt_succ_of_le (h.map some _ _ _ hx)
  · cases hx

/-- A repetition is an item and the repetition of the rest, for as long as there is a separator. -/
theorem each_run {separator : Punctuator} {item : Parser α} (h : Takes 0 item)
    (ts : List TokenKind) :
    each separator item ts =
      if ts.head? = some (punct separator) then
        (item >>= fun x => (x :: ·) <$> each separator item) ts.tail
      else .ok ([], ts) := by
  have hrun := eachRound_run separator item ts
  have hprog := progresses_eachRound separator h
  rw [each_eq]
  split
  · next hk => exact repeated_of_some hprog (by rw [hrun, if_pos hk])
  · next hk => exact repeated_of_none hprog (by rw [hrun, if_neg hk])

theorem separated_run (separator : Punctuator) (item : Parser α) (ts : List TokenKind) :
    separated separator item ts =
      if ts.head? = some (punct separator) then
        (item >>= fun x => (x :: ·) <$> each separator item) ts.tail
      else (item >>= fun x => (x :: ·) <$> each separator item) ts := by
  have hdiscard : (discard (eatPunctuator separator) : Parser PUnit) =
      (fun _ => .unit) <$> eatPunctuator separator := rfl
  unfold separated
  rw [hdiscard, map_eq_bind, bind_run, bind_run, eatPunctuator, eat_run]
  simp only [map_eq_bind]
  by_cases h : ts.head? = some (punct separator) <;> simp only [h, if_true, if_false] <;> rfl

/-- A round of items up to a closing delimiter. -/
def delimitedRound (close : Punctuator) (item : Parser α) : Parser (Option α) := do
  if ← eatPunctuator close then
    return none
  if (← peek).isNone then
    fail (.unclosed close)
  return some (← item)

theorem delimited_eq (close : Punctuator) (item : Parser α) :
    delimited close item = repeated (delimitedRound close item) := rfl

theorem delimitedRound_run (close : Punctuator) (item : Parser α) (ts : List TokenKind) :
    delimitedRound close item ts =
      if ts.head? = some (punct close) then .ok (none, ts.tail)
      else if ts = [] then .error ⟨.fault (.unclosed close), []⟩
      else (some <$> item) ts := by
  simp only [delimitedRound, eatPunctuator, eat_bind_run]
  split
  · rfl
  · simp only [Bool.false_eq_true, if_false, peek_bind_run]
    cases ts with
    | nil => rfl
    | cons t ts => simp

theorem progresses_delimitedRound (close : Punctuator) {item : Parser α} (h : Takes 1 item) :
    Progresses (delimitedRound close item) := by
  intro ts x rest hx
  rw [delimitedRound_run] at hx
  split at hx
  · cases hx
  · split at hx
    · cases hx
    · exact h.map some _ _ _ hx

/-- A list between delimiters is an item and the rest of the list, up to the closing delimiter. -/
theorem delimited_run {close : Punctuator} {item : Parser α} (h : Takes 1 item)
    (ts : List TokenKind) :
    delimited close item ts =
      if ts.head? = some (punct close) then .ok ([], ts.tail)
      else if ts = [] then .error ⟨.fault (.unclosed close), []⟩
      else (item >>= fun x => (x :: ·) <$> delimited close item) ts := by
  have hrun := delimitedRound_run close item ts
  have hprog := progresses_delimitedRound close h
  rw [delimited_eq]
  by_cases hk : ts.head? = some (punct close)
  · rw [if_pos hk]
    exact repeated_of_none hprog (by rw [hrun, if_pos hk])
  · rw [if_neg hk]
    by_cases hnil : ts = []
    · rw [if_pos hnil, repeated_eq hprog]
      exact bind_of_error (by rw [hrun, if_neg hk, if_pos hnil]) _
    · rw [if_neg hnil]
      exact repeated_of_some hprog (by rw [hrun, if_neg hk, if_neg hnil])

/-- A round of items up to the end. -/
def untilEndRound (item : Parser α) : Parser (Option α) := do
  if (← peek).isNone then
    return none
  else
    return some (← item)

theorem untilEndRound_run (item : Parser α) (ts : List TokenKind) :
    untilEndRound item ts = if ts = [] then .ok (none, []) else (some <$> item) ts := by
  simp only [untilEndRound, peek_bind_run, map_eq_bind]
  cases ts <;> rfl

theorem progresses_untilEndRound {item : Parser α} (h : Takes 1 item) :
    Progresses (untilEndRound item) := by
  intro ts x rest hx
  rw [untilEndRound_run] at hx
  split at hx
  · cases hx
  · exact h.map some _ _ _ hx

/-- A list up to the end is an item and the rest of the list, for as long as there are tokens. -/
theorem untilEnd_run {item : Parser α} (h : Takes 1 item) (ts : List TokenKind) :
    repeated (untilEndRound item) ts =
      if ts = [] then .ok ([], [])
      else (item >>= fun x => (x :: ·) <$> repeated (untilEndRound item)) ts := by
  have hrun := untilEndRound_run item ts
  have hprog := progresses_untilEndRound h
  split
  · next hnil => exact repeated_of_none hprog (by rw [hrun, if_pos hnil])
  · next hnil => exact repeated_of_some hprog (by rw [hrun, if_neg hnil])

theorem takes_delimited (close : Punctuator) {item : Parser α} (h : Takes 0 item) :
    Takes 0 (delimited close item) := by
  refine takes_repeated ((takes_eat _).bind (n := 0) fun b => ?_)
  cases b with
  | true => exact takes_pure none
  | false =>
    refine takes_peek.bind (n := 0) fun next => ?_
    have hsome : Takes 0 (some <$> item) := h.map some
    rw [map_eq_bind] at hsome
    cases next with
    | none => exact takes_fail (.unclosed close) 0
    | some t => exact hsome

theorem delimitedNonempty_run (list : NonemptyList) (close : Punctuator) (item : Parser α)
    (ts : List TokenKind) :
    delimitedNonempty list close item ts =
      if ts.head? = some (punct close) then .error ⟨.fault (.empty list), ts⟩
      else delimited close item ts := by
  unfold delimitedNonempty
  rw [peek_bind_run]
  split <;> rfl

theorem optionalList_run (list : NonemptyList) (opening close : Punctuator) (item : Parser α)
    (ts : List TokenKind) :
    optionalList list opening close item ts =
      if ts.head? = some (punct opening) then delimitedNonempty list close item ts.tail
      else .ok ([], ts) :=
  eat_bind_run ..

theorem takes_delimitedNonempty (list : NonemptyList) (close : Punctuator) {item : Parser α}
    (h : Takes 0 item) : Takes 0 (delimitedNonempty list close item) := by
  intro ts x rest hx
  rw [delimitedNonempty_run] at hx
  split at hx
  · cases hx
  · exact takes_delimited close h _ _ _ hx

/-! ## Lists without items -/

private theorem cons_ne_nil {p : Parser (List α)} {x : α} {ts rest : List TokenKind} :
    ((x :: ·) <$> p) ts ≠ .ok ([], rest) := by
  intro h
  obtain ⟨xs, -, hxs⟩ := map_eq_ok.mp h
  cases hxs

theorem each_eq_nil {separator : Punctuator} {item : Parser α} (h : Takes 0 item)
    {ts rest : List TokenKind} (hx : each separator item ts = .ok ([], rest)) : rest = ts := by
  rw [each_run h] at hx
  split at hx
  · obtain ⟨x, mid, -, hx⟩ := bind_eq_ok.mp hx
    exact (cons_ne_nil hx).elim
  · cases hx
    rfl

theorem separated_ne_nil {separator : Punctuator} {item : Parser α} {ts rest : List TokenKind} :
    separated separator item ts ≠ .ok ([], rest) := by
  intro hx
  rw [separated_run] at hx
  split at hx
  all_goals
    obtain ⟨x, mid, -, hx⟩ := bind_eq_ok.mp hx
    exact cons_ne_nil hx

theorem optionalList_eq_nil {list : NonemptyList} {opening close : Punctuator} {item : Parser α}
    (h : Takes 1 item) {ts rest : List TokenKind}
    (hx : optionalList list opening close item ts = .ok ([], rest)) : rest = ts := by
  rw [optionalList_run] at hx
  split at hx
  · rw [delimitedNonempty_run] at hx
    split at hx
    · cases hx
    · next hne =>
      rw [delimited_run h, if_neg hne] at hx
      split at hx
      · cases hx
      · obtain ⟨x, mid, -, hx⟩ := bind_eq_ok.mp hx
        exact (cons_ne_nil hx).elim
  · cases hx
    rfl

/-! ## Nesting -/

/-- The parser that is left one level further inside, none without room. -/
def below (p : Nat → α) : Nat → Option α
  | 0 => none
  | room + 1 => some (p room)

theorem nested_below_zero (p : Nat → Parser α) (body : Parser α → Parser β) :
    nested (below p 0) body = refuse .tooDeep := rfl

theorem nested_below_succ (p : Nat → Parser α) (body : Parser α → Parser β) (room : Nat) :
    nested (below p (room + 1)) body = body (p room) := rfl

theorem nested_below_eq_ok {p : Nat → Parser α} {body : Parser α → Parser β} {room : Nat}
    {ts rest : List TokenKind} {y : β} :
    nested (below p room) body ts = .ok (y, rest) ↔
      ∃ r, room = r + 1 ∧ body (p r) ts = .ok (y, rest) := by
  cases room with
  | zero => simp [nested_below_zero, refuse_run]
  | succ room => simp [nested_below_succ]

theorem takes_nested_below {p : Nat → Parser α} {f : Parser α → Parser β} {room n : Nat}
    (h : ∀ r, room = r + 1 → Takes n (f (p r))) : Takes n (nested (below p room) f) := by
  cases room with
  | zero => exact takes_refuse .tooDeep n
  | succ room => exact h room rfl

end Parser

end GraphQLSyntax
