import GraphQLSyntax.Keyword
import GraphQLSyntax.Parser.Fault
import GraphQLSyntax.Token.Spelling

/-!
# Parsers in single steps

A parser as a program: it looks at the next token, takes it, refuses it, or goes a level further in
or out. A program can be run on whatever gives tokens (`Feed`), with a counter of the levels that are
open and a limit for it. Looking at the next token is free; a token is asked for only when the one in
front of it is taken.

`Steps.trace` is what an unlimited run goes through: the levels that it enters and the entries that
it reads. A program is `Guarded` if it takes no token without having seen that there is one.

* `Steps.run_bind`, `Steps.trace_bind`: one program behind another.
* `Steps.Guarded.run_preserves`: what each step of a guarded program preserves, its runs do.
* `Steps.run_some`: a limit changes nothing unless a level is entered that is deeper, and then the
  run ends in front of the first of these.
-/

namespace GraphQLSyntax

/-- Where tokens come from. -/
structure Feed (σ ε : Type) where
  /-- The kind of the next token, none at the end. -/
  next : σ → Option TokenKind
  /-- What is ahead behind the next token. -/
  behind : σ → Except ε σ
  /-- The error for a refusal of the next token. -/
  refuse : Refusal → σ → ε

/-- Delimiters that open a level. -/
inductive Bracket
  | square
  | curly
deriving DecidableEq, Repr

def Bracket.opening : Bracket → Punctuator
  | square => .bracketOpen
  | curly => .braceOpen

/-- The keys of entries as they stand in the source, repeated ones among them. -/
inductive Note
  | object (keys : List String)
  | schema (keys : List OperationType)
deriving DecidableEq, Repr

/-- No key is repeated. -/
def Note.Distinct : Note → Prop
  | object keys => keys.Nodup
  | schema keys => keys.Nodup

/-- A level that is entered: how many are open with it, what is ahead in front of the opening
delimiter, and what is ahead behind it. -/
structure Level (σ : Type) where
  depth : Nat
  opening : σ
  inside : σ

/-- What a run goes through. -/
inductive Event (σ : Type)
  | level (l : Level σ)
  | note (n : Note)

def Event.level? {σ : Type} : Event σ → Option (Level σ)
  | level l => some l
  | note _ => none

def Event.note? {σ : Type} : Event σ → Option Note
  | level _ => none
  | note n => some n

/-- A parser as a program of single steps. -/
inductive Steps (α : Type)
  | done (x : α)
  | refuse (f : SyntaxFault)
  | look (next : Option TokenKind → Steps α)
  | take (behind : Steps α)
  /-- Takes the opening delimiter, which must come next, and goes in. -/
  | enter (b : Bracket) (inside : Steps α)
  | leave (outside : Steps α)
  | note (n : Note) (behind : Steps α)

namespace Steps

variable {α β : Type}

def bind : Steps α → (α → Steps β) → Steps β
  | done x, f => f x
  | refuse e, _ => refuse e
  | look next, f => look fun t => (next t).bind f
  | take behind, f => take (behind.bind f)
  | enter b inside, f => enter b (inside.bind f)
  | leave outside, f => leave (outside.bind f)
  | note n behind, f => note n (behind.bind f)

/-! ## Runs -/

variable {σ ε : Type}

/-- The outcome on what is ahead, with so many levels open. -/
def run (φ : Feed σ ε) (limit : Option Nat) : Steps α → σ → Nat → Except ε (α × σ × Nat)
  | done x, s, depth => .ok (x, s, depth)
  | refuse f, s, _ => .error (φ.refuse (.fault f) s)
  | look next, s, depth => (next (φ.next s)).run φ limit s depth
  | take behind, s, depth =>
    match φ.behind s with
    | .ok s => behind.run φ limit s depth
    | .error e => .error e
  | enter b inside, s, depth =>
    if φ.next s = some (punct b.opening) then
      match φ.behind s with
      | .ok s =>
        if limit.any (· ≤ depth) then .error (φ.refuse .tooDeep s)
        else inside.run φ limit s (depth + 1)
      | .error e => .error e
    else .error (φ.refuse (.fault (.expectedPunctuator b.opening)) s)
  | leave outside, s, depth => outside.run φ limit s (depth - 1)
  | note _ behind, s, depth => behind.run φ limit s depth

/-- What a run without a limit goes through. -/
def trace (φ : Feed σ ε) : Steps α → σ → Nat → List (Event σ)
  | done _, _, _ => []
  | refuse _, _, _ => []
  | look next, s, depth => (next (φ.next s)).trace φ s depth
  | take behind, s, depth =>
    match φ.behind s with
    | .ok s => behind.trace φ s depth
    | .error _ => []
  | enter b inside, s, depth =>
    if φ.next s = some (punct b.opening) then
      match φ.behind s with
      | .ok s' => .level ⟨depth + 1, s, s'⟩ :: inside.trace φ s' (depth + 1)
      | .error _ => []
    else []
  | leave outside, s, depth => outside.trace φ s (depth - 1)
  | note n behind, s, depth => .note n :: behind.trace φ s depth

/-- The levels that a run without a limit enters. -/
def levels (φ : Feed σ ε) (x : Steps α) (s : σ) (depth : Nat) : List (Level σ) :=
  (x.trace φ s depth).filterMap Event.level?

variable {φ : Feed σ ε}

theorem levels_take (behind : Steps α) (s : σ) (depth : Nat) :
    (take behind).levels φ s depth =
      match φ.behind s with
      | .ok s' => behind.levels φ s' depth
      | .error _ => [] := by
  unfold levels
  rw [trace]
  cases φ.behind s <;> rfl

theorem levels_enter (b : Bracket) (inside : Steps α) (s : σ) (depth : Nat) :
    (enter b inside).levels φ s depth =
      if φ.next s = some (punct b.opening) then
        match φ.behind s with
        | .ok s' => ⟨depth + 1, s, s'⟩ :: inside.levels φ s' (depth + 1)
        | .error _ => []
      else [] := by
  unfold levels
  rw [trace]
  split
  · cases φ.behind s <;> rfl
  · rfl

theorem run_bind (x : Steps α) (f : α → Steps β) (limit : Option Nat) (s : σ) (depth : Nat) :
    (x.bind f).run φ limit s depth =
      match x.run φ limit s depth with
      | .ok (a, s', depth') => (f a).run φ limit s' depth'
      | .error e => .error e := by
  induction x generalizing s depth with
  | done | refuse => rfl
  | look next ih => exact ih _ s depth
  | take behind ih =>
    simp only [bind, run]
    cases φ.behind s with
    | ok s' => exact ih s' depth
    | error e => rfl
  | enter b inside ih =>
    simp only [bind, run]
    split
    · cases φ.behind s with
      | ok s' =>
        dsimp only
        split
        · rfl
        · exact ih s' _
      | error e => rfl
    · rfl
  | leave outside ih => exact ih s _
  | note n behind ih => exact ih s depth

theorem trace_bind (x : Steps α) (f : α → Steps β) (s : σ) (depth : Nat) :
    (x.bind f).trace φ s depth = x.trace φ s depth ++
      match x.run φ none s depth with
      | .ok (a, s', depth') => (f a).trace φ s' depth'
      | .error _ => [] := by
  induction x generalizing s depth with
  | done | refuse => rfl
  | look next ih => exact ih _ s depth
  | take behind ih =>
    simp only [bind, run, trace]
    cases φ.behind s with
    | ok s' => exact ih s' depth
    | error e => rfl
  | enter b inside ih =>
    simp only [bind, run, trace]
    split
    · cases φ.behind s with
      | ok s' => simpa using ih s' (depth + 1)
      | error e => rfl
    · rfl
  | leave outside ih => exact ih s _
  | note n behind ih => simpa [bind, run, trace] using ih s depth

/-! ## Guarded programs -/

/-- The program takes a token only where it has seen one. `seen` tells whether it has seen the next
token. -/
def Guarded : Steps α → (seen : Bool) → Prop
  | done _, _ | refuse _, _ => True
  | look next, _ => ∀ t, (next t).Guarded t.isSome
  | take behind, seen => seen = true ∧ behind.Guarded false
  | enter _ inside, _ => inside.Guarded false
  | leave outside, seen => outside.Guarded seen
  | note _ behind, seen => behind.Guarded seen

/-- What is guarded without having seen a token is so behind one. -/
theorem Guarded.mono {x : Steps α} (h : x.Guarded false) (seen : Bool) : x.Guarded seen := by
  induction x with
  | done | refuse => trivial
  | look next => exact h
  | take behind => cases h.1
  | enter b inside => exact h
  | leave outside ih => exact ih h
  | note n behind ih => exact ih h

theorem Guarded.bind {x : Steps α} {f : α → Steps β} {seen : Bool} (hx : x.Guarded seen)
    (hf : ∀ a, (f a).Guarded false) : (x.bind f).Guarded seen := by
  induction x generalizing seen with
  | done a => exact (hf a).mono seen
  | refuse => trivial
  | look next ih => exact fun t => ih t (hx t)
  | take behind ih => exact ⟨hx.1, ih hx.2⟩
  | enter b inside ih => exact ih hx
  | leave outside ih => exact ih hx
  | note n behind ih => exact ih hx

/-- What each step of a guarded program preserves, its runs do. -/
theorem Guarded.run_preserves {P : σ → Prop} {Q : ε → Prop}
    (hbehind : ∀ s, P s → (φ.next s).isSome → ∀ s', φ.behind s = .ok s' → P s')
    (hfails : ∀ s, P s → (φ.next s).isSome → ∀ e, φ.behind s = .error e → Q e)
    (hrefuse : ∀ s refusal, P s → Q (φ.refuse refusal s)) {x : Steps α} {seen : Bool}
    (hx : x.Guarded seen) (limit : Option Nat) {s : σ} (hs : P s)
    (hseen : seen = true → (φ.next s).isSome) (depth : Nat) :
    (∀ a s' depth', x.run φ limit s depth = .ok (a, s', depth') → P s') ∧
      ∀ e, x.run φ limit s depth = .error e → Q e := by
  induction x generalizing seen s depth with
  | done a => exact ⟨by rintro _ _ _ ⟨⟩; exact hs, by rintro _ ⟨⟩⟩
  | refuse f => exact ⟨by rintro _ _ _ ⟨⟩, by rintro _ ⟨⟩; exact hrefuse s _ hs⟩
  | look next ih => exact ih _ (hx _) hs (fun h => h) depth
  | take behind ih =>
    obtain ⟨rfl, hx⟩ := hx
    rw [run]
    cases hs' : φ.behind s with
    | ok s' => exact ih hx (hbehind s hs (hseen rfl) s' hs') (by simp) depth
    | error e => exact ⟨by rintro _ _ _ ⟨⟩, by rintro _ ⟨⟩; exact hfails s hs (hseen rfl) e hs'⟩
  | enter b inside ih =>
    rw [run]
    -- A level is entered only behind a look at its delimiter, so the token may be taken.
    split
    · next hnext =>
      have hsome : (φ.next s).isSome := by rw [hnext]; rfl
      cases hs' : φ.behind s with
      | ok s' =>
        have hinside := hbehind s hs hsome s' hs'
        dsimp only
        split
        · exact ⟨by rintro _ _ _ ⟨⟩, by rintro _ ⟨⟩; exact hrefuse s' _ hinside⟩
        · exact ih hx hinside (by simp) (depth + 1)
      | error e => exact ⟨by rintro _ _ _ ⟨⟩, by rintro _ ⟨⟩; exact hfails s hs hsome e hs'⟩
    · exact ⟨by rintro _ _ _ ⟨⟩, by rintro _ ⟨⟩; exact hrefuse s _ hs⟩
  | leave outside ih => exact ih hx hs hseen _
  | note n behind ih => exact ih hx hs hseen depth

/-! ## Limits -/

/-- A level is entered behind its opening delimiter. -/
theorem behind_of_mem_levels {x : Steps α} {s : σ} {depth : Nat} {l : Level σ}
    (h : l ∈ x.levels φ s depth) :
    (∃ b : Bracket, φ.next l.opening = some (punct b.opening)) ∧
      φ.behind l.opening = .ok l.inside := by
  induction x generalizing s depth with
  | done | refuse => cases h
  | look next ih => exact ih _ h
  | take behind ih =>
    rw [levels_take] at h
    split at h
    · exact ih h
    · cases h
  | enter b inside ih =>
    rw [levels_enter] at h
    split at h
    · next hnext =>
      split at h
      · next s' hbehind =>
        rcases List.mem_cons.mp h with rfl | h
        · exact ⟨⟨b, hnext⟩, hbehind⟩
        · exact ih h
      · cases h
    · cases h
  | leave outside ih => exact ih h
  | note n behind ih => exact ih h

/-- **A limit changes nothing unless a deeper level is entered.** Then the run ends where the first
of these would begin. -/
theorem run_some (x : Steps α) (s : σ) {depth limit : Nat} (h : depth ≤ limit) :
    x.run φ (some limit) s depth =
      match (x.levels φ s depth).find? (limit < ·.depth) with
      | none => x.run φ none s depth
      | some l => .error (φ.refuse .tooDeep l.inside) := by
  induction x generalizing s depth with
  | done | refuse => rfl
  | look next ih => exact ih _ s h
  | take behind ih =>
    rw [levels_take, run, run]
    cases φ.behind s with
    | ok s' => exact ih s' h
    | error e => rfl
  | enter b inside ih =>
    rw [levels_enter, run, run]
    split
    · cases φ.behind s with
      | ok s' =>
        dsimp only
        rw [List.find?_cons]
        by_cases hlimit : limit ≤ depth
        · simp [hlimit, Nat.lt_succ_of_le hlimit]
        · have hdeep : ¬ limit < depth + 1 := by omega
          simp only [Option.any_some, Option.any_none, hlimit, hdeep, decide_false,
            Bool.false_eq_true, if_false]
          exact ih s' (by omega)
      | error e => rfl
    · rfl
  | leave outside ih => exact ih s (by omega)
  | note n behind ih => exact ih s h

/-- Levels are entered one at a time, so the first that is deeper than the limit is so by one. -/
theorem depth_of_find_levels {x : Steps α} {s : σ} {depth limit : Nat} {l : Level σ}
    (h : depth ≤ limit) (hl : (x.levels φ s depth).find? (limit < ·.depth) = some l) :
    l.depth = limit + 1 := by
  induction x generalizing s depth with
  | done | refuse => cases hl
  | look next ih => exact ih _ h hl
  | take behind ih =>
    rw [levels_take] at hl
    split at hl
    · exact ih h hl
    · cases hl
  | enter b inside ih =>
    rw [levels_enter] at hl
    split at hl
    · split at hl
      · rw [List.find?_cons] at hl
        split at hl
        · next hdeep =>
          cases hl
          have hlt := of_decide_eq_true hdeep
          dsimp only at hlt ⊢
          omega
        · next hdeep =>
          have hle := of_decide_eq_false hdeep
          exact ih (by dsimp only at hle; omega) hl
      · cases hl
    · cases hl
  | leave outside ih => exact ih (by omega) hl
  | note n behind ih => exact ih h hl

end Steps

end GraphQLSyntax
