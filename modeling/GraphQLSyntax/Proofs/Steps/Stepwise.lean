import GraphQLSyntax.Proofs.Parser.Run
import GraphQLSyntax.Proofs.Steps.Accounts

/-!
# Stepwise parsers

A `Stepwise` parser is one with a program of single steps that does the same, for all texts up to a
number of tokens, and that keeps the accounts of the tokens it takes. The rules of this module build
the program of a parser, and what is known of it, from those of its parts.

* `Stepwise.bind`, `Stepwise.merge`: sequences, and what is made of their results.
* `Stepwise.lookIf`, `Stepwise.branch`: choices by the next token.
* `Stepwise.nested`: a level with what stands on it.
-/

namespace GraphQLSyntax

namespace Steps

variable {α : Type}

/-- The program takes the tokens that its result is written as, up to repeated keys. -/
def Spells (n : Nat) (x : Steps α) (R : α → Written → Prop) : Prop :=
  ∀ ⦃r depth a r' depth'⦄, r.Valid → r.run.kinds.length ≤ n →
    x.run Reader.feed none r depth = .ok (a, r', depth') →
    r'.Valid ∧ depth' = depth ∧ ∃ taken w, r.run.kinds = taken ++ r'.run.kinds ∧ R a w ∧
      Accounts depth (x.trace Reader.feed r depth) taken w

/-- A run on a list takes tokens from its front. -/
theorem length_le_of_run_ofList {x : Steps α} {limit : Option Nat} {ts rest : List TokenKind}
    {a : α} {depth depth' : Nat} (h : x.run .ofList limit ts depth = .ok (a, rest, depth')) :
    rest.length ≤ ts.length := by
  induction x generalizing ts depth with
  | done x =>
    cases h
    exact Nat.le_refl _
  | refuse f => cases h
  | look next ih => exact ih _ h
  | take behind ih =>
    have hle : rest.length ≤ ts.tail.length := ih h
    rw [List.length_tail] at hle
    omega
  | enter b inside ih =>
    rw [run] at h
    split at h
    · have htail : (if limit.any (· ≤ depth) then .error ⟨.tooDeep, ts.tail⟩
          else inside.run .ofList limit ts.tail (depth + 1)) = .ok (a, rest, depth') := h
      split at htail
      · cases htail
      · have hle := ih htail
        rw [List.length_tail] at hle
        omega
    · cases h
  | leave outside ih => exact ih h
  | note n behind ih => exact ih h

/-- What succeeds on a scanner does so on the kinds of its tokens. -/
theorem run_ofList_of_run {x : Steps α} {r r' : Reader} {a : α} {depth depth' : Nat}
    (hr : r.Valid) (h : x.run Reader.feed none r depth = .ok (a, r', depth')) :
    x.run .ofList none r.run.kinds depth = .ok (a, r'.run.kinds, depth') := by
  have hagrees := x.run_feed none ⟨hr, List.suffix_refl _, rfl⟩ depth
  rw [h] at hagrees
  cases hlist : x.run .ofList none r.run.kinds depth with
  | error e =>
    rw [hlist] at hagrees
    cases hagrees
  | ok out =>
    rw [hlist] at hagrees
    obtain ⟨r₁, hout, -, hkinds⟩ | ⟨fault, hout, -⟩ := hagrees
    · cases hout
      rw [hkinds]
    · cases hout

end Steps

/-! ## Stepwise parsers -/

/-- The levels that a limit leaves. Without a limit there is room for as many as there are
tokens. -/
def roomLeft (limit : Option Nat) (depth : Nat) (ts : List TokenKind) : Nat :=
  limit.getD (depth + ts.length) - depth

/-- A parser, at every room, with a program that does the same where no more than `n` tokens are
ahead. `R` relates a result to what it is written as. -/
structure Stepwise {α : Type} (n : Nat) (p : Nat → Parser α) (R : α → Written → Prop) where
  steps : Steps α
  follows : ∀ {limit depth : Nat} {ts : List TokenKind}, depth ≤ limit → ts.length ≤ n →
    steps.run .ofList (some limit) ts depth =
      (p (limit - depth) ts).map fun out => (out.1, out.2, depth)
  spells : steps.Spells n R
  /-- It takes no token that it has not seen. -/
  guarded : steps.Guarded false

/-- What a result is written as is given by `W`. -/
abbrev Exactly {α : Type} (W : α → Written) : α → Written → Prop :=
  fun a w => w = W a

namespace Stepwise

open GraphQLSyntax.Parser (Takes below eat_bind_run)

variable {α β : Type} {m n : Nat} {p q : Nat → Parser α} {R S : α → Written → Prop}

theorem length_le (X : Stepwise n p R) {room : Nat} {ts rest : List TokenKind} {a : α}
    (hts : ts.length ≤ n) (h : p room ts = .ok (a, rest)) : rest.length ≤ ts.length := by
  have hrun := X.follows (Nat.zero_le room) hts
  rw [Nat.sub_zero, h] at hrun
  exact Steps.length_le_of_run_ofList hrun

/-- On a list the program does what the parser does with the room that is left. -/
theorem run_ofList (X : Stepwise n p R) {limit : Option Nat} {depth : Nat} {ts : List TokenKind}
    (hdepth : ∀ l, limit = some l → depth ≤ l) (hts : ts.length ≤ n) :
    X.steps.run .ofList limit ts depth =
      (p (roomLeft limit depth ts) ts).map fun out => (out.1, out.2, depth) := by
  cases limit with
  | some l => exact X.follows (hdepth l rfl) hts
  | none =>
    rw [Steps.run_ofList_none]
    exact X.follows (Nat.le_add_right depth ts.length) hts

/-- What the program gives on a scanner, the parser gives with enough room. -/
theorem exists_room (X : Stepwise n p R) {r r' : Reader} {a : α} {depth depth' : Nat}
    (hr : r.Valid) (hn : r.run.kinds.length ≤ n)
    (h : X.steps.run Reader.feed none r depth = .ok (a, r', depth')) :
    ∃ room, p room r.run.kinds = .ok (a, r'.run.kinds) := by
  have hlist := Steps.run_ofList_of_run hr h
  rw [X.run_ofList (by simp) hn] at hlist
  refine ⟨roomLeft none depth r.run.kinds, ?_⟩
  cases hp : p (roomLeft none depth r.run.kinds) r.run.kinds with
  | error e =>
    rw [hp] at hlist
    cases hlist
  | ok out =>
    rw [hp] at hlist
    obtain ⟨x, rest⟩ := out
    obtain ⟨rfl, hrest, -⟩ : x = a ∧ rest = r'.run.kinds ∧ depth = depth' := by
      simpa [Except.map] using hlist
    rw [hrest]

/-! ### Weaker promises -/

def mono (X : Stepwise n p R) (h : ∀ a w, R a w → S a w) : Stepwise n p S where
  steps := X.steps
  follows := X.follows
  spells := fun _ _ _ _ _ hr hn hx => by
    obtain ⟨hvalid, hdepth, taken, w, hkinds, hw, haccounts⟩ := X.spells hr hn hx
    exact ⟨hvalid, hdepth, taken, w, hkinds, h _ _ hw, haccounts⟩
  guarded := X.guarded

def congr (X : Stepwise n p R) (h : ∀ room ts, ts.length ≤ n → q room ts = p room ts) :
    Stepwise n q R where
  steps := X.steps
  follows hdepth hts := by rw [h _ _ hts, X.follows hdepth hts]
  spells := X.spells
  guarded := X.guarded

def le (X : Stepwise n p R) (h : m ≤ n) : Stepwise m p R where
  steps := X.steps
  follows hdepth hts := X.follows hdepth (Nat.le_trans hts h)
  spells _ _ _ _ _ hr hn hx := X.spells hr (Nat.le_trans hn h) hx
  guarded := X.guarded

/-! ### Sequences -/

def pure (x : α) : Stepwise n (fun _ => Pure.pure x) fun a w => a = x ∧ w = .empty where
  steps := .done x
  follows _ _ := rfl
  spells r depth a r' depth' hr hn h := by
    cases h
    exact ⟨hr, rfl, [], .empty, rfl, ⟨rfl, rfl⟩, .empty depth⟩
  guarded := trivial

/-- A refusal of the next token for what it is. -/
def refuseBy (f : Option TokenKind → SyntaxFault) :
    Stepwise n (fun _ ts => .error ⟨.fault (f ts.head?), ts⟩) R where
  steps := .look fun t => .refuse (f t)
  follows _ _ := rfl
  spells r depth a r' depth' hr hn h := by cases h
  guarded _ := trivial

def refuse (f : SyntaxFault) : Stepwise n (fun _ => Parser.fail f) R :=
  refuseBy fun _ => f

/-- A result that is refused if it has a fault. -/
def check (fault : Option SyntaxFault) (x : α) :
    Stepwise n (fun _ => match fault with
        | some f => Parser.fail f
        | none => Pure.pure x)
      fun a w => a = x ∧ w = .empty :=
  match fault with
  | some f => refuse f
  | none => pure x

section

variable {q : α → Nat → Parser β} {S : α → β → Written → Prop}

private theorem follows_bind (X : Stepwise n p R) (Y : ∀ a, Stepwise m (q a) (S a))
    (h : ∀ room ts a rest, ts.length ≤ n → p room ts = .ok (a, rest) → rest.length ≤ m)
    {limit depth : Nat} {ts : List TokenKind} (hdepth : depth ≤ limit) (hts : ts.length ≤ n) :
    (X.steps.bind fun a => (Y a).steps).run .ofList (some limit) ts depth =
      ((p (limit - depth) >>= fun a => q a (limit - depth)) ts).map
        fun out => (out.1, out.2, depth) := by
  rw [Steps.run_bind, X.follows hdepth hts, Parser.bind_run]
  cases hp : p (limit - depth) ts with
  | error e => rfl
  | ok out => exact (Y out.1).follows hdepth (h _ _ _ _ hts hp)

private theorem spells_bind (X : Stepwise n p R) (Y : ∀ a, Stepwise m (q a) (S a))
    (h : ∀ room ts a rest, ts.length ≤ n → p room ts = .ok (a, rest) → rest.length ≤ m) :
    (X.steps.bind fun a => (Y a).steps).Spells n fun b w =>
      ∃ a v u, R a v ∧ S a b u ∧ w = v ++ u := by
  intro r depth b r' depth' hr hn hx
  rw [Steps.run_bind] at hx
  split at hx
  · next a mid depth₁ hmid =>
    obtain ⟨room, hp⟩ := X.exists_room hr hn hmid
    obtain ⟨hvalid, rfl, taken, v, hkinds, hv, haccounts⟩ := X.spells hr hn hmid
    obtain ⟨hvalid', rfl, taken', u, hkinds', hu, haccounts'⟩ :=
      (Y a).spells hvalid (h _ _ _ _ hn hp) hx
    refine ⟨hvalid', rfl, taken ++ taken', v ++ u, ?_, ⟨a, v, u, hv, hu, rfl⟩, ?_⟩
    · rw [hkinds, hkinds', List.append_assoc]
    · rw [Steps.trace_bind, hmid]
      exact haccounts.append haccounts'
  · cases hx

private def bindOf (X : Stepwise n p R) (Y : ∀ a, Stepwise m (q a) (S a))
    (h : ∀ room ts a rest, ts.length ≤ n → p room ts = .ok (a, rest) → rest.length ≤ m) :
    Stepwise n (fun room => p room >>= fun a => q a room)
      fun b w => ∃ a v u, R a v ∧ S a b u ∧ w = v ++ u where
  steps := X.steps.bind fun a => (Y a).steps
  follows := follows_bind X Y h
  spells := spells_bind X Y h
  guarded := X.guarded.bind fun a => (Y a).guarded

/-- One parser behind another. -/
def bind (X : Stepwise n p R) (Y : ∀ a, Stepwise n (q a) (S a)) :
    Stepwise n (fun room => p room >>= fun a => q a room)
      fun b w => ∃ a v u, R a v ∧ S a b u ∧ w = v ++ u :=
  X.bindOf Y fun _ _ _ _ hts hp => Nat.le_trans (X.length_le hts hp) hts

/-- One parser behind another that takes a token. -/
def bindShorter (X : Stepwise (n + 1) p R) (ht : ∀ room, Takes 1 (p room))
    (Y : ∀ a, Stepwise n (q a) (S a)) :
    Stepwise (n + 1) (fun room => p room >>= fun a => q a room)
      fun b w => ∃ a v u, R a v ∧ S a b u ∧ w = v ++ u :=
  X.bindOf Y fun room ts a rest hts hp => Nat.le_of_succ_le_succ
    (Nat.le_trans (ht room ts a rest hp) hts)

end

def map (f : α → β) (X : Stepwise n p R) :
    Stepwise n (fun room => f <$> p room) fun b w => ∃ a, b = f a ∧ R a w :=
  ((X.bind fun a => pure (f a)).mono fun b w h => by
    obtain ⟨a, v, u, hv, ⟨rfl, rfl⟩, rfl⟩ := h
    exact ⟨a, rfl, by simpa using hv⟩).congr fun room ts _ => by rw [Parser.map_eq_bind]

/-- Entries that are read and then merged. The keys are noted as they were read. -/
def merge (f : α → β) (note : α → Note) {S : β → Written → Prop} (X : Stepwise n p R)
    (h : ∀ a v, R a v → ∃ w, S (f a) w ∧ w.tokens.length ≤ v.tokens.length ∧
      v.tokens.head? = w.tokens.head? ∧
      ((note a).Distinct → v.tokens = w.tokens) ∧
      ((∀ keys, note a = .object keys → keys.Nodup) → v.depth ≤ w.depth)) :
    Stepwise n (fun room => f <$> p room) S where
  steps := X.steps.bind fun a => .note (note a) (.done (f a))
  follows {limit depth ts} hdepth hts := by
    rw [Steps.run_bind, X.follows hdepth hts, Parser.map_run]
    cases p (limit - depth) ts <;> rfl
  spells r depth b r' depth' hr hn hx := by
    rw [Steps.run_bind] at hx
    split at hx
    · next a mid depth₁ hmid =>
      cases hx
      obtain ⟨hvalid, rfl, taken, v, hkinds, hv, haccounts⟩ := X.spells hr hn hmid
      obtain ⟨w, hw, hlength, hhead, htokens, hle⟩ := h a v hv
      refine ⟨hvalid, rfl, taken, w, hkinds, hw, ?_⟩
      rw [Steps.trace_bind, hmid]
      exact haccounts.noted (note a) hlength hhead htokens hle
    · cases hx
  guarded := X.guarded.bind fun _ => trivial

/-! ### Choices by the next token -/

/-- A choice by a property of the next token. -/
def lookIf (c : Option TokenKind → Prop) [DecidablePred c] (X : Stepwise n p R)
    (Y : Stepwise n q R) :
    Stepwise n (fun room ts => if c ts.head? then p room ts else q room ts) R where
  steps := .look fun t => if c t then X.steps else Y.steps
  follows {limit depth ts} hdepth hts := by
    rw [Steps.run, show Feed.ofList.next ts = ts.head? from rfl]
    split
    · exact X.follows hdepth hts
    · exact Y.follows hdepth hts
  spells r depth a r' depth' hr hn hx := by
    rw [Steps.run] at hx
    rw [Steps.trace]
    split at hx
    · next hc =>
      rw [if_pos hc]
      exact X.spells hr hn hx
    · next hc =>
      rw [if_neg hc]
      exact Y.spells hr hn hx
  guarded t := by
    dsimp only
    split
    · exact X.guarded.mono _
    · exact Y.guarded.mono _

/-- A choice by what the next token stands for: a program behind it, or one for all other texts. -/
private def branchSteps {γ : Type} (f : TokenKind → Option γ) (x : γ → Steps α) (y : Steps α) :
    Steps α :=
  .look fun t => match t.bind f with
    | some c => .take (x c)
    | none => y

private theorem follows_branch {γ : Type} {f : TokenKind → Option γ} {p : γ → Nat → Parser α}
    {R : γ → α → Written → Prop} (X : ∀ x, Stepwise m (p x) (R x)) (Y : Stepwise n q S)
    (h : n ≤ m + 1) {limit depth : Nat} {ts : List TokenKind} (hdepth : depth ≤ limit)
    (hts : ts.length ≤ n) :
    (branchSteps f (fun x => (X x).steps) Y.steps).run .ofList (some limit) ts depth =
      Except.map (fun out => (out.1, out.2, depth)) (match ts.head?.bind f with
        | some x => p x (limit - depth) ts.tail
        | none => q (limit - depth) ts) := by
  rw [branchSteps, Steps.run, show Feed.ofList.next ts = ts.head? from rfl]
  have htail : ts.tail.length ≤ m := by
    rw [List.length_tail]
    omega
  cases ts.head?.bind f with
  | some x => exact (X x).follows hdepth htail
  | none => exact Y.follows hdepth hts

private theorem spells_branch {γ : Type} {f : TokenKind → Option γ} {p : γ → Nat → Parser α}
    {R : γ → α → Written → Prop} (X : ∀ x, Stepwise m (p x) (R x)) (Y : Stepwise n q S)
    (h : n ≤ m + 1) :
    (branchSteps f (fun x => (X x).steps) Y.steps).Spells n fun a w =>
      (∃ t x v, f t = some x ∧ R x a v ∧ w = .token t ++ v) ∨ S a w := by
  intro r depth a r' depth' hr hn hx
  rw [branchSteps, Steps.run] at hx
  rw [branchSteps, Steps.trace]
  cases hf : (Reader.feed.next r).bind f with
  | some x =>
    obtain ⟨t, ht, hft⟩ := Option.bind_eq_some_iff.mp hf
    simp only [hf, Steps.run] at hx
    simp only [Steps.trace]
    split at hx
    · next mid hmid =>
      have hcons := Reader.kinds_eq_cons hr hmid ht
      rw [hcons, List.length_cons] at hn
      obtain ⟨hvalid, hdepth, taken, v, hkinds, hv, haccounts⟩ :=
        (X x).spells (Reader.valid_next hmid) (by omega) hx
      refine ⟨hvalid, hdepth, t :: taken, .token t ++ v, ?_, .inl ⟨t, x, v, hft, hv, rfl⟩, ?_⟩
      · rw [hcons, hkinds, List.cons_append]
      · exact (Accounts.token depth t).append haccounts
    · cases hx
  | none =>
    simp only [hf] at hx
    obtain ⟨hvalid, hdepth, taken, v, hkinds, hv, haccounts⟩ := Y.spells hr hn hx
    exact ⟨hvalid, hdepth, taken, v, hkinds, .inr hv, haccounts⟩

/-- A choice by what the next token stands for: a parser behind it, or one for all other texts. -/
def branch {γ : Type} (f : TokenKind → Option γ) {p : γ → Nat → Parser α}
    {R : γ → α → Written → Prop} (X : ∀ x, Stepwise m (p x) (R x)) (Y : Stepwise n q S)
    (h : n ≤ m + 1) :
    Stepwise n (fun room ts => match ts.head?.bind f with
        | some x => p x room ts.tail
        | none => q room ts)
      fun a w => (∃ t x v, f t = some x ∧ R x a v ∧ w = .token t ++ v) ∨ S a w where
  steps := branchSteps f (fun x => (X x).steps) Y.steps
  follows := follows_branch X Y h
  spells := spells_branch X Y h
  guarded t := by
    cases t with
    | none => exact Y.guarded
    | some t =>
      dsimp only [Option.bind_some]
      split
      · next c _ => exact ⟨rfl, (X c).guarded⟩
      · exact Y.guarded.mono _

/-- A choice between a parser behind the token `k` and one for all other texts. -/
def ifNext (k : TokenKind) (X : Stepwise m p R) (Y : Stepwise n q S) (h : n ≤ m + 1) :
    Stepwise n (fun room ts => if ts.head? = some k then p room ts.tail else q room ts)
      fun a w => (∃ v, R a v ∧ w = .token k ++ v) ∨ S a w :=
  ((branch (fun t => if t = k then some () else none) (fun _ => X) Y h).mono (by
    rintro a w (⟨t, _, v, ht, hv, rfl⟩ | hw)
    · obtain rfl : t = k := by simpa using ht
      exact .inl ⟨v, hv, rfl⟩
    · exact .inr hw)).congr fun room ts _ => by
    cases hts : ts.head? with
    | none => rfl
    | some t => by_cases ht : t = k <;> simp [ht]

/-! ### Levels -/

theorem expect_run (k : Punctuator) (ts : List TokenKind) :
    Parser.expect k ts =
      if ts.head? = some (punct k) then .ok ((), ts.tail)
      else .error ⟨.fault (.expectedPunctuator k), ts⟩ := by
  unfold Parser.expect Parser.eatPunctuator
  rw [eat_bind_run]
  rfl

/-- No delimiter comes next where nothing is ahead. -/
def nestedZero (b : Bracket) {inner : Nat → Parser β} {body : Parser β → Parser α} :
    Stepwise 0 (fun room => Parser.expect b.opening >>= fun _ =>
      Parser.nested (below inner room) body) R where
  steps := .refuse (.expectedPunctuator b.opening)
  follows hdepth hts := by
    obtain rfl := List.length_eq_zero_iff.mp (Nat.le_zero.mp hts)
    rfl
  spells _ _ _ _ _ hr hn hx := by cases hx
  guarded := trivial

private theorem follows_nested (b : Bracket) (inner : Nat → Parser β) (body : Parser β → Parser α)
    (X : Stepwise n (fun room => body (inner room)) R) {limit depth : Nat} {ts : List TokenKind}
    (hdepth : depth ≤ limit) (hts : ts.length ≤ n + 1) :
    (Steps.enter b (X.steps.bind fun a => .leave (.done a))).run .ofList (some limit) ts depth =
      ((Parser.expect b.opening >>= fun _ =>
        Parser.nested (below inner (limit - depth)) body) ts).map
        fun out => (out.1, out.2, depth) := by
  rw [Parser.bind_run, expect_run]
  show (if ts.head? = some (punct b.opening) then
    (if (some limit).any (· ≤ depth) then Except.error (Failure.mk .tooDeep ts.tail) else _)
    else _) = _
  split
  · have htail : ts.tail.length ≤ n := by rw [List.length_tail]; omega
    by_cases hlimit : limit ≤ depth
    · have hroom : limit - depth = 0 := by omega
      rw [hroom, if_pos (by simpa using hlimit)]
      rfl
    · obtain ⟨room, hroom⟩ : ∃ room, limit - depth = room + 1 := ⟨limit - depth - 1, by omega⟩
      have hinside : limit - (depth + 1) = room := by omega
      rw [if_neg (by simpa using hlimit), Steps.run_bind, X.follows (by omega) htail, hroom,
        hinside]
      dsimp only
      rw [Parser.nested_below_succ]
      cases body (inner room) ts.tail <;> rfl
  · rfl

private theorem spells_nested (b : Bracket) (inner : Nat → Parser β) (body : Parser β → Parser α)
    (X : Stepwise n (fun room => body (inner room)) R) :
    (Steps.enter b (X.steps.bind fun a => .leave (.done a))).Spells (n + 1) fun a w =>
      ∃ v, R a v ∧ w = v.within b := by
  intro r depth a r' depth' hr hn hx
  rw [Steps.run] at hx
  rw [Steps.trace]
  split at hx
  · next hk =>
    rw [if_pos hk]
    split at hx
    · next mid hmid =>
      rw [if_neg (by simp), Steps.run_bind] at hx
      split at hx
      · next a mid' depth₁ hinside =>
        cases hx
        -- The delimiter is one of the tokens, so there are fewer inside.
        have hcons := Reader.kinds_eq_cons hr hmid hk
        rw [hcons, List.length_cons] at hn
        obtain ⟨hvalid, rfl, taken, v, hkinds, hv, haccounts⟩ :=
          X.spells (Reader.valid_next hmid) (by omega) hinside
        refine ⟨hvalid, Nat.add_sub_cancel _ _, punct b.opening :: taken, v.within b, ?_,
          ⟨v, hv, rfl⟩, ?_⟩
        · rw [hcons, hkinds, List.cons_append]
        · rw [Steps.trace_bind, hinside]
          simpa [Steps.trace] using haccounts.within b
      · cases hx
    · cases hx
  · cases hx

/-- What stands on a level, with the delimiter that opens it. -/
def nested (b : Bracket) (inner : Nat → Parser β) (body : Parser β → Parser α)
    (X : Stepwise n (fun room => body (inner room)) R) :
    Stepwise (n + 1) (fun room => Parser.expect b.opening >>= fun _ =>
      Parser.nested (below inner room) body) fun a w => ∃ v, R a v ∧ w = v.within b where
  steps := .enter b (X.steps.bind fun a => .leave (.done a))
  follows := follows_nested b inner body X
  spells := spells_nested b inner body X
  guarded := X.guarded.bind fun _ => trivial

end Stepwise

end GraphQLSyntax
