import GraphQLSyntax.Proofs.Steps.Stepwise

/-!
# Single tokens and repetition, stepwise

The programs of the building blocks of parsers. A repetition is unrolled for as many items as there
can be tokens.

* `Stepwise.eat`, `Stepwise.expect`, `Stepwise.name`: single tokens.
* `Stepwise.each`, `Stepwise.separated`: items with a separator.
* `Stepwise.delimited`, `Stepwise.optionalList`: items between delimiters.
* `Stepwise.untilEnd`: parts one behind the other, with what each has behind it.
-/

namespace GraphQLSyntax

namespace Stepwise

open GraphQLSyntax.Parser (Takes)

variable {α : Type} {n : Nat}

/-! ## Single tokens -/

def eat (k : TokenKind) :
    Stepwise n (fun _ => Parser.eat k) (Exactly fun b => if b then .token k else .empty) :=
  ((ifNext k (pure true) (pure false) (Nat.le_succ n)).mono (by
    rintro b w (⟨v, ⟨rfl, rfl⟩, rfl⟩ | ⟨rfl, rfl⟩) <;> simp [Exactly])).congr
    fun _ ts _ => Parser.eat_run k ts

/-- A choice by whether the token `k` can be taken. -/
def ifEat {p q : Nat → Parser α} {R S : α → Written → Prop} (k : TokenKind) (X : Stepwise n p R)
    (Y : Stepwise n q S) :
    Stepwise n (fun room => Parser.eat k >>= fun eaten => if eaten = true then p room else q room)
      fun a w => (∃ v, R a v ∧ w = .token k ++ v) ∨ S a w :=
  (ifNext k X Y (Nat.le_succ n)).congr fun _ ts _ => Parser.eat_bind_run k _ ts

def expect (k : Punctuator) :
    Stepwise n (fun _ => Parser.expect k) (Exactly fun _ => .token (punct k)) :=
  ((ifNext (R := fun _ w => w = .empty) (S := fun _ _ => False) (punct k) ((pure ()).mono (by simp))
    (refuse (.expectedPunctuator k)) (Nat.le_succ n)).mono (by
      rintro b w (⟨v, rfl, rfl⟩ | ⟨⟨⟩⟩)
      simp [Exactly])).congr
    fun _ ts _ => expect_run k ts

def expectKeyword (keyword : String) :
    Stepwise n (fun _ => Parser.expectKeyword keyword) (Exactly fun _ => .token (.name keyword)) :=
  ((ifNext (R := fun _ w => w = .empty) (S := fun _ _ => False) (.name keyword)
    ((pure ()).mono (by simp)) (refuse (.expectedKeyword keyword)) (Nat.le_succ n)).mono (by
      rintro b w (⟨v, rfl, rfl⟩ | ⟨⟨⟩⟩)
      simp [Exactly])).congr
    fun _ ts _ => Parser.eat_bind_run (.name keyword) _ ts

/-- The token of `f`, if one comes next. -/
private def optional (f : TokenKind → Option α) (kind : α → TokenKind)
    (h : ∀ t x, f t = some x → t = kind x) :
    Stepwise n (fun _ ts => match ts.head?.bind f with
        | some x => .ok (some x, ts.tail)
        | none => .ok (none, ts))
      (Exactly fun x => .flat (x.map kind).toList) :=
  (branch f (fun x => pure (some x)) (pure none) (Nat.le_succ n)).mono (by
    rintro b w (⟨t, x, v, ht, ⟨rfl, rfl⟩, rfl⟩ | ⟨rfl, rfl⟩)
    · rw [h t x ht]
      rfl
    · rfl)

private def nameText? : TokenKind → Option String
  | .name text => some text
  | _ => none

private def stringText? : TokenKind → Option String
  | .string text => some text
  | _ => none

private theorem eq_of_nameText? {t : TokenKind} {text : String} (h : nameText? t = some text) :
    t = .name text := by
  cases t <;> simp [nameText?] at h
  rw [h]

def name? :
    Stepwise n (fun _ => Parser.name?)
      (Exactly fun text => .flat (text.map TokenKind.name).toList) :=
  (optional nameText? .name fun _ _ => eq_of_nameText?).congr fun _ ts _ => by
    rcases ts with _ | ⟨_ | _ | _ | _ | _, ts⟩ <;> rfl

def string? :
    Stepwise n (fun _ => Parser.string?) (Exactly fun text => .flat (descriptionTokens text)) :=
  (optional stringText? .string fun t text h => by
    cases t <;> simp [stringText?] at h
    rw [h]).congr fun _ ts _ => by
    rcases ts with _ | ⟨_ | _ | _ | _ | _, ts⟩ <;> rfl

def lookedUp (lookup : String → Option α) (unknown expected : SyntaxFault) :
    Stepwise n (fun _ => Parser.lookedUp lookup unknown expected)
      fun x w => ∃ text, lookup text = some x ∧ w = .token (.name text) :=
  ((branch (fun t => (nameText? t).bind lookup) (fun x => pure x)
    (lookIf (R := fun _ _ => False) (fun t => (t.bind nameText?).isSome) (refuse unknown)
      (refuse expected)) (Nat.le_succ n)).mono (by
    rintro x w (⟨t, y, v, ht, ⟨rfl, rfl⟩, rfl⟩ | ⟨⟨⟩⟩)
    obtain ⟨text, htext, hx⟩ := Option.bind_eq_some_iff.mp ht
    exact ⟨text, hx, by rw [eq_of_nameText? htext, Written.append_empty]⟩)).congr fun _ ts _ => by
    rcases ts with _ | ⟨_ | text | _ | _ | _, ts⟩
    case cons.name =>
      simp only [Parser.lookedUp, List.head?_cons, Option.bind_some, nameText?]
      cases lookup text <;> rfl
    all_goals rfl

def name : Stepwise n (fun _ => Parser.name) (Exactly fun text => .token (.name text)) :=
  ((lookedUp some .expectedName .expectedName).mono (by
    rintro x w ⟨text, ⟨⟩, rfl⟩
    rfl)).congr fun _ ts _ => by
    rcases ts with _ | ⟨_ | _ | _ | _ | _, ts⟩ <;> rfl

/-! ## Items with a separator -/

section

variable {item : Nat → Parser α} {W : α → Written}

/-- An item in front of others. -/
private def cons {items : Nat → Parser (List α)} {V : List α → Written}
    (X : Stepwise n item (Exactly W)) (Y : Stepwise n items (Exactly V)) :
    Stepwise n (fun room => item room >>= fun x => (x :: ·) <$> items room)
      fun xs w => ∃ y ys, xs = y :: ys ∧ w = W y ++ V ys :=
  (X.bind fun x => Y.map (x :: ·)).mono (by
    rintro xs w ⟨y, v, u, rfl, ⟨ys, rfl, rfl⟩, rfl⟩
    exact ⟨y, ys, rfl, rfl⟩)

/-- Items, each behind its separator. -/
def behind (separator : Punctuator) (W : α → Written) (xs : List α) : Written :=
  .concat (xs.map fun x => .token (punct separator) ++ W x)

def each (separator : Punctuator) (X : Stepwise n item (Exactly W))
    (ht : ∀ room, Takes 0 (item room)) : {k : Nat} → k ≤ n →
    Stepwise k (fun room => Parser.each separator (item room)) (Exactly (behind separator W))
  | 0, _ => ((pure []).mono (by
      rintro _ _ ⟨rfl, rfl⟩
      rfl)).congr fun room ts hts => by
      obtain rfl := List.length_eq_zero_iff.mp (Nat.le_zero.mp hts)
      rw [Parser.each_run (ht room)]
      rfl
  | k + 1, hk => ((ifNext (punct separator)
      (cons (X.le (Nat.le_of_succ_le hk)) (each separator X ht (Nat.le_of_succ_le hk)))
      (pure []) (Nat.le_refl _)).mono (by
      rintro _ _ (⟨_, ⟨y, ys, rfl, rfl⟩, rfl⟩ | ⟨rfl, rfl⟩)
      · simp [Exactly, behind, Written.append_assoc]
      · rfl)).congr fun room ts _ => Parser.each_run (ht room) ts

/-- Items with a separator between each two, and maybe one in front. -/
def separated (separator : Punctuator) (X : Stepwise n item (Exactly W))
    (ht : ∀ room, Takes 0 (item room)) :
    Stepwise n (fun room => Parser.separated separator (item room)) fun xs w => xs ≠ [] ∧
      ∃ leading : Bool, w = (if leading then .token (punct separator) else .empty) ++
        .separated separator (xs.map W) :=
  ((ifNext (punct separator) (cons X (each separator X ht (Nat.le_refl n)))
    (cons X (each separator X ht (Nat.le_refl n))) (Nat.le_succ n)).mono (by
    have hseparated : ∀ y ys, W y ++ behind separator W ys =
        Written.separated separator ((y :: ys).map W) := by
      intro y ys
      simp [Written.separated, behind, Function.comp_def]
    rintro xs w (⟨_, ⟨y, ys, rfl, rfl⟩, rfl⟩ | ⟨y, ys, rfl, rfl⟩)
    · exact ⟨List.cons_ne_nil y ys, true, by rw [hseparated]; rfl⟩
    · exact ⟨List.cons_ne_nil y ys, false, by rw [hseparated]; simp⟩)).congr
    fun room ts _ => Parser.separated_run separator (item room) ts

/-! ## Items between delimiters -/

/-- Items and the closing delimiter. -/
def closed (close : Punctuator) (W : α → Written) (xs : List α) : Written :=
  .concat (xs.map W) ++ .token (punct close)

private theorem closed_cons (close : Punctuator) (W : α → Written) (x : α) (xs : List α) :
    closed close W (x :: xs) = W x ++ closed close W xs := by
  simp [closed, Written.append_assoc]

def delimited (close : Punctuator) (X : Stepwise n item (Exactly W))
    (ht : ∀ room, Takes 1 (item room)) : {k : Nat} → k ≤ n →
    Stepwise k (fun room => Parser.delimited close (item room)) (Exactly (closed close W))
  | 0, _ => (refuse (.unclosed close)).congr fun room ts hts => by
    obtain rfl := List.length_eq_zero_iff.mp (Nat.le_zero.mp hts)
    rw [Parser.delimited_run (ht room)]
    rfl
  | k + 1, hk => ((ifNext (punct close) (pure [])
      (lookIf (R := Exactly (closed close W)) (· = none) (refuse (.unclosed close))
        (((X.le hk).bindShorter ht fun x =>
          (delimited close X ht (Nat.le_of_succ_le hk)).map (x :: ·)).mono (by
          rintro _ _ ⟨y, _, _, rfl, ⟨ys, rfl, rfl⟩, rfl⟩
          exact (closed_cons close W y ys).symm))) (Nat.le_succ _)).mono (by
      rintro _ _ (⟨_, ⟨rfl, rfl⟩, rfl⟩ | rfl)
      · simp [Exactly, closed]
      · rfl)).congr fun room ts _ => by
      rw [Parser.delimited_run (ht room)]
      cases ts <;> rfl

def delimitedNonempty (list : NonemptyList) (close : Punctuator) (X : Stepwise n item (Exactly W))
    (ht : ∀ room, Takes 1 (item room)) :
    Stepwise n (fun room => Parser.delimitedNonempty list close (item room)) fun xs w =>
      xs ≠ [] ∧ w = closed close W xs :=
  (lookIf (· = some (punct close)) (refuse (.empty list))
    (lookIf (· = none) (refuse (.unclosed close))
      ((cons X (delimited close X ht (Nat.le_refl n))).mono (by
        rintro _ _ ⟨y, ys, rfl, rfl⟩
        exact ⟨List.cons_ne_nil y ys, (closed_cons close W y ys).symm⟩)))).congr
    fun room ts _ => by
      rw [Parser.delimitedNonempty_run, Parser.delimited_run (ht room)]
      rcases ts with _ | ⟨t, ts⟩
      · rfl
      · by_cases h : t = punct close
        · simp only [List.head?_cons, h, if_true]
          rfl
        · simp only [List.head?_cons, Option.some.injEq, h, if_false]
          rfl

def optionalList (list : NonemptyList) (opening close : Punctuator)
    (X : Stepwise n item (Exactly W)) (ht : ∀ room, Takes 1 (item room)) :
    Stepwise n (fun room => Parser.optionalList list opening close (item room))
      (Exactly fun xs => .enclosed opening close (xs.map W)) :=
  ((ifNext (punct opening) (delimitedNonempty list close X ht) (pure []) (Nat.le_succ n)).mono (by
    rintro xs w (⟨_, ⟨hxs, rfl⟩, rfl⟩ | ⟨rfl, rfl⟩)
    · rw [Exactly, Written.enclosed_of_ne_nil (by simpa using hxs)]
      rfl
    · rfl)).congr fun room ts _ => Parser.optionalList_run list opening close (item room) ts

end

/-! ## Parts up to the end -/

/-- Parts in a row, of each what it is written as, and a fact about it and what comes behind it. -/
inductive Row (R : α → Written → Prop) (F : α → Option TokenKind → Prop) :
    List α → List Written → Prop
  | nil : Row R F [] []
  | cons {x : α} {xs : List α} {w : Written} {ws : List Written} (written : R x w)
      (behind : F x (Written.concat ws).tokens.head?) (row : Row R F xs ws) :
      Row R F (x :: xs) (w :: ws)

section

variable {item : Nat → Parser α} {items : Nat → Parser (List α)} {R : α → Written → Prop}
  {F : α → Option TokenKind → Prop}

private theorem rest_of_untilEnd (ht : ∀ room, Takes 1 (item room))
    (hitems : ∀ room ts, items room ts = if ts = [] then .ok ([], []) else
      (item room >>= fun x => (x :: ·) <$> items room) ts)
    {room : Nat} {ts rest : List TokenKind} {xs : List α} (h : items room ts = .ok (xs, rest)) :
    rest = [] := by
  rw [hitems] at h
  split at h
  · cases h
    rfl
  · obtain ⟨x, mid, hx, hxs⟩ := Parser.bind_eq_ok.mp h
    obtain ⟨ys, hys, -⟩ := Parser.map_eq_ok.mp hxs
    have := ht room ts x mid hx
    exact rest_of_untilEnd ht hitems hys
termination_by ts.length

private theorem spells_inFront (X : Stepwise (n + 1) item R) (ht : ∀ room, Takes 1 (item room))
    (hF : ∀ room ts x rest, item room ts = .ok (x, rest) → F x rest.head?)
    {S : List α → Written → Prop} (Y : Stepwise n items S)
    (hend : ∀ room ts xs rest, items room ts = .ok (xs, rest) → rest = []) :
    (X.bindShorter ht fun x => Y.map (x :: ·)).steps.Spells (n + 1) fun xs w =>
      ∃ y ys v u, xs = y :: ys ∧ R y v ∧ S ys u ∧ F y u.tokens.head? ∧ w = v ++ u := by
  intro r depth xs r' depth' hr hn hx
  have hbind : (X.steps.bind fun y => (Y.map (y :: ·)).steps).run Reader.feed none r depth =
      .ok (xs, r', depth') := hx
  rw [Steps.run_bind] at hbind
  split at hbind
  · next y mid depth₁ hmid =>
    obtain ⟨room, hp⟩ := X.exists_room hr hn hmid
    obtain ⟨hvalid, rfl, taken, v, hkinds, hv, haccounts⟩ := X.spells hr hn hmid
    have hshort : mid.run.kinds.length ≤ n := by
      have := ht room _ _ _ hp
      omega
    obtain ⟨room', hp'⟩ := (Y.map (y :: ·)).exists_room hvalid hshort hbind
    obtain ⟨ys, hys, rfl⟩ := Parser.map_eq_ok.mp hp'
    obtain ⟨hvalid', rfl, taken', u, hkinds', ⟨_, hcons, hu⟩, haccounts'⟩ :=
      (Y.map (y :: ·)).spells hvalid hshort hbind
    obtain rfl := (List.cons.inj hcons).2
    have hnil := hend _ _ _ _ hys
    refine ⟨hvalid', rfl, taken ++ taken', v ++ u, ?_, ⟨y, ys, v, u, rfl, hv, hu, ?_, rfl⟩, ?_⟩
    · rw [hkinds, hkinds', List.append_assoc]
    · rw [← haccounts'.head_eq]
      have hbehind := hF _ _ _ _ hp
      -- The other items are read to the end, so what follows the first is their tokens.
      rwa [hkinds', hnil, List.append_nil] at hbehind
    · show Accounts _ ((X.steps.bind fun y => (Y.map (y :: ·)).steps).trace _ _ _) _ _
      rw [Steps.trace_bind, hmid]
      exact haccounts.append haccounts'
  · cases hbind

/-- A part in front of those up to the end. -/
private def inFront (X : Stepwise (n + 1) item R) (ht : ∀ room, Takes 1 (item room))
    (hF : ∀ room ts x rest, item room ts = .ok (x, rest) → F x rest.head?)
    {S : List α → Written → Prop} (Y : Stepwise n items S)
    (hend : ∀ room ts xs rest, items room ts = .ok (xs, rest) → rest = []) :
    Stepwise (n + 1) (fun room => item room >>= fun x => (x :: ·) <$> items room) fun xs w =>
      ∃ y ys v u, xs = y :: ys ∧ R y v ∧ S ys u ∧ F y u.tokens.head? ∧ w = v ++ u where
  steps := (X.bindShorter ht fun x => Y.map (x :: ·)).steps
  follows := (X.bindShorter ht fun x => Y.map (x :: ·)).follows
  spells := spells_inFront X ht hF Y hend
  guarded := (X.bindShorter ht fun x => Y.map (x :: ·)).guarded

/-- Parts up to the end. What is known of a part and the token behind it is known of all of them. -/
def untilEnd (X : Stepwise n item R) (ht : ∀ room, Takes 1 (item room))
    (hF : ∀ room ts x rest, item room ts = .ok (x, rest) → F x rest.head?)
    (hitems : ∀ room ts, items room ts = if ts = [] then .ok ([], []) else
      (item room >>= fun x => (x :: ·) <$> items room) ts) : {k : Nat} → k ≤ n →
    Stepwise k items fun xs w => ∃ ws, Row R F xs ws ∧ w = .concat ws
  | 0, _ => ((pure []).mono (by
      rintro _ _ ⟨rfl, rfl⟩
      exact ⟨[], .nil, rfl⟩)).congr fun room ts hts => by
      obtain rfl := List.length_eq_zero_iff.mp (Nat.le_zero.mp hts)
      rw [hitems]
      rfl
  | k + 1, hk => (lookIf (· = none)
      ((pure []).mono (by
        rintro _ _ ⟨rfl, rfl⟩
        exact ⟨[], .nil, rfl⟩))
      ((inFront (X.le hk) ht hF (untilEnd X ht hF hitems (Nat.le_of_succ_le hk))
          fun _ _ _ _ => rest_of_untilEnd ht hitems).mono (by
        rintro _ _ ⟨y, ys, v, u, rfl, hv, ⟨ws, hws, rfl⟩, hbehind, rfl⟩
        exact ⟨v :: ws, .cons hv hbehind hws, rfl⟩))).congr fun room ts _ => by
      rw [hitems]
      cases ts <;> rfl

end

end Stepwise

end GraphQLSyntax
