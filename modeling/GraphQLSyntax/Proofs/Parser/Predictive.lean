import GraphQLSyntax.Proofs.Parser.Run
import GraphQLSyntax.Token.Lexeme

/-!
# Predictive parsers

A parser with one token of lookahead can be judged by what it has taken and by the next token. The
contract `Predictive` says so for a parser at every nesting room:

* what it gives depends on the tokens that it takes and on the kind of the next one, and not at all
  on the next one unless it is one that the parser would go on with;
* more room changes nothing, and room for as many levels as there are tokens taken is enough;
* where it refuses a token as a fault of the grammar, the tokens in front of that one can be
  completed to a text that it reads.

`Profile` is what a caller has to know of a parser to put another one behind it. The rules of this
module derive the contract of a composed parser from those of its parts:

* `Predictive.bind`: one parser behind another, if the second cannot begin with a token that the
  first would go on with;
* `Predictive.choose`, `Predictive.dispatch`: a choice by the next token;
* `Predictive.nested`: a level of nesting;
* `Predictive.each`, `Predictive.delimited`, `Predictive.optionalList`, `Predictive.separated`:
  repetition.
-/

namespace GraphQLSyntax

namespace Parser

variable {α β : Type}

/-! ## Profiles -/

/-- What can be seen of a parser from outside. -/
structure Profile where
  /-- Whether it takes a token whenever it succeeds. -/
  consumes : Bool
  /-- Whether it stands behind a delimiter that takes a level of room. -/
  inside : Bool
  /-- Tokens that complete a text of which nothing has been read. -/
  starts : TokenKind → Prop
  /-- Tokens behind a text that the parser would take too. -/
  goesOn : TokenKind → Prop

namespace Profile

/-- A parser that takes a token, behind no delimiter. -/
@[simp] def taking (starts goesOn : TokenKind → Prop) : Profile where
  consumes := true
  inside := false
  starts := starts
  goesOn := goesOn

/-- A parser that may take nothing, behind no delimiter. -/
@[simp] def optional (starts goesOn : TokenKind → Prop) : Profile where
  consumes := false
  inside := false
  starts := starts
  goesOn := goesOn

/-- A parser that takes nothing. -/
abbrev empty : Profile :=
  optional (fun _ => False) fun _ => False

/-- One parser behind another. -/
@[simp] def seq (π σ : Profile) : Profile where
  consumes := π.consumes || σ.consumes
  inside := π.inside || (!π.consumes && σ.inside)
  starts t := π.starts t ∨ (π.consumes = false ∧ σ.starts t)
  goesOn t := σ.goesOn t ∨ (σ.consumes = false ∧ π.goesOn t)

/-- A choice between a parser behind the token `k` and one for all other texts. -/
@[simp] def choice (k : TokenKind) (π σ : Profile) : Profile where
  consumes := σ.consumes
  inside := σ.inside
  starts := σ.starts
  goesOn t := π.goesOn t ∨ σ.goesOn t ∨ (σ.consumes = false ∧ t = k)

/-- Levels of room that are enough for a text of these tokens. -/
def levels (π : Profile) (ts : List TokenKind) : Nat :=
  ts.length + π.inside.toNat

/-- `π` promises all that `σ` does. -/
structure Refines (π σ : Profile) : Prop where
  consumes : σ.consumes = true → π.consumes = true
  inside : π.inside = true → σ.inside = true
  starts : ∀ t, π.starts t → σ.starts t
  goesOn : ∀ t, π.goesOn t → σ.goesOn t

end Profile

/-- The next token, if any, is none of these. -/
def Avoids (goesOn : TokenKind → Prop) (rest : List TokenKind) : Prop :=
  ∀ t, rest.head? = some t → ¬ goesOn t

theorem avoids_nil (goesOn : TokenKind → Prop) : Avoids goesOn [] := by
  simp [Avoids]

@[simp] theorem avoids_cons {goesOn : TokenKind → Prop} {t : TokenKind} {ts : List TokenKind} :
    Avoids goesOn (t :: ts) ↔ ¬ goesOn t := by
  simp [Avoids]

theorem Avoids.mono {g h : TokenKind → Prop} {rest : List TokenKind} (ha : Avoids h rest)
    (hg : ∀ t, g t → h t) : Avoids g rest :=
  fun t ht hgt => ha t ht (hg t hgt)

theorem Avoids.of_head_ne {k : TokenKind} {goesOn : TokenKind → Prop} {rest : List TokenKind}
    (ha : Avoids goesOn rest) (hk : goesOn k) : rest.head? ≠ some k :=
  fun h => ha k h hk

/-- The parser reads exactly `ts` as `x`, unless a token follows that it would go on with. -/
def Reads (π : Profile) (p : Nat → Parser α) (ts : List TokenKind) (x : α) : Prop :=
  ∀ room rest, π.levels ts ≤ room → Avoids π.goesOn rest → p room (ts ++ rest) = .ok (x, rest)

/-- Tokens can be added behind `pre` so that the parser reads all. -/
def Completes (π : Profile) (p : Nat → Parser α) (pre : List TokenKind) : Prop :=
  ∃ post x, Readable post ∧ (pre = [] → ∃ t us, post = t :: us ∧ π.starts t) ∧
    Reads π p (pre ++ post) x

/-- Some text can be read. -/
def Satisfiable (π : Profile) (p : Nat → Parser α) : Prop :=
  ∃ ts x, Readable ts ∧ (ts = [] → π.consumes = false) ∧ (∀ t, ts.head? = some t → π.starts t) ∧
    Reads π p ts x

/-- The contract of a parser with one token of lookahead, at one text. -/
structure PredictiveAt (π : Profile) (p : Nat → Parser α) (room : Nat) (ts : List TokenKind) :
    Prop where
  ok {rest : List TokenKind} {x : α} : p room ts = .ok (x, rest) →
    ∃ pre, ts = pre ++ rest ∧ (π.consumes = true → pre ≠ []) ∧
      ∀ room' rest', room ≤ room' ∨ π.levels pre ≤ room' →
        rest'.head? = rest.head? ∨ Avoids π.goesOn rest' →
        p room' (pre ++ rest') = .ok (x, rest')
  fault {ahead : List TokenKind} {f : SyntaxFault} : p room ts = .error ⟨.fault f, ahead⟩ →
    ∃ pre, ts = pre ++ ahead ∧ Completes π p pre ∧
      ∀ room' ahead', room ≤ room' ∨ π.levels pre ≤ room' → ahead'.head? = ahead.head? →
        p room' (pre ++ ahead') = .error ⟨.fault f, ahead'⟩
  tooDeep {ahead : List TokenKind} : p room ts = .error ⟨.tooDeep, ahead⟩ →
    ∃ pre, ts = pre ++ ahead ∧ room < π.levels pre ∧
      ∀ ahead', ahead'.head? = ahead.head? → p room (pre ++ ahead') = .error ⟨.tooDeep, ahead'⟩

/-- The contract of a parser with one token of lookahead. -/
structure Predictive (π : Profile) (p : Nat → Parser α) (room : Nat) : Prop where
  satisfiable : Satisfiable π p
  all : ∀ ts, PredictiveAt π p room ts

variable {π σ : Profile} {p q : Nat → Parser α} {room : Nat} {ts : List TokenKind} {x : α}

/-! ## Weaker promises -/

theorem Profile.Refines.levels_le (h : π.Refines σ) (ts : List TokenKind) :
    π.levels ts ≤ σ.levels ts := by
  have hi := h.inside
  unfold Profile.levels
  cases hπ : π.inside <;> cases hσ : σ.inside <;> simp_all

private theorem Reads.mono (h : Reads π p ts x) (hr : π.Refines σ) : Reads σ p ts x :=
  fun room rest hl ha =>
    h room rest (Nat.le_trans (hr.levels_le ts) hl) (ha.mono hr.goesOn)

theorem PredictiveAt.mono (h : PredictiveAt π p room ts) (hr : π.Refines σ) :
    PredictiveAt σ p room ts where
  ok hp := by
    obtain ⟨pre, hpre, hc, hx⟩ := h.ok hp
    refine ⟨pre, hpre, fun hσ => hc (hr.consumes hσ), fun room' rest' hl ha => hx room' rest' ?_ ?_⟩
    · exact hl.imp_right (Nat.le_trans (hr.levels_le pre))
    · exact ha.imp_right fun ha => ha.mono hr.goesOn
  fault hp := by
    obtain ⟨pre, hpre, ⟨post, x, hpost, hs, hx⟩, hf⟩ := h.fault hp
    refine ⟨pre, hpre, ⟨post, x, hpost, fun hnil => ?_, hx.mono hr⟩, fun room' ahead' hl =>
      hf room' ahead' (hl.imp_right (Nat.le_trans (hr.levels_le pre)))⟩
    obtain ⟨t, us, rfl, ht⟩ := hs hnil
    exact ⟨t, us, rfl, hr.starts t ht⟩
  tooDeep hp := by
    obtain ⟨pre, hpre, hl, hf⟩ := h.tooDeep hp
    exact ⟨pre, hpre, Nat.lt_of_lt_of_le hl (hr.levels_le pre), hf⟩

theorem Satisfiable.mono (h : Satisfiable π p) (hr : π.Refines σ) : Satisfiable σ p := by
  obtain ⟨ts, x, hts, hc, hs, hx⟩ := h
  refine ⟨ts, x, hts, fun hnil => ?_, fun t ht => hr.starts t (hs t ht), hx.mono hr⟩
  have := hr.consumes
  rw [hc hnil] at this
  simpa using this

theorem Predictive.mono (h : Predictive π p room) (hr : π.Refines σ) : Predictive σ p room :=
  ⟨h.satisfiable.mono hr, fun ts => (h.all ts).mono hr⟩

theorem Predictive.congr (h : Predictive π q room) (hp : ∀ room, p room = q room) :
    Predictive π p room := by
  rwa [funext hp]

/-- A text with its completion is not empty. -/
theorem append_completion_ne_nil {pre post : List TokenKind}
    (hs : pre = [] → ∃ t us, post = t :: us ∧ π.starts t) : pre ++ post ≠ [] := by
  intro hnil
  obtain ⟨rfl, rfl⟩ := List.append_eq_nil_iff.mp hnil
  obtain ⟨t, us, h, -⟩ := hs rfl
  cases h

/-- What can be completed from nothing can be read. -/
theorem Completes.satisfiable (h : Completes π p []) : Satisfiable π p := by
  obtain ⟨post, x, hpost, hs, hr⟩ := h
  obtain ⟨t, us, rfl, ht⟩ := hs rfl
  exact ⟨t :: us, x, hpost, by simp, by simpa using ht, hr⟩

/-- A parser that follows the contract everywhere can read some text: with enough room it reads the
empty one or refuses it as a fault, and what it refuses it could have completed. -/
theorem Predictive.intro (h : ∀ room ts, PredictiveAt π p room ts) : Predictive π p room := by
  refine ⟨?_, h room⟩
  cases hp : p (π.levels []) [] with
  | ok r =>
    obtain ⟨pre, hpre, hc, hr⟩ := (h _ _).ok hp
    obtain ⟨rfl, -⟩ := List.append_eq_nil_iff.mp hpre.symm
    exact ⟨[], r.1, readable_nil, fun _ => by simpa using hc, by simp,
      fun room rest hl ha => hr room rest (.inr hl) (.inr ha)⟩
  | error e =>
    obtain ⟨f | _, ahead⟩ := e
    · obtain ⟨pre, hpre, hc, -⟩ := (h _ _).fault hp
      obtain ⟨rfl, -⟩ := List.append_eq_nil_iff.mp hpre.symm
      exact hc.satisfiable
    · obtain ⟨pre, hpre, hl, -⟩ := (h _ _).tooDeep hp
      obtain ⟨rfl, -⟩ := List.append_eq_nil_iff.mp hpre.symm
      omega

/-! ## Sequences -/

theorem Predictive.pure (x : α) :
    Predictive .empty (fun _ => (pure x : Parser α)) room :=
  .intro fun room ts => {
    ok := by
      intro rest y hp
      obtain ⟨rfl, rfl⟩ := pure_eq_ok.mp hp
      exact ⟨[], rfl, by simp [Profile.optional], fun _ _ _ _ => rfl⟩
    fault := fun hp => by simp [pure_run] at hp
    tooDeep := fun hp => by simp [pure_run] at hp }

private theorem levels_le_seq (π σ : Profile) (ts us : List TokenKind) :
    π.levels ts ≤ (π.seq σ).levels (ts ++ us) := by
  simp only [Profile.levels, Profile.seq, List.length_append]
  cases π.inside with
  | true => simp
  | false => simp; omega

private theorem levels_le_seq_self (π σ : Profile) (ts : List TokenKind) :
    π.levels ts ≤ (π.seq σ).levels ts := by
  simpa using levels_le_seq π σ ts []

private theorem levels_seq_le (σ : Profile) {ts : List TokenKind} (us : List TokenKind)
    (hts : π.consumes = true → ts ≠ []) : σ.levels us ≤ (π.seq σ).levels (ts ++ us) := by
  have := List.length_pos_iff (l := ts)
  simp only [Profile.levels, Profile.seq, List.length_append]
  cases hσ : σ.inside <;> cases hπ : π.inside <;> cases hc : π.consumes <;> simp_all <;> omega

/-- What two parsers read one behind the other, their sequence reads. -/
private theorem reads_bind {q : α → Nat → Parser β} {us : List TokenKind} {y : β}
    (hp : Reads π p ts x) (hts : π.consumes = true → ts ≠ []) (hq : Reads σ (q x) us y)
    (hus : us = [] → σ.consumes = false) (hd : ∀ t, us.head? = some t → ¬ π.goesOn t) :
    Reads (π.seq σ) (fun room => p room >>= fun x => q x room) (ts ++ us) y := by
  intro room rest hl ha
  have ha' : Avoids π.goesOn (us ++ rest) := by
    cases us with
    | nil => exact ha.mono fun t ht => .inr ⟨hus rfl, ht⟩
    | cons u us => exact fun t ht => hd t (by simpa using ht)
  refine bind_eq_ok.mpr ⟨x, us ++ rest, ?_, ?_⟩
  · rw [List.append_assoc]
    exact hp room (us ++ rest) (Nat.le_trans (levels_le_seq π σ ts us) hl) ha'
  · exact hq room rest (Nat.le_trans (levels_seq_le σ us hts) hl) (ha.mono fun t ht => .inl ht)

/-- Behind the same text, the first token is the same if the next one is. -/
private theorem head?_append_congr (us : List TokenKind) {rest rest' : List TokenKind}
    (h : rest'.head? = rest.head?) : (us ++ rest').head? = (us ++ rest).head? := by
  cases us <;> simp [h]

/-- A text that can be completed for the first parser can be completed for the sequence: behind the
completion stands any text of the second. -/
private theorem Completes.bind_first {q : α → Nat → Parser β} {pre : List TokenKind}
    (hp : Completes π p pre) (hq : ∀ x, Satisfiable σ (q x))
    (hd : ∀ t, σ.starts t → ¬ π.goesOn t) :
    Completes (π.seq σ) (fun room => p room >>= fun x => q x room) pre := by
  obtain ⟨post, x, hpost, hs, hx⟩ := hp
  obtain ⟨us, y, hus, hc, hu, hy⟩ := hq x
  refine ⟨post ++ us, y, readable_append.mpr ⟨hpost, hus⟩, fun hpre => ?_, ?_⟩
  · obtain ⟨t, vs, rfl, ht⟩ := hs hpre
    exact ⟨t, vs ++ us, rfl, .inl ht⟩
  · rw [← List.append_assoc]
    exact reads_bind hx (fun _ => append_completion_ne_nil hs) hy hc fun t ht => hd t (hu t ht)

/-- A text of the first parser and one that can be completed for the second. In the completion the
first parser sees the token that was there, or one that begins a text of the second. -/
private theorem Completes.bind_second {q : α → Nat → Parser β} {pre us ahead : List TokenKind}
    (hc : π.consumes = true → pre ≠ [])
    (hp : ∀ room rest, π.levels pre ≤ room →
      rest.head? = (us ++ ahead).head? ∨ Avoids π.goesOn rest → p room (pre ++ rest) = .ok (x, rest))
    (hq : Completes σ (q x) us) (hd : ∀ t, σ.starts t → ¬ π.goesOn t) :
    Completes (π.seq σ) (fun room => p room >>= fun x => q x room) (pre ++ us) := by
  obtain ⟨post, y, hpost, hs, hy⟩ := hq
  refine ⟨post, y, hpost, fun hnil => ?_, fun room rest hl ha => ?_⟩
  · obtain ⟨rfl, rfl⟩ := List.append_eq_nil_iff.mp hnil
    obtain ⟨t, us, rfl, ht⟩ := hs rfl
    exact ⟨t, us, rfl, .inr ⟨by simpa using hc, ht⟩⟩
  · rw [List.append_assoc] at hl
    refine bind_eq_ok.mpr ⟨x, us ++ post ++ rest, ?_, ?_⟩
    · rw [List.append_assoc, List.append_assoc, List.append_assoc]
      refine hp room _ (Nat.le_trans (levels_le_seq π σ pre _) hl) ?_
      cases us with
      | nil =>
        obtain ⟨t, us, rfl, ht⟩ := hs rfl
        exact .inr (by simpa using hd t ht)
      | cons t us => exact .inl rfl
    · exact hy room rest (Nat.le_trans (levels_seq_le σ _ hc) hl) (ha.mono fun t ht => .inl ht)

theorem PredictiveAt.bind {q : α → Nat → Parser β} (hp : PredictiveAt π p room ts)
    (hq : ∀ x mid, p room ts = .ok (x, mid) → PredictiveAt σ (q x) room mid)
    (hs : ∀ x, Satisfiable σ (q x)) (hd : ∀ t, σ.starts t → ¬ π.goesOn t) :
    PredictiveAt (π.seq σ) (fun room => p room >>= fun x => q x room) room ts where
  ok hpq := by
    obtain ⟨x, mid, h₁, h₂⟩ := bind_eq_ok.mp hpq
    have hqx := hq x mid h₁
    obtain ⟨pre, rfl, hc₁, hr₁⟩ := hp.ok h₁
    obtain ⟨post, rfl, hc₂, hr₂⟩ := hqx.ok h₂
    refine ⟨pre ++ post, by simp, fun hc hnil => ?_, fun room' rest' hl ha => ?_⟩
    · obtain ⟨rfl, rfl⟩ := List.append_eq_nil_iff.mp hnil
      rcases Bool.or_eq_true_iff.mp hc with hc | hc
      · exact hc₁ hc rfl
      · exact hc₂ hc rfl
    · refine bind_eq_ok.mpr ⟨x, post ++ rest', ?_, ?_⟩
      · rw [List.append_assoc]
        refine hr₁ room' _ (hl.imp_right (Nat.le_trans (levels_le_seq π σ pre post))) ?_
        -- Where the second parser takes nothing, the first one sees what follows both.
        cases post with
        | nil => exact ha.imp_right fun ha => ha.mono fun t ht => .inr ⟨by simpa using hc₂, ht⟩
        | cons t post => exact .inl rfl
      · exact hr₂ room' rest' (hl.imp_right (Nat.le_trans (levels_seq_le σ post hc₁)))
          (ha.imp_right fun ha => ha.mono fun t ht => .inl ht)
  fault hpq := by
    -- The first parser stops, and the second has to be completed too, or the second one stops.
    rcases bind_eq_error.mp hpq with h₁ | ⟨x, mid, h₁, h₂⟩
    · obtain ⟨pre, rfl, hpre, hf⟩ := hp.fault h₁
      refine ⟨pre, rfl, hpre.bind_first hs hd, fun room' ahead' hl ha =>
        bind_eq_error.mpr (.inl (hf room' ahead' ?_ ha))⟩
      exact hl.imp_right (Nat.le_trans (levels_le_seq_self π σ pre))
    · have hqx := hq x mid h₁
      obtain ⟨pre, rfl, hc₁, hr₁⟩ := hp.ok h₁
      obtain ⟨us, rfl, hus, hf⟩ := hqx.fault h₂
      refine ⟨pre ++ us, by simp,
        hus.bind_second hc₁ (fun room' rest' hl => hr₁ room' rest' (.inr hl)) hd,
        fun room' ahead' hl ha => bind_eq_error.mpr (.inr ⟨x, us ++ ahead', ?_, ?_⟩)⟩
      · rw [List.append_assoc]
        exact hr₁ room' _ (hl.imp_right (Nat.le_trans (levels_le_seq π σ pre us)))
          (.inl (head?_append_congr us ha))
      · exact hf room' ahead' (hl.imp_right (Nat.le_trans (levels_seq_le σ us hc₁))) ha
  tooDeep hpq := by
    rcases bind_eq_error.mp hpq with h₁ | ⟨x, mid, h₁, h₂⟩
    · obtain ⟨pre, rfl, hl, hf⟩ := hp.tooDeep h₁
      exact ⟨pre, rfl, Nat.lt_of_lt_of_le hl (levels_le_seq_self π σ pre),
        fun ahead' ha => bind_eq_error.mpr (.inl (hf ahead' ha))⟩
    · have hqx := hq x mid h₁
      obtain ⟨pre, rfl, hc₁, hr₁⟩ := hp.ok h₁
      obtain ⟨us, rfl, hl, hf⟩ := hqx.tooDeep h₂
      refine ⟨pre ++ us, by simp, Nat.lt_of_lt_of_le hl (levels_seq_le σ us hc₁),
        fun ahead' ha => bind_eq_error.mpr (.inr ⟨x, us ++ ahead', ?_, hf ahead' ha⟩)⟩
      rw [List.append_assoc]
      exact hr₁ _ _ (.inl (Nat.le_refl _)) (.inl (head?_append_congr us ha))

theorem Satisfiable.bind {q : α → Nat → Parser β} (hp : Satisfiable π p)
    (hq : ∀ x, Satisfiable σ (q x)) (hd : ∀ t, σ.starts t → ¬ π.goesOn t) :
    Satisfiable (π.seq σ) (fun room => p room >>= fun x => q x room) := by
  obtain ⟨ts, x, hts, hc, hs, hx⟩ := hp
  obtain ⟨us, y, hus, hc', hs', hy⟩ := hq x
  refine ⟨ts ++ us, y, readable_append.mpr ⟨hts, hus⟩, fun hnil => ?_, fun t ht => ?_, ?_⟩
  · obtain ⟨rfl, rfl⟩ := List.append_eq_nil_iff.mp hnil
    simp [Profile.seq, hc rfl, hc' rfl]
  · cases ts with
    | nil => exact .inr ⟨hc rfl, hs' t ht⟩
    | cons u ts => exact .inl (hs t ht)
  · exact reads_bind hx (fun h hnil => by simp [hc hnil] at h) hy hc' fun t ht => hd t (hs' t ht)

theorem Satisfiable.map (f : α → β) (h : Satisfiable π p) :
    Satisfiable π (fun room => f <$> p room) := by
  obtain ⟨ts, x, hts, hc, hs, hx⟩ := h
  refine ⟨ts, f x, hts, hc, hs, fun room rest hl ha => ?_⟩
  exact map_eq_ok.mpr ⟨x, hx room rest hl ha, rfl⟩

/-- One parser behind another. The second must not begin with a token that the first would go on
with. -/
theorem Predictive.bind {q : α → Nat → Parser β} (hp : Predictive π p room)
    (hq : ∀ x, Predictive σ (q x) room) (hd : ∀ t, σ.starts t → ¬ π.goesOn t) :
    Predictive (π.seq σ) (fun room => p room >>= fun x => q x room) room where
  satisfiable := hp.satisfiable.bind (fun x => (hq x).satisfiable) hd
  all ts := (hp.all ts).bind (fun x mid _ => (hq x).all mid) (fun x => (hq x).satisfiable) hd

private theorem seq_pure_refines (π : Profile) :
    (π.seq .empty).Refines π where
  consumes hc := by simpa [Profile.seq, Profile.optional] using hc
  inside hi := by simpa [Profile.seq, Profile.optional] using hi
  starts t ht := by simpa [Profile.seq, Profile.optional] using ht
  goesOn t ht := by simpa [Profile.seq, Profile.optional] using ht

theorem PredictiveAt.map (f : α → β) (h : PredictiveAt π p room ts) :
    PredictiveAt π (fun room => f <$> p room) room ts := by
  have hp := h.bind (fun x mid _ => (Predictive.pure (f x)).all mid)
    (fun x => (Predictive.pure (f x) : Predictive _ _ room).satisfiable) fun t ht => ht.elim
  simp only [← map_eq_bind] at hp
  exact hp.mono (seq_pure_refines π)

theorem Predictive.map (f : α → β) (h : Predictive π p room) :
    Predictive π (fun room => f <$> p room) room := by
  have hp := h.bind (fun x => Predictive.pure (f x)) fun t ht => ht.elim
  simp only [← map_eq_bind] at hp
  exact hp.mono (seq_pure_refines π)

/-! ## Choices by the next token -/

private theorem levels_tail_le (π : Profile) (k : TokenKind) (ts : List TokenKind) :
    π.levels ts ≤ (k :: ts).length := by
  simp only [Profile.levels, List.length_cons]
  cases π.inside <;> simp

private theorem length_le_levels (π : Profile) (ts : List TokenKind) : ts.length ≤ π.levels ts :=
  Nat.le_add_right _ _

/-- A parser that is another one behind the token `k`. -/
theorem PredictiveAt.behind {k : TokenKind} (h : PredictiveAt π q room ts)
    (hp : ∀ room ts, p room (k :: ts) = q room ts) (hg : ∀ t, π.goesOn t → σ.goesOn t) :
    PredictiveAt σ p room (k :: ts) := by
  have hle : ∀ pre, π.levels pre ≤ σ.levels (k :: pre) := fun pre =>
    Nat.le_trans (levels_tail_le π k pre) (length_le_levels σ _)
  constructor
  · intro rest x hx
    rw [hp] at hx
    obtain ⟨pre, rfl, -, hr⟩ := h.ok hx
    refine ⟨k :: pre, rfl, by simp, fun room' rest' hl ha => ?_⟩
    rw [List.cons_append, hp]
    exact hr room' rest' (hl.imp_right (Nat.le_trans (hle pre))) (ha.imp_right fun ha => ha.mono hg)
  · intro ahead f hx
    rw [hp] at hx
    obtain ⟨pre, rfl, ⟨post, x, hpost, -, hr⟩, hf⟩ := h.fault hx
    refine ⟨k :: pre, rfl, ⟨post, x, hpost, by simp, fun room' rest' hl ha => ?_⟩,
      fun room' ahead' hl ha => ?_⟩
    · rw [List.cons_append, List.cons_append, hp]
      exact hr room' rest' (Nat.le_trans (hle _) hl) (ha.mono hg)
    · rw [List.cons_append, hp]
      exact hf room' ahead' (hl.imp_right (Nat.le_trans (hle pre))) ha
  · intro ahead hx
    rw [hp] at hx
    obtain ⟨pre, rfl, hl, hf⟩ := h.tooDeep hx
    refine ⟨k :: pre, rfl, Nat.lt_of_lt_of_le hl (hle pre), fun ahead' ha => ?_⟩
    rw [List.cons_append, hp]
    exact hf ahead' ha

/-- A parser that is another one for all texts that do not begin with `k`. -/
theorem PredictiveAt.unless {k : TokenKind} (h : PredictiveAt π q room ts)
    (hp : ∀ room ts, ts.head? ≠ some k → p room ts = q room ts) (hk : ts.head? ≠ some k)
    (hs : ∀ t, π.starts t → t ≠ k) :
    PredictiveAt { π with goesOn := fun t => π.goesOn t ∨ (π.consumes = false ∧ t = k) } p room
      ts := by
  -- The first token stays, except where none was taken.
  have hhead : ∀ pre rest rest' : List TokenKind, (pre ++ rest).head? ≠ some k →
      (pre = [] → rest'.head? ≠ some k) → (pre ++ rest').head? ≠ some k := by
    intro pre rest rest' h h'
    cases pre with
    | nil => exact h' rfl
    | cons t pre => exact h
  constructor
  · intro rest x hx
    rw [hp _ _ hk] at hx
    obtain ⟨pre, rfl, hc, hr⟩ := h.ok hx
    refine ⟨pre, rfl, hc, fun room' rest' hl ha => ?_⟩
    rw [hp]
    · exact hr room' rest' hl (ha.imp_right fun ha => ha.mono fun t ht => .inl ht)
    · refine hhead pre rest rest' hk fun hnil => ?_
      subst hnil
      rcases ha with ha | ha
      · exact ha ▸ hk
      · exact ha.of_head_ne (.inr ⟨by simpa using hc, rfl⟩)
  · intro ahead f hx
    rw [hp _ _ hk] at hx
    obtain ⟨pre, rfl, ⟨post, x, hpost, hs', hr⟩, hf⟩ := h.fault hx
    refine ⟨pre, rfl, ⟨post, x, hpost, hs', fun room' rest' hl ha => ?_⟩,
      fun room' ahead' hl ha => ?_⟩
    · rw [hp]
      · exact hr room' rest' hl (ha.mono fun t ht => .inl ht)
      · rw [List.append_assoc]
        refine hhead pre ahead _ hk fun hnil => ?_
        obtain ⟨t, us, rfl, ht⟩ := hs' hnil
        simpa using hs t ht
    · rw [hp]
      · exact hf room' ahead' hl ha
      · exact hhead pre ahead ahead' hk fun hnil => by subst hnil; exact ha ▸ hk
  · intro ahead hx
    rw [hp _ _ hk] at hx
    obtain ⟨pre, rfl, hl, hf⟩ := h.tooDeep hx
    refine ⟨pre, rfl, hl, fun ahead' ha => ?_⟩
    rw [hp]
    · exact hf ahead' ha
    · exact hhead pre ahead ahead' hk fun hnil => by subst hnil; exact ha ▸ hk

theorem PredictiveAt.choose {k : TokenKind} {q r : Nat → Parser α}
    (hq : ∀ tail, ts = k :: tail → PredictiveAt π q room tail)
    (hr : ts.head? ≠ some k → PredictiveAt σ r room ts) (hs : ∀ t, σ.starts t → t ≠ k)
    (hp : ∀ room ts, p room ts = if ts.head? = some k then q room ts.tail else r room ts) :
    PredictiveAt (.choice k π σ) p room ts := by
  by_cases hk : ts.head? = some k
  · obtain ⟨tail, rfl⟩ := List.head?_eq_some_iff.mp hk
    exact (hq tail rfl).behind (fun room ts => by simp [hp]) fun t ht => .inl ht
  · exact ((hr hk).unless (fun room ts h => by rw [hp, if_neg h]) hk hs).mono
      ⟨id, id, fun t ht => ht, fun t ht => .inr ht⟩

theorem Satisfiable.choose {k : TokenKind} {q r : Nat → Parser α} (hr : Satisfiable σ r)
    (hs : ∀ t, σ.starts t → t ≠ k)
    (hp : ∀ room ts, p room ts = if ts.head? = some k then q room ts.tail else r room ts) :
    Satisfiable (.choice k π σ) p := by
  obtain ⟨ts, x, hts, hc, hs', hx⟩ := hr
  refine ⟨ts, x, hts, hc, hs', fun room rest hl ha => ?_⟩
  have hk : (ts ++ rest).head? ≠ some k := by
    cases ts with
    | nil => exact ha.of_head_ne (.inr (.inr ⟨hc rfl, rfl⟩))
    | cons t ts => simpa using hs t (hs' t rfl)
  rw [hp, if_neg hk]
  exact hx room rest hl (ha.mono fun t ht => .inr (.inl ht))

/-- A choice by whether `k` is the next token. The parser for the other texts must not begin with
that token. -/
theorem Predictive.choose {k : TokenKind} {q r : Nat → Parser α} (hq : Predictive π q room)
    (hr : Predictive σ r room) (hs : ∀ t, σ.starts t → t ≠ k)
    (hp : ∀ room ts, p room ts = if ts.head? = some k then q room ts.tail else r room ts) :
    Predictive (.choice k π σ) p room where
  satisfiable := hr.satisfiable.choose hs hp
  all ts := .choose (fun tail _ => hq.all tail) (fun _ => hr.all ts) hs hp

/-- A parser that refuses the next token because of what it is. -/
theorem PredictiveAt.of_fault {f : SyntaxFault} (hc : Completes σ p [])
    (hp : ∀ room ts', ts'.head? = ts.head? → p room ts' = .error ⟨.fault f, ts'⟩) :
    PredictiveAt σ p room ts := by
  constructor
  · intro rest x hx
    rw [hp _ _ rfl] at hx
    cases hx
  · intro ahead g hx
    rw [hp _ _ rfl] at hx
    cases hx
    exact ⟨[], rfl, hc, fun room' ahead' _ ha => hp room' ahead' ha⟩
  · intro ahead hx
    rw [hp _ _ rfl] at hx
    cases hx

/-- Behind the token `t` the parser follows the contract, and goes on with nothing that `σ` would
not. -/
def PredictiveBehind (t : TokenKind) (σ : Profile) (p : Nat → Parser α) (room : Nat) : Prop :=
  ∃ (π : Profile) (q : Nat → Parser α), (∀ room ts, p room (t :: ts) = q room ts) ∧
    (∀ u, π.goesOn u → σ.goesOn u) ∧ Predictive π q room

theorem Predictive.behind {t : TokenKind} (h : Predictive π q room)
    (hp : ∀ room ts, p room (t :: ts) = q room ts) (hg : ∀ u, π.goesOn u → σ.goesOn u) :
    PredictiveBehind t σ p room :=
  ⟨π, q, hp, hg, h⟩

theorem PredictiveBehind.mono {t : TokenKind} (h : PredictiveBehind t π p room)
    (hg : ∀ u, π.goesOn u → σ.goesOn u) : PredictiveBehind t σ p room := by
  obtain ⟨ρ, q, hp, hρ, hq⟩ := h
  exact ⟨ρ, q, hp, fun u hu => hg u (hρ u hu), hq⟩

theorem PredictiveBehind.map {t : TokenKind} (f : α → β) (h : PredictiveBehind t σ p room) :
    PredictiveBehind t σ (fun room => f <$> p room) room := by
  obtain ⟨π, q, hp, hg, hq⟩ := h
  refine ⟨π, _, fun room ts => ?_, hg, hq.map f⟩
  show (f <$> p room) (t :: ts) = _
  rw [map_run, map_run, hp]

/-- A choice by the next token among parsers behind it, with a fault for the tokens that are not
accepted. -/
theorem Predictive.dispatch (accepts : TokenKind → Prop) {f : Option TokenKind → SyntaxFault}
    (hq : ∀ t, accepts t → PredictiveBehind t σ p room)
    (hf : ∀ room ts, (∀ t, ts.head? = some t → ¬ accepts t) →
      p room ts = .error ⟨.fault (f ts.head?), ts⟩)
    (hs : ∃ t, accepts t ∧ t.isReadable = true ∧ σ.starts t) : Predictive σ p room := by
  have hc : Completes σ p [] := by
    obtain ⟨t, ht, hrd, hst⟩ := hs
    obtain ⟨π, q, hp, hg, hq⟩ := hq t ht
    obtain ⟨ts, x, hts, -, -, hx⟩ := hq.satisfiable
    refine ⟨t :: ts, x, readable_cons.mpr ⟨hrd, hts⟩, fun _ => ⟨t, ts, rfl, hst⟩,
      fun room rest hl ha => ?_⟩
    rw [List.nil_append, List.cons_append, hp]
    refine hx room rest (Nat.le_trans ?_ hl) (ha.mono hg)
    exact Nat.le_trans (levels_tail_le π t ts) (length_le_levels σ _)
  refine ⟨hc.satisfiable, fun ts => ?_⟩
  by_cases ht : ∃ t, ts.head? = some t ∧ accepts t
  · obtain ⟨t, hhead, ht⟩ := ht
    obtain ⟨tail, rfl⟩ := List.head?_eq_some_iff.mp hhead
    obtain ⟨π, q, hp, hg, hq⟩ := hq t ht
    exact (hq.all tail).behind hp hg
  · refine .of_fault (f := f ts.head?) hc fun room ts' hts => ?_
    rw [hf room ts' (by grind), hts]

/-- A parser that follows the contract takes no tokens away that it was not given. -/
theorem Predictive.takes (h : ∀ room, Predictive π p room) (room : Nat) :
    Takes π.consumes.toNat (p room) := by
  intro ts x rest hp
  obtain ⟨pre, rfl, hc, -⟩ := ((h room).all ts).ok hp
  have hpos := List.length_pos_iff (l := pre)
  rw [List.length_append]
  cases hπ : π.consumes with
  | true =>
    have hpre := hpos.mpr (hc hπ)
    rw [Bool.toNat_true]
    omega
  | false =>
    rw [Bool.toNat_false]
    omega

/-! ## Nesting -/

section Nesting

variable {body : Nat → Parser α}

/-- Behind a delimiter a text needs room for one more level. -/
private theorem levels_inside (hi : π.inside = false) (ts : List TokenKind) :
    Profile.levels { π with inside := true } ts = π.levels ts + 1 := by
  simp [Profile.levels, hi]

private theorem Reads.inside (h : Reads π body ts x) (hi : π.inside = false)
    (hp : ∀ r ts, p (r + 1) ts = body r ts) : Reads { π with inside := true } p ts x := by
  intro room rest hl ha
  rw [levels_inside hi] at hl
  obtain ⟨r, rfl⟩ : ∃ r, room = r + 1 := ⟨room - 1, by omega⟩
  rw [hp]
  exact h r rest (Nat.le_of_succ_le_succ hl) ha

/-- Without room every text is too deep, and nothing is taken. -/
private theorem PredictiveAt.of_tooDeep (h0 : ∀ ts, p 0 ts = .error ⟨.tooDeep, ts⟩) :
    PredictiveAt { π with inside := true } p 0 ts where
  ok hx := by simp [h0] at hx
  fault hx := by simp [h0] at hx
  tooDeep hx := by
    rw [h0] at hx
    cases hx
    exact ⟨[], rfl, by simp [Profile.levels], fun ahead' _ => h0 ahead'⟩

/-- With room for a level a text is read as the body reads it with one less. -/
private theorem PredictiveAt.inside {r : Nat} (h : PredictiveAt π body r ts)
    (hi : π.inside = false) (hp : ∀ r ts, p (r + 1) ts = body r ts) :
    PredictiveAt { π with inside := true } p (r + 1) ts := by
  -- More room than before the delimiter is more room behind it.
  have hmore : ∀ {room' : Nat} {pre : List TokenKind}, r + 1 ≤ room' ∨
      Profile.levels { π with inside := true } pre ≤ room' →
      ∃ r', room' = r' + 1 ∧ (r ≤ r' ∨ π.levels pre ≤ r') := by
    intro room' pre hl
    rw [levels_inside hi] at hl
    exact ⟨room' - 1, by omega, by omega⟩
  constructor
  · intro rest x hx
    rw [hp] at hx
    obtain ⟨pre, hpre, hc, hr⟩ := h.ok hx
    refine ⟨pre, hpre, hc, fun room' rest' hl ha => ?_⟩
    obtain ⟨r', rfl, hl'⟩ := hmore hl
    rw [hp]
    exact hr r' rest' hl' ha
  · intro ahead f hx
    rw [hp] at hx
    obtain ⟨pre, hpre, ⟨post, x, hpost, hst, hr⟩, hf⟩ := h.fault hx
    refine ⟨pre, hpre, ⟨post, x, hpost, hst, hr.inside hi hp⟩, fun room' ahead' hl ha => ?_⟩
    obtain ⟨r', rfl, hl'⟩ := hmore hl
    rw [hp]
    exact hf r' ahead' hl' ha
  · intro ahead hx
    rw [hp] at hx
    obtain ⟨pre, hpre, hl, hf⟩ := h.tooDeep hx
    refine ⟨pre, hpre, by rw [levels_inside hi]; omega, fun ahead' ha => ?_⟩
    rw [hp]
    exact hf ahead' ha

private theorem Predictive.entering (hi : π.inside = false)
    (h : ∀ r, room = r + 1 → Predictive π body r) (hs : Satisfiable π body)
    (h0 : ∀ ts, p 0 ts = .error ⟨.tooDeep, ts⟩) (hp : ∀ r ts, p (r + 1) ts = body r ts) :
    Predictive { π with inside := true } p room := by
  refine ⟨?_, fun ts => ?_⟩
  · obtain ⟨ts, x, hts, hc, hst, hx⟩ := hs
    exact ⟨ts, x, hts, hc, hst, hx.inside hi hp⟩
  · cases room with
    | zero => exact .of_tooDeep h0
    | succ r => exact ((h r rfl).all ts).inside hi hp

end Nesting

/-- What stands behind a delimiter that takes a level of room. -/
theorem Predictive.nested {f : Parser α → Parser β} (hi : π.inside = false)
    (h : ∀ r, room = r + 1 → Predictive π (fun r => f (p r)) r)
    (hs : Satisfiable π (fun r => f (p r))) :
    Predictive { π with inside := true } (fun room => Parser.nested (below p room) f) room :=
  .entering hi h hs (fun _ => rfl) fun _ _ => rfl

end Parser

end GraphQLSyntax
