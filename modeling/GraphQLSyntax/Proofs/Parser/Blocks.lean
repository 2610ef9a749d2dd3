import GraphQLSyntax.Proofs.Parser.Predictive

/-!
# Predictive building blocks

The contract of `Predictive` for the parsers of which all productions are made.

* `predictive_name`, `predictive_expect`, `predictive_expectKeyword`: a token that must come next.
* `predictive_lookedUp`: a name that must have a meaning.
* `predictive_eat`, `predictive_name?`, `predictive_string?`: a token that may come next.
* `Predictive.each`, `Predictive.delimited`, `Predictive.optionalList`, `Predictive.separated`:
  lists.
* `Predictive.checked`: a parser that refuses what it would give for no tokens at all.
-/

namespace GraphQLSyntax

namespace Parser

variable {α β : Type} {room : Nat}

/-! ## Single tokens -/

theorem predictive_name :
    Predictive (.taking (· = .name "a") fun _ => False) (fun _ => name) room := by
  refine .dispatch (fun t => ∃ text, t = .name text) (f := fun _ => .expectedName)
    ?_ ?_ ⟨.name "a", ⟨"a", rfl⟩, by decide, rfl⟩
  · rintro t ⟨text, rfl⟩
    exact ⟨.empty, fun _ => pure text, fun _ _ => rfl, fun _ => id, .pure text⟩
  · intro _ ts hts
    unfold name
    rw [peek_bind_run]
    rcases ts with _ | ⟨_ | text | _ | _ | _, ts⟩
    case cons.name => exact (hts _ rfl ⟨text, rfl⟩).elim
    all_goals rfl

theorem predictive_expect (p : Punctuator) :
    Predictive (.taking (· = punct p) fun _ => False) (fun _ => expect p) room := by
  refine .dispatch (· = punct p) (f := fun _ => .expectedPunctuator p) ?_ ?_
    ⟨punct p, rfl, rfl, rfl⟩
  · rintro t rfl
    exact ⟨.empty, fun _ => pure (), fun _ _ => expect_eq_ok.mpr rfl, fun _ => id, .pure ()⟩
  · intro _ ts hts
    exact eat_bind_of_ne (fun h => hts _ h rfl) _

theorem predictive_expectKeyword (keyword : String) (hk : isName keyword = true) :
    Predictive (.taking (· = .name keyword) fun _ => False) (fun _ => expectKeyword keyword)
      room := by
  refine .dispatch (· = .name keyword) (f := fun _ => .expectedKeyword keyword) ?_ ?_
    ⟨.name keyword, rfl, hk, rfl⟩
  · rintro t rfl
    exact ⟨.empty, fun _ => pure (), fun _ _ => expectKeyword_eq_ok.mpr rfl, fun _ => id, .pure ()⟩
  · intro _ ts hts
    exact eat_bind_of_ne (fun h => hts _ h rfl) _

/-- Why a token is refused that is not the name of anything. -/
private def lookupFault (unknown expected : SyntaxFault) : Option TokenKind → SyntaxFault
  | some (.name _) => unknown
  | _ => expected

theorem predictive_lookedUp {lookup : String → Option α} {unknown expected : SyntaxFault}
    (first : String) (hname : isName first = true) (hfirst : (lookup first).isSome) :
    Predictive (.taking (· = .name first) fun _ => False)
      (fun _ => lookedUp lookup unknown expected) room := by
  refine .dispatch (fun t => ∃ text x, t = .name text ∧ lookup text = some x)
    (f := lookupFault unknown expected) ?_ ?_
    ⟨.name first, ⟨first, _, rfl, Option.eq_some_of_isSome hfirst⟩, hname, rfl⟩
  · rintro _ ⟨text, x, rfl, hx⟩
    exact (Predictive.pure x).behind (fun _ ts => lookedUp_eq_ok.mpr ⟨text, rfl, hx⟩) (by simp)
  · intro _ ts hts
    rcases ts with _ | ⟨_ | text | _ | _ | _, ts⟩
    case cons.name =>
      have hnone : lookup text = none :=
        Option.eq_none_iff_forall_ne_some.mpr fun x hx => hts _ rfl ⟨text, x, rfl, hx⟩
      simp only [lookedUp, hnone]
      rfl
    all_goals rfl

/-- A parser that takes the next token if `g` gives something for it, and nothing otherwise. -/
private theorem Predictive.test {p : Nat → Parser α} {g : TokenKind → Option α} (default : α)
    (hp : ∀ room ts, p room ts = match ts.head?.bind g with
      | some x => .ok (x, ts.tail)
      | none => .ok (default, ts)) :
    Predictive (.optional (fun _ => False) fun t => (g t).isSome) p room := by
  refine .intro fun room ts => ⟨fun {rest x} hx => ?_, fun {ahead f} hx => ?_, fun {ahead} hx => ?_⟩
  · rw [hp] at hx
    cases hg : ts.head?.bind g with
    | some y =>
      obtain ⟨t, ht, hgt⟩ := Option.bind_eq_some_iff.mp hg
      obtain ⟨tail, rfl⟩ := List.head?_eq_some_iff.mp ht
      rw [hg] at hx
      cases hx
      refine ⟨[t], rfl, by simp [Profile.optional], fun room' rest' _ _ => ?_⟩
      simp [hp, hgt]
    | none =>
      rw [hg] at hx
      cases hx
      refine ⟨[], rfl, by simp [Profile.optional], fun room' rest' _ ha => ?_⟩
      have hrest : rest'.head?.bind g = none := by
        rcases ha with ha | ha
        · rw [ha, hg]
        · cases hr : rest'.head? with
          | none => rfl
          | some t => simpa [Profile.optional] using ha t hr
      rw [List.nil_append, hp, hrest]
  all_goals
    rw [hp] at hx
    split at hx <;> cases hx

theorem predictive_eat (k : TokenKind) :
    Predictive (.optional (fun _ => False) (· = k)) (fun _ => eat k) room := by
  refine (Predictive.test false (g := fun t => if t = k then some true else none)
    fun _ ts => ?_).mono ⟨id, id, fun _ => id, fun t ht => ?_⟩
  · rw [eat_run]
    cases ts with
    | nil => rfl
    | cons t ts => by_cases h : t = k <;> simp [h]
  · by_cases h : t = k
    · exact h
    · simp [Profile.optional, h] at ht

private def nameText? : TokenKind → Option String
  | .name text => some text
  | _ => none

private def stringValue? : TokenKind → Option String
  | .string value => some value
  | _ => none

theorem predictive_name? :
    Predictive (.optional (fun _ => False) fun t => ∃ text, t = .name text) (fun _ => name?)
      room := by
  refine (Predictive.test none (g := fun t => (nameText? t).map some) fun _ ts => ?_).mono
    ⟨id, id, fun _ => id, fun t ht => ?_⟩
  · unfold name?
    rw [peek_bind_run]
    rcases ts with _ | ⟨_ | _ | _ | _ | _, ts⟩ <;> rfl
  · cases t with
    | name text => exact ⟨text, rfl⟩
    | _ => cases ht

theorem predictive_string? :
    Predictive (.optional (fun _ => False) fun t => ∃ value, t = .string value) (fun _ => string?)
      room := by
  refine (Predictive.test none (g := fun t => (stringValue? t).map some) fun _ ts => ?_).mono
    ⟨id, id, fun _ => id, fun t ht => ?_⟩
  · unfold string?
    rw [peek_bind_run]
    rcases ts with _ | ⟨_ | _ | _ | _ | _, ts⟩ <;> rfl
  · cases t with
    | string value => exact ⟨value, rfl⟩
    | _ => cases ht

/-! ## Lists -/

variable {ι : Profile} {item : Nat → Parser α}

/-- Items, each behind a separator. -/
theorem Predictive.each {separator : Punctuator} (ht : ∀ room, Takes 0 (item room))
    (h : Predictive ι item room) :
    Predictive (.optional (fun _ => False) fun t => ι.goesOn t ∨ t = punct separator)
      (fun room => each separator (item room)) room := by
  have hsat : Satisfiable (.optional (fun _ => False) fun t => ι.goesOn t ∨ t = punct separator)
      (fun room => Parser.each separator (item room)) := by
    refine ⟨[], [], readable_nil, fun _ => rfl, by simp, fun room rest _ ha => ?_⟩
    exact (each_run (ht room) rest).trans (if_neg (ha.of_head_ne (.inr rfl)))
  refine ⟨hsat, fun ts => ?_⟩
  -- Each item is read behind a separator, so the rest of the list is shorter.
  induction hn : ts.length using Nat.strongRecOn generalizing ts with
  | ind n ih =>
    refine (PredictiveAt.choose (k := punct separator) (π := ι.seq _) (σ := .empty)
      (fun tail htail => (h.all tail).bind (fun x mid hx => (ih mid.length ?_ mid rfl).map (x :: ·))
        (fun x => hsat.map (x :: ·)) fun _ => False.elim)
      (fun _ => (Predictive.pure []).all ts) (fun _ => False.elim)
      fun room ts => each_run (ht room) ts).mono ⟨id, id, fun _ => id, fun t hg => ?_⟩
    · have := ht room _ _ _ hx
      rw [← hn, htail, List.length_cons]
      omega
    · rcases hg with (hg | ⟨-, hg⟩) | hg | ⟨-, hg⟩
      · exact hg
      · exact .inl hg
      · exact hg.elim
      · exact .inr hg

/-- A parser that is another one for all texts that begin with `t`. -/
private theorem PredictiveAt.of_head {π σ : Profile} {p q : Nat → Parser α} {t : TokenKind}
    {ts : List TokenKind} (h : PredictiveAt π q room (t :: ts))
    (hp : ∀ room ts, p room (t :: ts) = q room (t :: ts)) (hc : π.consumes = true)
    (hi : π.inside = true → σ.inside = true) (hg : ∀ t, π.goesOn t → σ.goesOn t)
    (hs : Completes σ p []) : PredictiveAt σ p room (t :: ts) := by
  have hle : ∀ pre, π.levels pre ≤ σ.levels pre := fun pre =>
    Profile.Refines.levels_le (π := π) (σ := ⟨π.consumes, σ.inside, π.starts, π.goesOn⟩)
      ⟨id, hi, fun _ => id, fun _ => id⟩ pre
  constructor
  · intro rest x hx
    rw [hp] at hx
    obtain ⟨pre, hpre, hne, hr⟩ := h.ok hx
    obtain ⟨u, pre, rfl⟩ := List.exists_cons_of_ne_nil (hne hc)
    obtain ⟨rfl, rfl⟩ := List.cons_eq_cons.mp hpre
    refine ⟨t :: pre, rfl, by simp, fun room' rest' hl ha => ?_⟩
    rw [List.cons_append, hp]
    exact hr room' rest' (hl.imp_right (Nat.le_trans (hle _))) (ha.imp_right fun ha => ha.mono hg)
  · intro ahead f hx
    rw [hp] at hx
    obtain ⟨pre, hpre, ⟨post, x, hpost, -, hr⟩, hf⟩ := h.fault hx
    -- Where nothing was taken, a completion for `q` need not begin with `t`, so `hs` gives one.
    cases pre with
    | nil =>
      refine ⟨[], hpre, hs, fun room' ahead' hl ha => ?_⟩
      obtain ⟨us, rfl⟩ := List.head?_eq_some_iff.mp (ha.trans (congrArg List.head? hpre.symm))
      rw [List.nil_append, hp]
      exact hf room' _ (hl.imp_right (Nat.le_trans (hle _))) ha
    | cons u pre =>
      obtain ⟨rfl, rfl⟩ := List.cons_eq_cons.mp hpre
      refine ⟨t :: pre, rfl, ⟨post, x, hpost, by simp, fun room' rest' hl ha => ?_⟩,
        fun room' ahead' hl ha => ?_⟩
      · rw [List.cons_append, List.cons_append, hp]
        exact hr room' rest' (Nat.le_trans (hle _) hl) (ha.mono hg)
      · rw [List.cons_append, hp]
        exact hf room' ahead' (hl.imp_right (Nat.le_trans (hle _))) ha
  · intro ahead hx
    rw [hp] at hx
    obtain ⟨pre, hpre, hl, hf⟩ := h.tooDeep hx
    refine ⟨pre, hpre, Nat.lt_of_lt_of_le hl (hle _), fun ahead' ha => ?_⟩
    have hhead : ∃ us, pre ++ ahead' = t :: us := by
      cases pre with
      | nil => exact List.head?_eq_some_iff.mp (ha.trans (congrArg List.head? hpre.symm))
      | cons u pre => exact ⟨pre ++ ahead', by simp [(List.cons_eq_cons.mp hpre).1]⟩
    obtain ⟨us, hus⟩ := hhead
    rw [hus, hp, ← hus]
    exact hf ahead' ha

/-- An empty list between delimiters. -/
private theorem completes_delimited (close : Punctuator) (ht : ∀ room, Takes 1 (item room)) :
    Completes (.taking (· = punct close) fun _ => False)
      (fun room => delimited close (item room)) [] := by
  refine ⟨[punct close], [], by simp [TokenKind.isReadable], fun _ => ⟨_, _, rfl, rfl⟩,
    fun room rest _ _ => ?_⟩
  exact (delimited_run (ht room) _).trans (if_pos rfl)

theorem satisfiable_delimited {close : Punctuator} (ht : ∀ room, Takes 1 (item room)) :
    Satisfiable (.taking (· = punct close) fun _ => False)
      (fun room => delimited close (item room)) :=
  (completes_delimited close ht).satisfiable

/-- Items up to a closing delimiter, with which no item begins or goes on. -/
theorem Predictive.delimited {close : Punctuator} (ht : ∀ room, Takes 1 (item room))
    (hi : ι.inside = false) (hg : ¬ ι.goesOn (punct close))
    (h : Predictive ι item room) :
    Predictive (.taking (· = punct close) fun _ => False)
      (fun room => delimited close (item room)) room := by
  have hempty := completes_delimited close ht
  refine ⟨hempty.satisfiable, fun ts => ?_⟩
  induction hn : ts.length using Nat.strongRecOn generalizing ts with
  | ind n ih =>
    -- At the end the delimiter is missing, in front of it the list is over. Else an item begins.
    rcases ts with _ | ⟨t, ts⟩
    · refine .of_fault (f := .unclosed close) hempty fun room ts hts => ?_
      rw [List.head?_eq_none_iff.mp hts, delimited_run (ht room), if_neg (by simp), if_pos rfl]
    · by_cases hk : t = punct close
      · subst hk
        refine ((Predictive.pure []).all ts).behind (fun room ts => ?_) fun _ => id
        rw [delimited_run (ht room), if_pos (by rfl)]
        rfl
      · have hrun : ∀ room ts, Parser.delimited close (item room) (t :: ts) =
            (item room >>= fun x => (x :: ·) <$> Parser.delimited close (item room)) (t :: ts) := by
          intro room ts
          rw [delimited_run (ht room), if_neg (by simpa using hk), if_neg (by simp)]
        refine PredictiveAt.of_head (((h.all (t :: ts)).bind (fun x mid hx => (ih mid.length ?_ mid
          rfl).map (x :: ·)) (fun x => hempty.satisfiable.map (x :: ·)) ?_)) hrun ?_ ?_ ?_ hempty
        · have := ht room _ _ _ hx
          omega
        · rintro u rfl
          exact hg
        · simp [Profile.seq, Profile.taking]
        · simp [Profile.seq, Profile.taking, hi]
        · simp [Profile.seq, Profile.taking]

/-- A list of one item. -/
private theorem completes_delimitedNonempty (list : NonemptyList) {close : Punctuator}
    (ht : ∀ room, Takes 1 (item room)) (hi : ι.inside = false)
    (hs : ∀ t, ι.starts t → t ≠ punct close) (hg : ¬ ι.goesOn (punct close))
    (h : Satisfiable ι item) :
    Completes (.taking ι.starts fun _ => False)
      (fun room => delimitedNonempty list close (item room)) [] := by
  obtain ⟨ts, x, hts, hc, hst, hx⟩ := h
  have hclose : ∀ rest, Avoids ι.goesOn (punct close :: rest) := fun rest => by simpa using hg
  have hread := hx (ι.levels ts) [punct close] (Nat.le_refl _) (hclose [])
  have hlt := ht _ _ _ _ hread
  obtain ⟨t, ts, rfl⟩ : ∃ t us, ts = t :: us :=
    List.exists_cons_of_ne_nil fun h => by simp [h] at hlt
  refine ⟨t :: ts ++ [punct close], [x], readable_append.mpr ⟨hts, by simp [TokenKind.isReadable]⟩,
    fun _ => ⟨t, ts ++ [punct close], rfl, hst t rfl⟩, fun room rest hl ha => ?_⟩
  have hne : t ≠ punct close := hs t (hst t rfl)
  have hlevels : ι.levels (t :: ts) ≤ room := by
    refine Nat.le_trans ?_ hl
    simp [Profile.levels, Profile.taking, hi]
  refine (delimitedNonempty_run ..).trans ((if_neg (by simpa using hne)).trans ?_)
  rw [delimited_run (ht room), if_neg (by simpa using hne), if_neg (by simp), List.nil_append,
    List.append_assoc]
  refine (bind_of_ok (hx room _ hlevels (hclose rest)) _).trans (map_eq_ok.mpr ⟨[], ?_, rfl⟩)
  exact (delimited_run (ht room) _).trans (if_pos rfl)

theorem satisfiable_delimitedNonempty {list : NonemptyList} {close : Punctuator}
    (ht : ∀ room, Takes 1 (item room)) (hi : ι.inside = false)
    (hs : ∀ t, ι.starts t → t ≠ punct close) (hg : ¬ ι.goesOn (punct close))
    (h : Satisfiable ι item) :
    Satisfiable (.taking ι.starts fun _ => False)
      (fun room => delimitedNonempty list close (item room)) :=
  (completes_delimitedNonempty list ht hi hs hg h).satisfiable

/-- One item or more up to a closing delimiter, with which no item begins or goes on. -/
theorem Predictive.delimitedNonempty (h : Predictive ι item room) (list : NonemptyList)
    {close : Punctuator} (ht : ∀ room, Takes 1 (item room)) (hi : ι.inside = false)
    (hs : ∀ t, ι.starts t → t ≠ punct close) (hg : ¬ ι.goesOn (punct close)) :
    Predictive (.taking ι.starts fun _ => False)
      (fun room => delimitedNonempty list close (item room)) room := by
  have hitems := Predictive.delimited ht hi hg h
  have hone := completes_delimitedNonempty list ht hi hs hg h.satisfiable
  refine ⟨hone.satisfiable, fun ts => ?_⟩
  rcases ts with _ | ⟨t, ts⟩
  · refine .of_fault (f := .unclosed close) hone fun room ts hts => ?_
    rw [List.head?_eq_none_iff.mp hts, delimitedNonempty_run, if_neg (by simp),
      delimited_run (ht room), if_neg (by simp), if_pos rfl]
  · by_cases hk : t = punct close
    · subst hk
      exact .of_fault hone fun room ts hts => (delimitedNonempty_run ..).trans (if_pos hts)
    · refine PredictiveAt.of_head (hitems.all (t :: ts)) (fun room ts => ?_) rfl id (fun _ => id)
        hone
      exact (delimitedNonempty_run ..).trans (if_neg (by simpa using hk))

/-- A list between delimiters that may be left out. -/
theorem Predictive.optionalList (h : Predictive ι item room) (list : NonemptyList)
    (opening close : Punctuator) (ht : ∀ room, Takes 1 (item room)) (hi : ι.inside = false)
    (hs : ∀ t, ι.starts t → t ≠ punct close) (hg : ¬ ι.goesOn (punct close)) :
    Predictive (.optional (fun _ => False) (· = punct opening))
      (fun room => optionalList list opening close (item room)) room := by
  refine (Predictive.choose (h.delimitedNonempty list ht hi hs hg) (.pure [])
    (fun _ => False.elim) fun room ts => eat_bind_run (punct opening) _ ts).mono
    ⟨id, id, fun _ => id, fun t ht => ?_⟩
  rcases ht with ht | ht | ⟨-, ht⟩
  · exact ht.elim
  · exact ht.elim
  · exact ht

/-- Items with a separator between each two. -/
theorem Predictive.separated (h : Predictive ι item room) (separator : Punctuator)
    (ht : ∀ room, Takes 0 (item room)) (hs : ∀ t, ι.starts t → t ≠ punct separator)
    (hc : ι.consumes = true) :
    Predictive { ι with goesOn := fun t => ι.goesOn t ∨ t = punct separator }
      (fun room => separated separator (item room)) room := by
  have hitems := h.bind (q := fun x room => (x :: ·) <$> Parser.each separator (item room))
    (fun x => (h.each ht).map (x :: ·)) fun _ => False.elim
  have hstarts : ∀ t, (ι.seq (.optional (fun _ => False) fun t =>
      ι.goesOn t ∨ t = punct separator)).starts t → t ≠ punct separator := by
    rintro t (ht | ⟨-, ht⟩)
    · exact hs t ht
    · exact ht.elim
  refine (Predictive.choose hitems hitems hstarts fun room ts => separated_run ..).mono
    ⟨fun _ => ?_, fun hi => ?_, fun t ht => ?_, fun t ht => ?_⟩
  · simp [Profile.choice, Profile.seq, hc]
  · simpa [Profile.choice, Profile.seq, hc, Profile.optional] using hi
  · simpa [Profile.choice, Profile.seq, hc] using ht
  · simp only [Profile.choice, Profile.seq, Profile.optional, hc] at ht
    grind

/-- Items up to the end of the text. -/
theorem Predictive.untilEnd {p : Nat → Parser (List α)} (ht : ∀ room, Takes 1 (item room))
    (hc : ι.consumes = true) (hi : ι.inside = false) (hs : ∀ t, ι.starts t → ¬ ι.goesOn t)
    (hp : ∀ room ts, p room ts = if ts = [] then .ok ([], [])
      else (item room >>= fun x => (x :: ·) <$> p room) ts)
    (h : Predictive ι item room) :
    Predictive (.optional ι.starts fun _ => True) p room := by
  have hend : ∀ {ts : List TokenKind}, Avoids (fun _ => True) ts → ts = [] := by
    intro ts ha
    cases ts with
    | nil => rfl
    | cons t ts => simp at ha
  have hnone : Satisfiable (.optional ι.starts fun _ => True) p := by
    refine ⟨[], [], readable_nil, fun _ => rfl, by simp, fun room rest _ ha => ?_⟩
    rw [hend ha, hp]
    rfl
  -- What completes nothing has to begin with a token, so it is one item and not the end.
  have hone : Completes (.optional ι.starts fun _ => True) p [] := by
    obtain ⟨ts, x, hts, -, hst, hx⟩ := h.satisfiable
    have hlt := ht _ _ _ _ (hx (ι.levels ts) [] (Nat.le_refl _) (avoids_nil _))
    obtain ⟨t, ts, rfl⟩ : ∃ t us, ts = t :: us :=
      List.exists_cons_of_ne_nil fun h => by simp [h] at hlt
    refine ⟨t :: ts, [x], hts, fun _ => ⟨t, ts, rfl, hst t rfl⟩, fun room rest hl ha => ?_⟩
    rw [hend ha, List.nil_append, List.append_nil, hp, if_neg (by simp)]
    have hread := hx room [] (Nat.le_trans (by simp [Profile.levels, hi]) hl) (avoids_nil _)
    rw [List.append_nil] at hread
    refine (bind_of_ok hread _).trans (map_eq_ok.mpr ⟨[], ?_, rfl⟩)
    rw [hp]
    rfl
  refine ⟨hnone, fun ts => ?_⟩
  induction hn : ts.length using Nat.strongRecOn generalizing ts with
  | ind n ih =>
    rcases ts with _ | ⟨t, ts⟩
    · have hnil : ∀ room, p room [] = .ok ([], []) := fun room => by
        rw [hp]
        rfl
      refine ⟨fun {rest x} hx => ?_, fun {ahead f} hx => ?_, fun {ahead} hx => ?_⟩
      all_goals
        rw [hnil] at hx
        cases hx
      refine ⟨[], rfl, by simp, fun room' rest' _ ha => ?_⟩
      obtain rfl : rest' = [] := ha.elim (fun ha => by simpa using ha) hend
      exact hnil room'
    · refine PredictiveAt.of_head ((h.all (t :: ts)).bind (fun x mid hx => (ih mid.length ?_ mid
        rfl).map (x :: ·)) (fun x => hnone.map (x :: ·)) hs) (fun room ts => ?_) ?_ ?_ ?_ hone
      · have := ht room _ _ _ hx
        omega
      · rw [hp, if_neg (by simp)]
      · simp [hc]
      · simp [hi]
      · simp

/-! ## Checks -/

/-- A parser that gives what another one reads only if it passes a check. What does not pass was
read from no tokens. -/
theorem Predictive.checked {π : Profile} {p : Nat → Parser β} {q : Nat → Parser α} {f : α → β}
    (hq : Predictive π q room) (check : α → Option SyntaxFault) (first : TokenKind)
    (hempty : ∀ room ts x rest, q room ts = .ok (x, rest) → (check x).isSome → rest = ts)
    (hfirst : first.isReadable = true) (hs : Completes π q [first])
    (hp : ∀ room, p room = q room >>= fun x =>
      match check x with
      | some g => fail g
      | none => Pure.pure (f x)) :
    Predictive { π with consumes := false, starts := fun t => π.starts t ∨ t = first } p room := by
  have hok : ∀ {room ts y rest}, p room ts = .ok (y, rest) ↔
      ∃ x, q room ts = .ok (x, rest) ∧ check x = none ∧ f x = y := by
    intro room ts y rest
    rw [hp]
    exact checked_eq_ok
  have herror : ∀ {room ts e}, p room ts = .error e ↔ q room ts = .error e ∨
      ∃ x g rest, q room ts = .ok (x, rest) ∧ check x = some g ∧ e = ⟨.fault g, rest⟩ := by
    intro room ts e
    rw [hp]
    exact checked_eq_error
  -- What was read from some token passes.
  have hreads : ∀ {ts x}, Reads π q ts x → ts ≠ [] →
      Reads { π with consumes := false, starts := fun t => π.starts t ∨ t = first } p ts (f x) := by
    intro ts x hx hts room rest hl ha
    have hread := hx room rest hl ha
    refine hok.mpr ⟨x, hread, ?_, rfl⟩
    cases hcheck : check x with
    | none => rfl
    | some g => exact absurd (hempty _ _ _ _ hread (by simp [hcheck])) (by simpa using hts)
  have hc : Completes { π with consumes := false, starts := fun t => π.starts t ∨ t = first } p
      [] := by
    obtain ⟨post, x, hpost, -, hx⟩ := hs
    exact ⟨first :: post, f x, readable_cons.mpr ⟨hfirst, hpost⟩,
      fun _ => ⟨first, post, rfl, .inr rfl⟩, hreads hx (by simp)⟩
  refine ⟨hc.satisfiable, fun ts => ⟨fun {rest y} hy => ?_, fun {ahead g} hy => ?_,
    fun {ahead} hy => ?_⟩⟩
  · obtain ⟨x, hx, hcheck, rfl⟩ := hok.mp hy
    obtain ⟨pre, hpre, -, hr⟩ := (hq.all ts).ok hx
    exact ⟨pre, hpre, by simp, fun room' rest' hl ha =>
      hok.mpr ⟨x, hr room' rest' hl ha, hcheck, rfl⟩⟩
  -- Either the parser itself stops, or the check fails, and then nothing was taken.
  · rcases herror.mp hy with hx | ⟨x, g', mid, hx, hcheck, he⟩
    · obtain ⟨pre, hpre, ⟨post, x, hpost, hst, hr⟩, hf⟩ := (hq.all ts).fault hx
      refine ⟨pre, hpre,
        ⟨post, f x, hpost, fun hnil => ?_, hreads hr (append_completion_ne_nil hst)⟩,
        fun room' ahead' hl ha => herror.mpr (.inl (hf room' ahead' hl ha))⟩
      obtain ⟨t, us, rfl, ht⟩ := hst hnil
      exact ⟨t, us, rfl, .inl ht⟩
    · cases he
      obtain ⟨pre, hpre, -, hr⟩ := (hq.all ts).ok hx
      obtain rfl := hempty room ts x _ hx (by simp [hcheck])
      obtain rfl : pre = [] := by simpa using hpre
      exact ⟨[], rfl, hc, fun room' ahead' hl ha =>
        herror.mpr (.inr ⟨x, g, ahead', hr room' ahead' hl (.inl ha), hcheck, rfl⟩)⟩
  · rcases herror.mp hy with hx | ⟨x, g, mid, -, -, he⟩
    · obtain ⟨pre, hpre, hl, hf⟩ := (hq.all ts).tooDeep hx
      exact ⟨pre, hpre, hl, fun ahead' ha => herror.mpr (.inl (hf ahead' ha))⟩
    · cases he

end Parser

end GraphQLSyntax
