import GraphQLSyntax.Proofs.Document.Lazy
import GraphQLSyntax.Proofs.Document.RoundTrip

/-!
# The limit of depth

Reading enters a level at each opening delimiter of a selection set, a list or an object, and leaves
it at the closing one. A limit is a threshold on the levels that reading without a limit enters.

* `Document.depth_limit_exact`: a limit changes nothing unless a deeper level is entered, and then
  the first of these is refused.
-/

namespace GraphQLSyntax

namespace Document

/-- The depth of the deepest level that is entered. -/
def depthEntered (source : String) : Nat :=
  listDepth Level.depth (levels source)

/-- No object of the source has a key twice. -/
def ObjectKeysDistinct (source : String) : Prop :=
  ∀ keys, .object keys ∈ notes source → keys.Nodup

variable {source : String}

/-- No level is too deep if the deepest is not. -/
theorem find_levels_eq_none {limit : Nat} :
    (levels source).find? (limit < ·.depth) = none ↔ depthEntered source ≤ limit := by
  unfold depthEntered
  rw [List.find?_eq_none, listDepth_le]
  simp

/-- Whatever the limit, reading ends as without one or at the first level that is too deep. -/
theorem parseWithin_some (limit : Nat) (source : String) :
    parseWithin ⟨some limit, none⟩ source =
      match (levels source).find? (limit < ·.depth) with
      | none => parseWithin ⟨none, none⟩ source
      | some l => .error (.tooDeep l.inside.current) := by
  rw [← parseLazily_eq, ← parseLazily_eq]
  unfold parseLazily levels trace
  cases Reader.next (Scanner.ofSource source) with
  | error e => rfl
  | ok r =>
    dsimp only
    rw [(reading source).run_some r (Nat.zero_le limit)]
    unfold Steps.levels
    cases ((reading source).trace Reader.feed r 0).filterMap Event.level? |>.find? _ <;> rfl

/-- A level is entered in front of the token right behind its opening delimiter, and it is the
deepest by one. -/
theorem of_find_levels {limit : Nat} {l : Level Reader}
    (h : (levels source).find? (limit < ·.depth) = some l) :
    l.depth = limit + 1 ∧ (∃ b : Bracket, l.opening.current.kind = some (punct b.opening)) ∧
      Reader.next l.opening.scanner = .ok l.inside := by
  unfold levels trace at h
  cases hnext : Reader.next (Scanner.ofSource source) with
  | error e => simp [hnext] at h
  | ok r =>
    simp only [hnext] at h
    exact ⟨Steps.depth_of_find_levels (Nat.zero_le limit) h,
      Steps.behind_of_mem_levels (List.mem_of_find?_eq_some h)⟩

/-- If no object has a key twice, all that was entered is in the document. -/
theorem depthEntered_eq {d : Document} (h : parseWithin ⟨none, none⟩ source = .ok d)
    (hkeys : ObjectKeysDistinct source) : depthEntered source = d.depth := by
  apply Nat.le_antisymm
  · obtain ⟨ws, hrow, haccounts⟩ := accounts_of_parseWithin h
    have hdepth : ∀ {ds ws}, Stepwise.Row (fun d w => ∃ optional, w = Definition.written optional d)
        (fun d next => d.lacksBlock = true → next ≠ some (punct .braceOpen)) ds ws →
        listDepth Written.depth ws = listDepth Definition.depth ds := by
      intro ds ws hrow
      induction hrow with
      | nil => rfl
      | cons written _ _ ih =>
        obtain ⟨optional, rfl⟩ := written
        rw [listDepth_cons, listDepth_cons, ih]
        rfl
    refine listDepth_le.mpr fun l hl => ?_
    have hle := haccounts.depth_le (fun keys hk => hkeys keys (mem_notes.mpr hk)) l
      (mem_levels.mp hl)
    rwa [Nat.zero_add, Written.depth_concat, hdepth hrow] at hle
  · have hlimit : parseWithin ⟨some (depthEntered source), none⟩ source = .ok d := by
      rw [parseWithin_some, find_levels_eq_none.mpr (Nat.le_refl _)]
      exact h
    exact (wellFormed_of_parseWithin hlimit).2 _ rfl

/-- **The limit of depth is a threshold that changes nothing else.** If no level is entered that is
deeper, reading gives what it gives without a limit. Otherwise it ends at the token right behind the
first opening delimiter that would exceed the limit. What is entered for a document that is read is
its depth, if no object has a key twice. -/
theorem depth_limit_exact (source : String) (limit : Nat) :
    (depthEntered source ≤ limit →
      parseWithin ⟨some limit, none⟩ source = parseWithin ⟨none, none⟩ source) ∧
    (limit < depthEntered source → ∃ l, (levels source).find? (limit < ·.depth) = some l ∧
      l.depth = limit + 1 ∧ (∃ b : Bracket, l.opening.current.kind = some (punct b.opening)) ∧
      Reader.next l.opening.scanner = .ok l.inside ∧
      parseWithin ⟨some limit, none⟩ source = .error (.tooDeep l.inside.current)) ∧
    ∀ d, parseWithin ⟨none, none⟩ source = .ok d → ObjectKeysDistinct source →
      depthEntered source = d.depth := by
  refine ⟨fun hle => ?_, fun hlt => ?_, fun d => depthEntered_eq⟩
  · rw [parseWithin_some, find_levels_eq_none.mpr hle]
  · cases hl : (levels source).find? (limit < ·.depth) with
    | none => exact absurd (find_levels_eq_none.mp hl) (Nat.not_le.mpr hlt)
    | some l =>
      obtain ⟨hdepth, hopening, hinside⟩ := of_find_levels hl
      exact ⟨l, rfl, hdepth, hopening, hinside, by rw [parseWithin_some, hl]⟩

theorem depth_limit_of_object :
    depthEntered "\x7ba(b: \x7bc: [1]\x7d) \x7bd\x7d\x7d" = 3 ∧
      (∃ d, parseWithin ⟨some 3, none⟩ "\x7ba(b: \x7bc: [1]\x7d) \x7bd\x7d\x7d" = .ok d ∧
        depthEntered "\x7ba(b: \x7bc: [1]\x7d) \x7bd\x7d\x7d" = d.depth) ∧
      ∃ l : Level Reader, l.depth = 3 ∧
        parseWithin ⟨some 2, none⟩ "\x7ba(b: \x7bc: [1]\x7d) \x7bd\x7d\x7d" =
          .error (.tooDeep l.inside.current) := by
  have hdepth : depthEntered "\x7ba(b: \x7bc: [1]\x7d) \x7bd\x7d\x7d" = 3 := rfl
  have hnotes : notes "\x7ba(b: \x7bc: [1]\x7d) \x7bd\x7d\x7d" = [.object ["c"]] := rfl
  have hkeys : ObjectKeysDistinct "\x7ba(b: \x7bc: [1]\x7d) \x7bd\x7d\x7d" := by
    intro keys hkeys
    rw [hnotes] at hkeys
    obtain rfl : keys = ["c"] := by simpa using hkeys
    decide
  obtain ⟨d, hread⟩ :
      ∃ d, parseWithin ⟨none, none⟩ "\x7ba(b: \x7bc: [1]\x7d) \x7bd\x7d\x7d" = .ok d := ⟨_, rfl⟩
  obtain ⟨hsame, -, hdocument⟩ := depth_limit_exact "\x7ba(b: \x7bc: [1]\x7d) \x7bd\x7d\x7d" 3
  obtain ⟨-, hdeep, -⟩ := depth_limit_exact "\x7ba(b: \x7bc: [1]\x7d) \x7bd\x7d\x7d" 2
  obtain ⟨l, -, hl, -, -, herror⟩ := hdeep (by rw [hdepth]; decide)
  exact ⟨hdepth, ⟨d, (hsame (Nat.le_of_eq hdepth)).trans hread, hdocument d hread hkeys⟩, l, hl,
    herror⟩

end Document

end GraphQLSyntax
