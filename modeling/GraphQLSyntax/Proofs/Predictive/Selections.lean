import GraphQLSyntax.Proofs.Predictive.Values

/-!
# Predictive parsers of selections

Selections nest: `Selection.predictive_parseSet` is by induction on the room, and each step takes
the contract of the selections one level further inside to that of one selection
(`Selection.predictive_parseOne`).
-/

namespace GraphQLSyntax

open GraphQLSyntax.Parser

variable {room : Nat} {set : Nat → Parser (List Selection)}

namespace Selection

/-- What can follow a selection and belong to it. -/
private def GoesOn (t : TokenKind) : Prop :=
  t = punct .colon ∨ t = punct .parenOpen ∨ t = punct .atSign ∨ t = punct .braceOpen

theorem predictive_parseSpread
    (h : Predictive (.taking (· = punct .braceOpen) fun _ => False) set room) :
    Predictive (.taking (· = .name "a") GoesOn) (fun room => parseSpread room (set room)) room := by
  refine .dispatch (fun t => ∃ text, t = .name text)
    (f := fun _ => .expectedSpreadTarget) ?_ ?_ ⟨.name "a", ⟨"a", rfl⟩, by decide, rfl⟩
  · rintro t ⟨text, rfl⟩
    by_cases hon : text = "on"
    · subst hon
      have hinline := predictive_name.bind (fun condition =>
        (Directive.predictive_parseAll (m := .dynamic) room).bind (fun directives =>
        h.map (inline condition directives)) (by simp)) (by simp)
      simp only [map_eq_bind] at hinline
      exact hinline.behind (fun room ts => parseSpread_on room (set room) ts) (by simp)
    · exact ((Directive.predictive_parseAll room).map (spread text)).behind
        (fun room ts => parseSpread_name room (set room) hon ts) (by simp [GoesOn])
  · intro room ts hts
    exact parseSpread_of_not_name (fun text htext => hts _ htext ⟨text, rfl⟩) room (set room)

private theorem predictive_parseAlias (first : String) :
    Predictive (.optional (fun _ => False) (· = punct .colon)) (fun _ => parseAlias first) room :=
  (Predictive.choose (predictive_name.map fun name => (some first, name)) (.pure (none, first))
    (by simp) fun _ ts => parseAlias_run first ts).mono ⟨by simp, by simp, by simp, by simp⟩

private theorem predictive_parseOwn (h : PredictiveBehind (punct .braceOpen) .empty set room) :
    Predictive (.optional (fun _ => False) (· = punct .braceOpen))
      (fun room => parseOwn (set room)) room := by
  obtain ⟨π, q, hset, hg, hq⟩ := h
  refine (Predictive.choose (k := punct .braceOpen) hq (.pure []) (by simp)
    fun room ts => ?_).mono ⟨by simp, by simp, by simp, fun t ht => ?_⟩
  · refine (parseOwn_run (set room) ts).trans ?_
    split
    · next hk =>
      obtain ⟨tail, rfl⟩ := List.head?_eq_some_iff.mp hk
      exact hset room tail
    · rfl
  · rcases ht with ht | ht | ht
    · exact (hg t ht).elim
    · exact ht.elim
    · exact ht.2

/-- A name is a field. -/
private theorem satisfiable_parseField :
    Satisfiable (.taking (· = .name "a") GoesOn) (fun room => parseField room (set room)) := by
  refine ⟨[.name "a"], field none "a" [] [] [], by simp; decide, by simp, by simp,
    fun room rest _ ha => ?_⟩
  have hcolon : rest.head? ≠ some (punct .colon) := ha.of_head_ne (by simp [GoesOn])
  have hparen : rest.head? ≠ some (punct .parenOpen) := ha.of_head_ne (by simp [GoesOn])
  have hat : rest.head? ≠ some (punct .atSign) := ha.of_head_ne (by simp [GoesOn])
  have hbrace : rest.head? ≠ some (punct .braceOpen) := ha.of_head_ne (by simp [GoesOn])
  have hname : name (.name "a" :: rest) = .ok ("a", rest) := name_eq_ok.mpr rfl
  have halias : parseAlias "a" rest = .ok ((none, "a"), rest) := by
    rw [parseAlias_run, if_neg hcolon]
  have harguments : Argument.parseAll .dynamic room rest = .ok ([], rest) :=
    (optionalList_run _ _ _ _ rest).trans (if_neg hparen)
  have htakes : Takes 0 (Directive.parse .dynamic room) :=
    (Directive.takes_parse room).mono (Nat.zero_le 1)
  have hdirectives : Directive.parseAll .dynamic room rest = .ok ([], rest) :=
    (each_run htakes rest).trans (if_neg hat)
  have hown : parseOwn (set room) rest = .ok ([], rest) := by
    rw [parseOwn_run, if_neg hbrace]
  show parseField room (set room) (.name "a" :: rest) = _
  rw [parseField_eq, bind_of_ok hname, bind_of_ok halias, bind_of_ok harguments,
    bind_of_ok hdirectives, bind_of_ok hown]
  rfl

theorem predictive_parseField (h : PredictiveBehind (punct .braceOpen) .empty set room) :
    Predictive (.taking (· = .name "a") GoesOn) (fun room => parseField room (set room)) room := by
  have hfield := predictive_name.bind (fun first => (predictive_parseAlias first).bind
    (fun names => (Argument.predictive_parseAll (m := .dynamic) room).bind (fun arguments =>
    (Directive.predictive_parseAll (m := .dynamic) room).bind (fun directives =>
    (predictive_parseOwn h).bind (fun selections =>
    .pure (field names.1 names.2 arguments directives selections)) (by simp)) (by simp)) (by simp))
    (by simp)) (by simp)
  refine (hfield.congr fun room => parseField_eq room (set room)).mono
    ⟨by simp, by simp, by simp, ?_⟩
  simp [GoesOn]
  grind

theorem predictive_parseOne
    (h : Predictive (.taking (· = punct .braceOpen) fun _ => False) set room)
    (hb : PredictiveBehind (punct .braceOpen) .empty set room) :
    Predictive (.taking (· = .name "a") GoesOn) (fun room => parseOne room (set room)) room :=
  ((predictive_parseSpread h).choose (predictive_parseField hb) (by simp)
    fun room ts => parseOne_run room (set room) ts).mono ⟨by simp, by simp, by simp, by simp⟩

private theorem satisfiable_parseOne :
    Satisfiable (.taking (· = .name "a") GoesOn) (fun room => parseOne room (set room)) := by
  refine (satisfiable_parseField.choose (k := punct .spread) (π := .empty) (by simp)
    fun room ts => parseOne_run room (set room) ts).mono ⟨by simp, by simp, by simp, by simp⟩

/-! ## Progress -/

private theorem takes_arguments (room : Nat) : Takes 0 (Argument.parseAll .dynamic room) :=
  Predictive.takes Argument.predictive_parseAll room

private theorem takes_directives (room : Nat) : Takes 0 (Directive.parseAll .dynamic room) :=
  Predictive.takes Directive.predictive_parseAll room

private theorem takes_parseSpread (room : Nat) {set : Parser (List Selection)} (h : Takes 0 set) :
    Takes 0 (parseSpread room set) := by
  intro ts x rest hx
  by_cases hname : ∃ text, ts.head? = some (.name text)
  · obtain ⟨text, htext⟩ := hname
    obtain ⟨tail, rfl⟩ := List.head?_eq_some_iff.mp htext
    suffices hle : rest.length ≤ tail.length from Nat.le_succ_of_le hle
    by_cases hon : text = "on"
    · subst hon
      refine Takes.mono (m := 0) (n := 1) ?_ (by omega) _ _ _
        ((parseSpread_on room set tail).symm.trans hx)
      exact takes_name.bind (n := 0) fun _ => (takes_directives room).bind (n := 0) fun _ =>
        h.bind fun _ => takes_pure _
    · exact (takes_directives room).map _ _ _ _ ((parseSpread_name room set hon tail).symm.trans hx)
  · rw [parseSpread_of_not_name (by simpa using hname)] at hx
    cases hx

private theorem takes_parseField (room : Nat) {set : Parser (List Selection)} (h : Takes 0 set) :
    Takes 1 (parseField room set) := by
  have hown : Takes 0 (parseOwn set) := by
    intro ts x rest hx
    rw [parseOwn_run] at hx
    split at hx
    · exact h _ _ _ hx
    · cases hx
      exact Nat.le_refl _
  have halias : ∀ first, Takes 0 (parseAlias first) :=
    fun first => Predictive.takes (fun _ => predictive_parseAlias first) 0
  rw [parseField_eq]
  exact takes_name.bind (n := 0) fun first => (halias first).bind (n := 0) fun _ =>
    (takes_arguments room).bind (n := 0) fun _ => (takes_directives room).bind (n := 0) fun _ =>
    hown.bind (n := 0) fun _ => takes_pure _

private theorem takes_parseOne (room : Nat) {set : Parser (List Selection)} (h : Takes 0 set) :
    Takes 1 (parseOne room set) := by
  intro ts x rest hx
  rw [parseOne_run] at hx
  split at hx
  · next hspread =>
    obtain ⟨tail, rfl⟩ := List.head?_eq_some_iff.mp hspread
    exact Nat.succ_le_succ (takes_parseSpread room h _ _ _ hx)
  · exact takes_parseField room h _ _ _ hx

private theorem takes_step (ih : ∀ r, room = r + 1 → Takes 0 (parseSet r)) :
    Takes 0 (parseSet room) := by
  rw [parseSet_eq]
  refine Takes.mono ((takes_expect .braceOpen).bind (n := 0) fun _ => ?_) (by omega)
  exact takes_nested_below (p := fun r => parseOne r (parseSet r)) fun r hr =>
    takes_delimitedNonempty _ _ ((takes_parseOne r (ih r hr)).mono (by omega))

theorem takes_parseSet (room : Nat) : Takes 0 (parseSet room) := by
  induction room with
  | zero => exact takes_step (by simp)
  | succ room ih => exact takes_step fun r hr => by cases hr; exact ih

/-! ## Nesting -/

/-- Selections in braces, behind the opening one. -/
private def parseInner (room : Nat) : Parser (List Selection) :=
  nested (below (fun r => parseOne r (parseSet r)) room) (delimitedNonempty .selections .braceClose)

private theorem predictive_parseInner
    (ih : ∀ r, room = r + 1 →
      Predictive (.taking (· = .name "a") GoesOn) (fun r => parseOne r (parseSet r)) r) :
    Predictive { Profile.taking (· = .name "a") fun _ => False with inside := true } parseInner
      room := by
  have htakes : ∀ room, Takes 1 (parseOne room (parseSet room)) :=
    fun room => takes_parseOne room (takes_parseSet room)
  exact Predictive.nested (p := fun r => parseOne r (parseSet r))
    (f := delimitedNonempty .selections .braceClose) (π := .taking _ fun _ => False) rfl
    (fun r hr => (ih r hr).delimitedNonempty _ htakes rfl (by simp) (by simp [GoesOn]))
    (satisfiable_delimitedNonempty htakes rfl (by simp) (by simp [GoesOn]) satisfiable_parseOne)

private theorem parseSet_braceOpen (room : Nat) (ts : List TokenKind) :
    parseSet room (punct .braceOpen :: ts) = parseInner room ts := by
  rw [parseSet_eq]
  exact bind_of_ok (x := ()) (expect_eq_ok.mpr rfl) _

private theorem predictive_step
    (ih : ∀ r, room = r + 1 →
      Predictive (.taking (· = .name "a") GoesOn) (fun r => parseOne r (parseSet r)) r) :
    Predictive (.taking (· = .name "a") GoesOn) (fun r => parseOne r (parseSet r)) room := by
  have hset := ((predictive_expect .braceOpen).bind (fun _ => predictive_parseInner ih)
    (by simp)).congr parseSet_eq
  exact predictive_parseOne (hset.mono ⟨by simp, by simp, by simp, by simp⟩)
    ((predictive_parseInner ih).behind parseSet_braceOpen (by simp))

theorem predictive (room : Nat) :
    Predictive (.taking (· = .name "a") GoesOn) (fun r => parseOne r (parseSet r)) room := by
  induction room with
  | zero => exact predictive_step (by simp)
  | succ room ih => exact predictive_step fun r hr => by cases hr; exact ih

theorem predictive_parseSet (room : Nat) :
    Predictive (.taking (· = punct .braceOpen) fun _ => False) parseSet room :=
  (((predictive_expect .braceOpen).bind
    (fun _ => predictive_parseInner fun r _ => predictive r) (by simp)).congr parseSet_eq).mono
    ⟨by simp, by simp, by simp, by simp⟩

theorem predictiveBehind_parseSet (room : Nat) :
    PredictiveBehind (punct .braceOpen) .empty parseSet room :=
  (predictive_parseInner fun r _ => predictive r).behind parseSet_braceOpen (by simp)

end Selection

end GraphQLSyntax
