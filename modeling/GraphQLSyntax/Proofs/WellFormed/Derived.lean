import GraphQLSyntax.Proofs.WellFormed.Basic

/-!
# What is derived is well formed

Whatever a sequence of readable tokens derives is well formed, and no deeper than the derivation.
`Yields` states this of a production at one depth, so that the nesting productions can be taken by
induction on the depth.

* `Definition.yields_allDerive`: definitions up to the end.
-/

namespace GraphQLSyntax

namespace Production

variable {α : Type} {depth : Nat} {D : Production α} {P : α → Prop}

/-- What readable tokens derive has the property, and the tokens behind it are readable too. -/
def Yields (D : Production α) (depth : Nat) (P : α → Prop) : Prop :=
  ∀ {ts x rest}, D depth ts x rest → Readable ts → P x ∧ Readable rest

theorem yields_name : Yields Name depth (isName · = true) := by
  rintro ts text rest ⟨⟩ h
  exact readable_cons.mp h

theorem yields_optionalName :
    Yields OptionalName depth (fun text => ∀ name, text = some name → isName name = true) := by
  rintro ts text rest (_ | _) h
  · exact ⟨fun name hname => Option.some.inj hname ▸ (readable_cons.mp h).1, (readable_cons.mp h).2⟩
  · exact ⟨by simp, h⟩

theorem yields_description : Yields Description depth fun _ => True := by
  rintro ts text rest (_ | _) h
  · exact ⟨trivial, (readable_cons.mp h).2⟩
  · exact ⟨trivial, h⟩

theorem yields_flag (first : TokenKind) : Yields (Flag first) depth fun _ => True := by
  rintro ts present rest (_ | _) h
  · exact ⟨trivial, (readable_cons.mp h).2⟩
  · exact ⟨trivial, h⟩

theorem yields_behind {first : TokenKind} (hD : Yields D depth P) :
    Yields (Behind first D) depth (fun x => ∀ y, x = some y → P y) := by
  rintro ts x rest (inner | _) h
  · obtain ⟨hx, hrest⟩ := hD inner (readable_cons.mp h).2
    exact ⟨fun y hy => Option.some.inj hy ▸ hx, hrest⟩
  · exact ⟨by simp, h⟩

theorem yields_each {separator : Punctuator} (hD : Yields D depth P) :
    Yields (Each separator D) depth (fun xs => ∀ x ∈ xs, P x) := by
  intro ts xs rest hx h
  induction hx with
  | nil => exact ⟨by simp, h⟩
  | cons first others ih =>
    obtain ⟨hfirst, hmid⟩ := hD first (readable_cons.mp h).2
    obtain ⟨hothers, hrest⟩ := ih hD hmid
    exact ⟨List.forall_mem_cons.mpr ⟨hfirst, hothers⟩, hrest⟩

theorem yields_separated {separator : Punctuator} (hD : Yields D depth P) :
    Yields (Separated separator D) depth (fun xs => (∀ x ∈ xs, P x) ∧ xs ≠ []) := by
  rintro ts xs rest (⟨_, first, others⟩ | ⟨first, others⟩) h
  · obtain ⟨hfirst, hmid⟩ := hD first h
    obtain ⟨hothers, hrest⟩ := yields_each hD others hmid
    exact ⟨⟨List.forall_mem_cons.mpr ⟨hfirst, hothers⟩, by simp⟩, hrest⟩
  · obtain ⟨hfirst, hmid⟩ := hD first (readable_cons.mp h).2
    obtain ⟨hothers, hrest⟩ := yields_each hD others hmid
    exact ⟨⟨List.forall_mem_cons.mpr ⟨hfirst, hothers⟩, by simp⟩, hrest⟩

theorem yields_items {close : Punctuator} (hD : Yields D depth P) :
    Yields (Items close D) depth (fun xs => ∀ x ∈ xs, P x) := by
  intro ts xs rest hx h
  induction hx with
  | nil => exact ⟨by simp, (readable_cons.mp h).2⟩
  | cons next first others ih =>
    obtain ⟨hfirst, hmid⟩ := hD first h
    obtain ⟨hothers, hrest⟩ := ih hD hmid
    exact ⟨List.forall_mem_cons.mpr ⟨hfirst, hothers⟩, hrest⟩

theorem yields_optionalList {opening close : Punctuator} (hD : Yields D depth P) :
    Yields (OptionalList opening close D) depth (fun xs => ∀ x ∈ xs, P x) := by
  rintro ts xs rest (⟨items, _⟩ | _) h
  · exact yields_items hD items (readable_cons.mp h).2
  · exact ⟨by simp, h⟩

end Production

open Production

variable {m : ValueMode} {depth : Nat}

/-- What the grammar promises of a list of parts. -/
private theorem forall_and_le {α : Type} {W : α → Prop} {f : α → Nat} {xs : List α}
    (h : ∀ x ∈ xs, W x ∧ f x ≤ depth) : (∀ x ∈ xs, W x) ∧ listDepth f xs ≤ depth :=
  ⟨fun x hx => (h x hx).1, listDepth_le.mpr fun x hx => (h x hx).2⟩

/-- The same of a list that may be left out. -/
private theorem yields_parts {α : Type} {W : α → Prop} {f : α → Nat} {D : Production (List α)}
    (hD : Yields D depth fun xs => ∀ x ∈ xs, W x ∧ f x ≤ depth) :
    Yields D depth fun xs => (∀ x ∈ xs, W x) ∧ listDepth f xs ≤ depth :=
  fun hx h => ⟨forall_and_le (hD hx h).1, (hD hx h).2⟩

/-! ## Types -/

namespace TypeRef

private theorem yields_step
    (ih : ∀ d, depth = d + 1 → Yields Derives d fun type => type.WellFormed ∧ type.depth ≤ d) :
    Yields Derives depth fun type => type.WellFormed ∧ type.depth ≤ depth := by
  have hnullable : Yields DerivesNullable depth fun type =>
      (type.WellFormed ∧ type.depth ≤ depth) ∧ ∀ inner, type ≠ nonNull inner := by
    rintro ts type rest (_ | inner) h
    · exact ⟨⟨⟨(readable_cons.mp h).1, Nat.zero_le _⟩, by simp⟩, (readable_cons.mp h).2⟩
    · obtain ⟨⟨hwf, hdepth⟩, hrest⟩ := ih _ rfl inner (readable_cons.mp h).2
      exact ⟨⟨⟨hwf, Nat.succ_le_succ hdepth⟩, by simp⟩, (readable_cons.mp hrest).2⟩
  rintro ts type rest (⟨inner, _⟩ | inner) h
  · obtain ⟨⟨htype, -⟩, hrest⟩ := hnullable inner h
    exact ⟨htype, hrest⟩
  · obtain ⟨⟨⟨hwf, hdepth⟩, hnot⟩, hrest⟩ := hnullable inner h
    exact ⟨⟨⟨hwf, hnot⟩, hdepth⟩, (readable_cons.mp hrest).2⟩

theorem yields (depth : Nat) :
    Yields Derives depth fun type => type.WellFormed ∧ type.depth ≤ depth := by
  induction depth with
  | zero => exact yields_step (by simp)
  | succ depth ih => exact yields_step fun d hd => by cases hd; exact ih

end TypeRef

/-! ## Values -/

namespace Value

private theorem yields_step
    (ih : ∀ d, depth = d + 1 →
      Yields (Derives m) d fun value => value.WellFormed ∧ value.depth ≤ d) :
    Yields (Derives m) depth fun value => value.WellFormed ∧ value.depth ≤ depth := by
  intro ts value rest hx h
  cases hx with
  | varRef allowed =>
    simp only [readable_cons] at h
    exact ⟨⟨h.2.1, Nat.zero_le _⟩, h.2.2⟩
  | enum unreserved =>
    exact ⟨⟨⟨(readable_cons.mp h).1, unreserved⟩, Nat.zero_le _⟩, (readable_cons.mp h).2⟩
  | @float _ value =>
    have hnumber : value.isNaN = false := by
      simpa [TokenKind.isReadable] using (readable_cons.mp h).1
    exact ⟨⟨hnumber, Nat.zero_le _⟩, (readable_cons.mp h).2⟩
  | true | false | null | int | string =>
    exact ⟨⟨trivial, Nat.zero_le _⟩, (readable_cons.mp h).2⟩
  | list inner =>
    obtain ⟨hitems, hrest⟩ := yields_items (ih _ rfl) inner (readable_cons.mp h).2
    refine ⟨⟨?_, Nat.succ_le_succ ?_⟩, hrest⟩
    · exact itemsWellFormed_iff.mpr fun x hx => (hitems x hx).1
    · exact itemsDepth_le.mpr fun x hx => (hitems x hx).2
  | @object depth _ _ _ inner =>
    have hentry : Yields (DerivesEntry (Derives m)) depth fun entry =>
        isName entry.1 = true ∧ entry.2.WellFormed ∧ entry.2.depth ≤ depth := by
      rintro ts entry rest ⟨inner⟩ h
      simp only [readable_cons] at h
      obtain ⟨hvalue, hrest⟩ := ih _ rfl inner h.2.2
      exact ⟨⟨h.1, hvalue⟩, hrest⟩
    obtain ⟨hentries, hrest⟩ := yields_items hentry inner (readable_cons.mp h).2
    refine ⟨⟨⟨Entries.nodup_ofPairs _, ?_⟩, Nat.succ_le_succ ?_⟩, hrest⟩
    · exact entriesWellFormed_iff.mpr fun x hx =>
        ⟨(hentries x (Entries.mem_ofPairs hx)).1, (hentries x (Entries.mem_ofPairs hx)).2.1⟩
    · exact entriesDepth_le.mpr fun x hx => (hentries x (Entries.mem_ofPairs hx)).2.2

theorem yields (depth : Nat) :
    Yields (Derives m) depth fun value => value.WellFormed ∧ value.depth ≤ depth := by
  induction depth with
  | zero => exact yields_step (by simp)
  | succ depth ih => exact yields_step fun d hd => by cases hd; exact ih

theorem yields_default (depth : Nat) :
    Yields (Behind (punct .equals) (Derives m)) depth fun default =>
      DefaultWellFormed default ∧ defaultDepth default ≤ depth := by
  intro ts default rest hx h
  obtain ⟨hdefault, hrest⟩ := yields_behind (yields depth) hx h
  refine ⟨⟨fun value hvalue => (hdefault value hvalue).1, ?_⟩, hrest⟩
  cases default with
  | none => exact Nat.zero_le _
  | some value => exact (hdefault value rfl).2

end Value

/-! ## Arguments and directives -/

namespace Argument

theorem yields (depth : Nat) :
    Yields (Derives m) depth fun a => a.WellFormed ∧ a.depth ≤ depth := by
  rintro ts a rest ⟨inner⟩ h
  simp only [readable_cons] at h
  obtain ⟨⟨hwf, hdepth⟩, hrest⟩ := Value.yields depth inner h.2.2
  exact ⟨⟨⟨h.1, hwf⟩, hdepth⟩, hrest⟩

theorem yields_all (depth : Nat) :
    Yields (OptionalList .parenOpen .parenClose (Derives m)) depth fun arguments =>
      (∀ a ∈ arguments, a.WellFormed) ∧ listDepth Argument.depth arguments ≤ depth :=
  yields_parts (yields_optionalList (yields depth))

end Argument

namespace Directive

theorem yields (depth : Nat) :
    Yields (Derives m) depth fun d => d.WellFormed ∧ d.depth ≤ depth := by
  rintro ts d rest ⟨inner⟩ h
  simp only [readable_cons] at h
  obtain ⟨⟨hwf, hdepth⟩, hrest⟩ := Argument.yields_all depth inner h.2
  exact ⟨⟨⟨h.1, hwf⟩, hdepth⟩, hrest⟩

theorem yields_all (depth : Nat) :
    Yields (AllDerive m) depth fun directives =>
      (∀ d ∈ directives, d.WellFormed) ∧ listDepth Directive.depth directives ≤ depth :=
  yields_parts (yields_each (yields depth))

end Directive

/-! ## Selections -/

namespace Selection

private theorem yields_names :
    Yields DerivesNames depth fun names =>
      (∀ first, names.1 = some first → isName first = true) ∧ isName names.2 = true := by
  rintro ts names rest (_ | _) h
  · exact ⟨⟨by simp, (readable_cons.mp h).1⟩, (readable_cons.mp h).2⟩
  · simp only [readable_cons] at h
    exact ⟨⟨fun first hfirst => Option.some.inj hfirst ▸ h.1, h.2.2.1⟩, h.2.2.2⟩

/-- A set is one level deeper than its selections. -/
private theorem yields_set
    (ih : ∀ d, depth = d + 1 → Yields Derives d fun s => s.WellFormed ∧ s.depth ≤ d) :
    Yields (DerivesSet Derives) depth fun selections =>
      selections ≠ [] ∧ AllWellFormed selections ∧ allDepth selections + 1 ≤ depth := by
  rintro ts selections rest ⟨items, nonempty⟩ h
  obtain ⟨hitems, hrest⟩ := yields_items (ih _ rfl) items (readable_cons.mp h).2
  exact ⟨⟨nonempty, allWellFormed_iff.mpr fun s hs => (hitems s hs).1,
    Nat.succ_le_succ (allDepth_le.mpr fun s hs => (hitems s hs).2)⟩, hrest⟩

private theorem yields_step
    (ih : ∀ d, depth = d + 1 → Yields Derives d fun s => s.WellFormed ∧ s.depth ≤ d) :
    Yields Derives depth fun s => s.WellFormed ∧ s.depth ≤ depth := by
  intro ts s rest hx h
  cases hx with
  | field hnames harguments hdirectives hselections =>
    obtain ⟨⟨halias, hname⟩, h⟩ := yields_names hnames h
    obtain ⟨⟨hargs, hargsDepth⟩, h⟩ := Argument.yields_all depth harguments h
    obtain ⟨⟨hdirs, hdirsDepth⟩, h⟩ := Directive.yields_all depth hdirectives h
    cases hselections with
    | present hset =>
      obtain ⟨⟨-, hown, hownDepth⟩, hrest⟩ := yields_set ih hset h
      refine ⟨⟨⟨halias, hname, hargs, hdirs, hown⟩, ?_⟩, hrest⟩
      refine Nat.max_le.mpr ⟨hargsDepth, Nat.max_le.mpr ⟨hdirsDepth, ?_⟩⟩
      split <;> omega
    | absent =>
      exact ⟨⟨⟨halias, hname, hargs, hdirs, trivial⟩,
        Nat.max_le.mpr ⟨hargsDepth, Nat.max_le.mpr ⟨hdirsDepth, Nat.zero_le _⟩⟩⟩, h⟩
  | spread notOn hdirectives =>
    simp only [readable_cons] at h
    obtain ⟨⟨hdirectives, hdepth⟩, hrest⟩ := Directive.yields_all depth hdirectives h.2.2
    exact ⟨⟨⟨h.2.1, notOn, hdirectives⟩, hdepth⟩, hrest⟩
  | inline hdirectives hselections =>
    simp only [readable_cons] at h
    obtain ⟨⟨hdirectives, hdepth⟩, hmid⟩ := Directive.yields_all depth hdirectives h.2.2.2
    obtain ⟨⟨nonempty, hselections, hselectionsDepth⟩, hrest⟩ := yields_set ih hselections hmid
    exact ⟨⟨⟨h.2.2.1, hdirectives, nonempty, hselections⟩,
      Nat.max_le.mpr ⟨hdepth, hselectionsDepth⟩⟩, hrest⟩

theorem yields (depth : Nat) :
    Yields Derives depth fun s => s.WellFormed ∧ s.depth ≤ depth := by
  induction depth with
  | zero => exact yields_step (by simp)
  | succ depth ih => exact yields_step fun d hd => by cases hd; exact ih

theorem yields_derivesSet (depth : Nat) :
    Yields (DerivesSet Derives) depth fun selections =>
      (selections ≠ [] ∧ ∀ s ∈ selections, s.WellFormed) ∧
        listDepth Selection.depth selections + 1 ≤ depth := by
  rintro ts selections rest ⟨items, nonempty⟩ h
  obtain ⟨hitems, hrest⟩ := yields_parts (yields_items (yields _)) items (readable_cons.mp h).2
  exact ⟨⟨⟨nonempty, hitems.1⟩, Nat.succ_le_succ hitems.2⟩, hrest⟩

end Selection

/-! ## Operations and fragments -/

namespace VariableDefinition

theorem yields (depth : Nat) :
    Yields Derives depth fun d => d.WellFormed ∧ d.depth ≤ depth := by
  rintro ts d rest ⟨htype, hdefault, hdirectives⟩ h
  simp only [readable_cons] at h
  obtain ⟨htype, hmid⟩ := TypeRef.yields depth htype h.2.2.2
  obtain ⟨hdefault, hmid⟩ := Value.yields_default depth hdefault hmid
  obtain ⟨hdirectives, hrest⟩ := Directive.yields_all depth hdirectives hmid
  exact ⟨⟨⟨h.2.1, htype.1, hdefault.1, hdirectives.1⟩,
    Nat.max_le.mpr ⟨htype.2, Nat.max_le.mpr ⟨hdefault.2, hdirectives.2⟩⟩⟩, hrest⟩

end VariableDefinition

namespace OperationDefinition

theorem yields (operation : OperationType) (depth : Nat) :
    Yields (Derives operation) depth fun d => d.WellFormed ∧ d.depth ≤ depth := by
  rintro ts d rest ⟨hname, hvariables, hdirectives, hselections⟩ h
  obtain ⟨hname, hmid⟩ := yields_optionalName hname h
  obtain ⟨hvariables, hmid⟩ :=
    yields_parts (yields_optionalList (VariableDefinition.yields depth)) hvariables hmid
  obtain ⟨hdirectives, hmid⟩ := Directive.yields_all depth hdirectives hmid
  obtain ⟨hselections, hrest⟩ := Selection.yields_derivesSet depth hselections hmid
  exact ⟨⟨⟨hname, hvariables.1, hdirectives.1, hselections.1⟩,
    Nat.max_le.mpr ⟨hvariables.2, Nat.max_le.mpr ⟨hdirectives.2, hselections.2⟩⟩⟩, hrest⟩

end OperationDefinition

namespace FragmentDefinition

theorem yields (depth : Nat) :
    Yields Derives depth fun d => d.WellFormed ∧ d.depth ≤ depth := by
  rintro ts d rest ⟨notOn, hdirectives, hselections⟩ h
  simp only [readable_cons] at h
  obtain ⟨hdirectives, hmid⟩ := Directive.yields_all depth hdirectives h.2.2.2
  obtain ⟨hselections, hrest⟩ := Selection.yields_derivesSet depth hselections hmid
  exact ⟨⟨⟨h.1, notOn, h.2.2.1, hdirectives.1, hselections.1⟩,
    Nat.max_le.mpr ⟨hdirectives.2, hselections.2⟩⟩, hrest⟩

end FragmentDefinition

/-! ## The type system -/

namespace InputValueDefinition

theorem yields (depth : Nat) :
    Yields Derives depth fun d => d.WellFormed ∧ d.depth ≤ depth := by
  rintro ts d rest ⟨hdescription, htype, hdefault, hdirectives⟩ h
  obtain ⟨-, hmid⟩ := yields_description hdescription h
  simp only [readable_cons] at hmid
  obtain ⟨htype, hrest⟩ := TypeRef.yields depth htype hmid.2.2
  obtain ⟨hdefault, hrest⟩ := Value.yields_default depth hdefault hrest
  obtain ⟨hdirectives, hrest⟩ := Directive.yields_all depth hdirectives hrest
  exact ⟨⟨⟨hmid.1, htype.1, hdefault.1, hdirectives.1⟩,
    Nat.max_le.mpr ⟨htype.2, Nat.max_le.mpr ⟨hdefault.2, hdirectives.2⟩⟩⟩, hrest⟩

theorem yields_arguments (depth : Nat) :
    Yields ArgumentsDerive depth fun arguments =>
      (∀ a ∈ arguments, a.WellFormed) ∧ listDepth InputValueDefinition.depth arguments ≤ depth :=
  yields_parts (yields_optionalList (yields depth))

end InputValueDefinition

namespace FieldDefinition

theorem yields (depth : Nat) :
    Yields Derives depth fun d => d.WellFormed ∧ d.depth ≤ depth := by
  rintro ts d rest ⟨hdescription, harguments, htype, hdirectives⟩ h
  obtain ⟨-, hname⟩ := yields_description hdescription h
  simp only [readable_cons] at hname
  obtain ⟨harguments, hmid⟩ := InputValueDefinition.yields_arguments depth harguments hname.2
  obtain ⟨htype, hrest⟩ := TypeRef.yields depth htype (readable_cons.mp hmid).2
  obtain ⟨hdirectives, hrest⟩ := Directive.yields_all depth hdirectives hrest
  exact ⟨⟨⟨hname.1, harguments.1, htype.1, hdirectives.1⟩,
    Nat.max_le.mpr ⟨harguments.2, Nat.max_le.mpr ⟨htype.2, hdirectives.2⟩⟩⟩, hrest⟩

end FieldDefinition

namespace EnumValueDefinition

theorem yields (depth : Nat) :
    Yields Derives depth fun d => d.WellFormed ∧ d.depth ≤ depth := by
  rintro ts d rest ⟨hdescription, hdirectives⟩ h
  obtain ⟨-, hname⟩ := yields_description hdescription h
  simp only [readable_cons] at hname
  obtain ⟨hdirectives, hrest⟩ := Directive.yields_all depth hdirectives hname.2
  exact ⟨⟨⟨hname.1, hdirectives.1⟩, hdirectives.2⟩, hrest⟩

end EnumValueDefinition

namespace SchemaDefinition

private theorem yields_entry :
    Yields DerivesEntry depth fun entry => isName entry.2 = true := by
  rintro ts entry rest ⟨operation⟩ h
  simp only [readable_cons] at h
  exact h.2.2

theorem yields (heading : Heading) (depth : Nat) :
    Yields (Derives heading) depth fun d => d.WellFormed ∧ d.depth ≤ depth := by
  rintro ts d rest ⟨hdirectives, hentries, nonempty⟩ h
  obtain ⟨hdirectives, hmid⟩ := Directive.yields_all depth hdirectives h
  obtain ⟨hentries, hrest⟩ := yields_optionalList yields_entry hentries hmid
  exact ⟨⟨⟨hdirectives.1, Entries.nodup_ofPairs _,
    fun entry hentry => hentries entry (Entries.mem_ofPairs hentry),
    nonempty.imp_right Entries.ofPairs_ne_nil⟩, hdirectives.2⟩, hrest⟩

end SchemaDefinition

namespace TypeBody

private theorem yields_interfaces :
    Yields DerivesInterfaces depth fun names => ∀ name ∈ names, isName name = true := by
  rintro ts names rest (inner | _) h
  · obtain ⟨⟨hnames, -⟩, hrest⟩ := yields_separated yields_name inner (readable_cons.mp h).2
    exact ⟨hnames, hrest⟩
  · exact ⟨by simp, h⟩

private theorem yields_members :
    Yields DerivesMembers depth fun names => ∀ name ∈ names, isName name = true := by
  rintro ts names rest (inner | _) h
  · obtain ⟨⟨hnames, -⟩, hrest⟩ := yields_separated yields_name inner (readable_cons.mp h).2
    exact ⟨hnames, hrest⟩
  · exact ⟨by simp, h⟩

theorem yields (kind : TypeKind) (depth : Nat) :
    Yields (Derives kind) depth fun parts =>
      ((∀ d ∈ parts.1, d.WellFormed) ∧ listDepth Directive.depth parts.1 ≤ depth) ∧
        parts.2.WellFormed ∧ parts.2.depth ≤ depth := by
  intro ts parts rest hx h
  cases hx with
  | scalar hdirectives =>
    obtain ⟨hdirs, hrest⟩ := Directive.yields_all depth hdirectives h
    exact ⟨⟨hdirs, trivial, Nat.zero_le _⟩, hrest⟩
  | object hinterfaces hdirectives hfields | interface hinterfaces hdirectives hfields =>
    obtain ⟨hnames, h⟩ := yields_interfaces hinterfaces h
    obtain ⟨hdirs, h⟩ := Directive.yields_all depth hdirectives h
    obtain ⟨hblock, hrest⟩ := yields_parts (yields_optionalList (FieldDefinition.yields depth))
      hfields h
    exact ⟨⟨hdirs, ⟨hnames, hblock.1⟩, hblock.2⟩, hrest⟩
  | union hdirectives hmembers =>
    obtain ⟨hdirs, h⟩ := Directive.yields_all depth hdirectives h
    obtain ⟨hnames, hrest⟩ := yields_members hmembers h
    exact ⟨⟨hdirs, hnames, Nat.zero_le _⟩, hrest⟩
  | enum hdirectives hvalues =>
    obtain ⟨hdirs, h⟩ := Directive.yields_all depth hdirectives h
    obtain ⟨hblock, hrest⟩ := yields_parts (yields_optionalList (EnumValueDefinition.yields depth))
      hvalues h
    exact ⟨⟨hdirs, hblock.1, hblock.2⟩, hrest⟩
  | input hdirectives hfields =>
    obtain ⟨hdirs, h⟩ := Directive.yields_all depth hdirectives h
    obtain ⟨hblock, hrest⟩ := yields_parts (yields_optionalList (InputValueDefinition.yields depth))
      hfields h
    exact ⟨⟨hdirs, hblock.1, hblock.2⟩, hrest⟩

end TypeBody

namespace TypeDefinition

theorem yields (heading : Heading) (kind : TypeKind) (depth : Nat) :
    Yields (Derives heading kind) depth fun d => d.WellFormed ∧ d.depth ≤ depth := by
  rintro ts d rest ⟨inner, adds⟩ h
  obtain ⟨⟨hdirectives, hbody⟩, hrest⟩ := TypeBody.yields kind depth inner (readable_cons.mp h).2
  exact ⟨⟨⟨(readable_cons.mp h).1, hdirectives.1, hbody.1, adds⟩,
    Nat.max_le.mpr ⟨hdirectives.2, hbody.2⟩⟩, hrest⟩

end TypeDefinition

namespace DirectiveDefinition

private theorem yields_location : Yields DerivesLocation depth fun _ => True := by
  rintro ts place rest ⟨place⟩ h
  exact ⟨trivial, (readable_cons.mp h).2⟩

theorem yields (description : Option String) (depth : Nat) :
    Yields (Derives description) depth fun d => d.WellFormed ∧ d.depth ≤ depth := by
  rintro ts d rest ⟨harguments, hrepeatable, hlocations⟩ h
  simp only [readable_cons] at h
  obtain ⟨harguments, hmid⟩ := InputValueDefinition.yields_arguments depth harguments h.2.2
  obtain ⟨-, hmid⟩ := yields_flag _ hrepeatable hmid
  obtain ⟨⟨-, hlocations⟩, hrest⟩ :=
    yields_separated yields_location hlocations (readable_cons.mp hmid).2
  exact ⟨⟨⟨h.2.1, harguments.1, hlocations⟩, harguments.2⟩, hrest⟩

end DirectiveDefinition

/-! ## Documents -/

namespace Definition

private theorem yields_heading : Yields Heading.Derives depth fun _ => True := by
  rintro ts heading rest ⟨hdescription, hextension⟩ h
  exact yields_flag _ hextension (yields_description hdescription h).2

theorem yields (depth : Nat) :
    Yields Derives depth fun d => d.WellFormed ∧ d.depth ≤ depth := by
  intro ts d rest hx h
  cases hx with
  | shorthand inner =>
    obtain ⟨hselections, hrest⟩ := Selection.yields_derivesSet depth inner h
    refine ⟨⟨⟨by simp [OperationDefinition.shorthand], by simp [OperationDefinition.shorthand],
      by simp [OperationDefinition.shorthand], hselections.1⟩, ?_⟩, hrest⟩
    simpa [Definition.depth, OperationDefinition.depth, OperationDefinition.shorthand] using
      hselections.2
  | keyword next hheading inner =>
    obtain ⟨-, h⟩ := yields_heading hheading h
    cases inner with
    | operation operation inner =>
      exact OperationDefinition.yields operation depth inner (readable_cons.mp h).2
    | fragment inner => exact FragmentDefinition.yields depth inner (readable_cons.mp h).2
    | schema inner => exact SchemaDefinition.yields _ depth inner (readable_cons.mp h).2
    | directive inner => exact DirectiveDefinition.yields _ depth inner (readable_cons.mp h).2
    | type kind inner => exact TypeDefinition.yields _ kind depth inner (readable_cons.mp h).2

theorem yields_allDerive (depth : Nat) :
    Yields AllDerive depth fun ds =>
      (∀ d ∈ ds, d.WellFormed) ∧ listDepth Definition.depth ds ≤ depth := by
  apply yields_parts
  intro ts ds rest hx h
  induction hx with
  | nil => exact ⟨by simp, h⟩
  | cons first others ih =>
    obtain ⟨hfirst, hmid⟩ := yields _ first h
    obtain ⟨hothers, hrest⟩ := ih hmid
    exact ⟨List.forall_mem_cons.mpr ⟨hfirst, hothers⟩, hrest⟩

end Definition

end GraphQLSyntax
