import GraphQLSyntax.Proofs.Grammar.Acceptance
import GraphQLSyntax.Proofs.Predictive.Document
import GraphQLSyntax.Proofs.Token.Scanned
import GraphQLSyntax.Proofs.Token.Spelled

/-!
# The first impossible token

A fault of the grammar is reported at the first token with which no document can begin. What stands
in front of it can be completed to a document, and so can what stands in front of a malformed
lexeme.

* `Document.fault_at_first_impossible`: this, for each source that is refused.
-/

namespace GraphQLSyntax

open GraphQLSyntax.Parser

/-! ## Places of faults -/

namespace Scanner

/-- All tokens of a run but the end have a kind. -/
theorem length_kinds (source : String) :
    (runOf source).kinds.length = (runOf source).tokens.length :=
  Run.length_kinds fun _ => kind_isSome

/-- Behind the tokens of a run is nothing but the end. -/
theorem lt_length_of_found {source : String} {i : Nat} {token : Token}
    (h : (runOf source).found[i]? = some token) (hend : token.isEnd = false) :
    i < (runOf source).tokens.length := by
  apply Nat.lt_of_not_le
  intro hle
  rw [Run.found, List.getElem?_append_right hle] at h
  cases hlast : (runOf source).last with
  | error e => simp [hlast, Except.toOption] at h
  | ok last =>
    have htoken : token = last := by
      simpa [hlast, Except.toOption] using List.mem_of_getElem? h
    simp [htoken, Token.isEnd, kind_of_last hlast] at hend

end Scanner

namespace Document

variable {source : String} {kinds pre ahead : List TokenKind} {f : SyntaxFault}

/-- A fault is reported at the first token ahead of it. -/
theorem errorOf_fault (hkinds : (Scanner.runOf source).kinds = pre ++ ahead) :
    errorOf (Scanner.runOf source) ⟨.fault f, ahead⟩ =
      match (Scanner.runOf source).tokens[pre.length]? with
      | some token => .syntactic f token
      | none =>
        match (Scanner.runOf source).last with
        | .ok token => .syntactic f token
        | .error e => .lexical e := by
  have hlength := congrArg List.length hkinds
  rw [Scanner.length_kinds, List.length_append] at hlength
  have hindex : (Scanner.runOf source).tokens.length - ahead.length = pre.length := by omega
  rewrite [← hindex]
  rfl

/-- The reported token is the one that the tokens in front of the fault end at, the end among
them. -/
theorem errorOf_fault_eq_syntactic (hkinds : (Scanner.runOf source).kinds = pre ++ ahead)
    {fault : SyntaxFault} {found : Token}
    (h : errorOf (Scanner.runOf source) ⟨.fault f, ahead⟩ = .syntactic fault found) :
    (Scanner.runOf source).found[pre.length]? = some found := by
  rw [errorOf_fault hkinds] at h
  have hlength := congrArg List.length hkinds
  rw [Scanner.length_kinds, List.length_append] at hlength
  unfold Scanner.Run.found
  split at h
  · next token htoken =>
    cases h
    rw [List.getElem?_append_left (List.getElem?_eq_some_iff.mp htoken).1, htoken]
  · next hnone =>
    have hend := List.getElem?_eq_none_iff.mp hnone
    split at h
    · next token hlast =>
      cases h
      have hindex : pre.length - (Scanner.runOf source).tokens.length = 0 := by omega
      rw [List.getElem?_append_right hend, hlast, hindex]
      rfl
    · cases h

theorem errorOf_fault_eq_lexical (hkinds : (Scanner.runOf source).kinds = pre ++ ahead)
    {e : LexError} (h : errorOf (Scanner.runOf source) ⟨.fault f, ahead⟩ = .lexical e) :
    ahead = [] := by
  rw [errorOf_fault hkinds] at h
  have hlength := congrArg List.length hkinds
  rw [Scanner.length_kinds, List.length_append] at hlength
  split at h
  · cases h
  · next hnone =>
    have hend := List.getElem?_eq_none_iff.mp hnone
    exact List.eq_nil_of_length_eq_zero (by omega)

theorem parseWithin_eq_error {depth : Option Nat} {e : Error} :
    parseWithin ⟨depth, none⟩ source = .error e ↔
      ofRun depth (Scanner.runOf source) = .error e := by
  show (ofRun depth (Scanner.runOf source)).map _ = _ ↔ _
  cases ofRun depth (Scanner.runOf source) <;> simp [Except.map]

/-- A source is refused by the grammar, or for a malformed lexeme behind tokens that are read. -/
theorem ofRun_eq_error {depth : Option Nat} {run : Scanner.Run} {e : Error}
    (h : ofRun depth run = .error e) :
    (∃ failure, Definition.parseAll (depth.getD run.kinds.length) run.kinds = .error failure ∧
        errorOf run failure = e) ∨
      ∃ ds rest fault,
        Definition.parseAll (depth.getD run.kinds.length) run.kinds = .ok (ds, rest) ∧
          run.last = .error fault ∧ e = .lexical fault := by
  rw [ofRun_run] at h
  split at h
  · next failure hfailure =>
    cases h
    exact .inl ⟨failure, hfailure, rfl⟩
  · next ds rest hds =>
    split at h
    · cases h
    · next fault hlast =>
      cases h
      exact .inr ⟨ds, rest, fault, hds, hlast, rfl⟩

/-! ## Beginnings of documents -/

/-- Some source that is read begins with these tokens. -/
def Viable (ks : List TokenKind) : Prop :=
  ∃ source d, parseWithin ⟨none, none⟩ source = .ok d ∧ ks <+: (Scanner.runOf source).kinds

/-- Readable tokens that are definitions are those of a source. -/
theorem viable_of_parseAll {ds : List Definition} (hkinds : Readable kinds)
    (h : Definition.parseAll kinds.length kinds = .ok (ds, [])) : Viable kinds := by
  obtain ⟨hrun, hlast⟩ := (scans_spaced hkinds).runOf
  refine ⟨String.ofList (spaced kinds), ⟨ds, _⟩, parseWithin_eq_ok.mpr
    ⟨rfl, ofRun_eq_ok.mpr ⟨⟨[], ?_⟩, hlast⟩⟩, hrun.symm ▸ List.prefix_refl kinds⟩
  rw [hrun]
  exact h

theorem Viable.shorten {ks ks' : List TokenKind} (h : Viable ks') (hks : ks <+: ks') :
    Viable ks := by
  obtain ⟨source, d, hd, hprefix⟩ := h
  exact ⟨source, d, hd, hks.trans hprefix⟩

/-- What can be completed is the beginning of a source that is read. -/
theorem viable_of_completes {π : Profile} (hpre : Readable pre)
    (h : Completes π Definition.parseAll pre) (hinside : π.inside = false) : Viable pre := by
  obtain ⟨post, ds, hpost, -, hreads⟩ := h
  have hparse := hreads (pre ++ post).length [] (by simp [Profile.levels, hinside]) (avoids_nil _)
  rw [List.append_nil] at hparse
  exact (viable_of_parseAll (readable_append.mpr ⟨hpre, hpost⟩) hparse).shorten
    (List.prefix_append _ _)

/-- In front of a fault is the beginning of a source that is read, and with the faulty token it is
none. -/
theorem viable_of_fault (hkinds : Readable kinds)
    (h : Definition.parseAll kinds.length kinds = .error ⟨.fault f, ahead⟩) :
    ∃ pre, kinds = pre ++ ahead ∧ Viable pre ∧
      ∀ t, ahead.head? = some t → ¬ Viable (pre ++ [t]) := by
  obtain ⟨pre, rfl, hcompletes, hfault⟩ :=
    ((Definition.predictive_parseAll kinds.length).all kinds).fault h
  refine ⟨pre, rfl, viable_of_completes (readable_append.mp hkinds).1 hcompletes rfl, ?_⟩
  rintro t ht ⟨source, d, hd, behind, hkinds'⟩
  obtain ⟨⟨rest, hparse⟩, -⟩ := ofRun_eq_ok.mp (parseWithin_eq_ok.mp hd).2
  rw [← hkinds', List.append_assoc] at hparse
  have herror := hfault (pre ++ ([t] ++ behind)).length ([t] ++ behind)
    (.inr (by simp [Profile.levels])) (by simp [ht])
  rw [Option.getD_none, herror] at hparse
  cases hparse

/-- Without a limit nothing is too deep. -/
theorem parseAll_ne_tooDeep :
    Definition.parseAll kinds.length kinds ≠ .error ⟨.tooDeep, ahead⟩ := by
  intro h
  obtain ⟨pre, hpre, hlevels, -⟩ :=
    ((Definition.predictive_parseAll kinds.length).all kinds).tooDeep h
  have hlength := congrArg List.length hpre
  rw [List.length_append] at hlength
  simp only [Profile.levels, Profile.optional, Bool.toNat_false] at hlevels
  omega

/-- **A fault of the grammar is reported at the first token with which no document begins.** In
front of it, and in front of a malformed lexeme, is the beginning of a document. -/
theorem fault_at_first_impossible (source : String) :
    (∀ fault found, parseWithin ⟨none, none⟩ source = .error (.syntactic fault found) →
      found ∈ (Scanner.runOf source).found ∧
      ∀ i token, (Scanner.runOf source).found[i]? = some token → token.span = found.span →
        Viable ((Scanner.runOf source).kinds.take i) ∧
          (token.isEnd = false → ¬ Viable ((Scanner.runOf source).kinds.take (i + 1)))) ∧
    ∀ e, parseWithin ⟨none, none⟩ source = .error (.lexical e) →
      Viable (Scanner.runOf source).kinds := by
  have hkinds := Scanner.readable_kinds source
  constructor
  · intro fault found h
    rcases ofRun_eq_error (parseWithin_eq_error.mp h) with ⟨⟨refusal, ahead⟩, hparse, herror⟩ | h
    · cases refusal with
      | tooDeep => exact (parseAll_ne_tooDeep hparse).elim
      | fault f =>
        obtain ⟨pre, hpre, hviable, hfirst⟩ := viable_of_fault hkinds hparse
        have hfound := errorOf_fault_eq_syntactic hpre herror
        refine ⟨List.mem_of_getElem? hfound, fun i token htoken hspan => ?_⟩
        -- No two tokens begin at one place, so the span tells which token it is.
        obtain rfl := Scanner.start_injective htoken hfound (congrArg Span.start hspan)
        rw [hpre, List.take_left' rfl]
        refine ⟨hviable, fun hend => ?_⟩
        have hlt := Scanner.lt_length_of_found htoken hend
        rw [← Scanner.length_kinds, hpre, List.length_append] at hlt
        obtain ⟨t, behind, rfl⟩ := List.exists_cons_of_length_pos (l := ahead) (by omega)
        rw [List.take_append, List.take_of_length_le (Nat.le_succ _), Nat.add_sub_cancel_left]
        exact hfirst t rfl
    · obtain ⟨_, _, _, -, -, h⟩ := h
      cases h
  · intro e h
    rcases ofRun_eq_error (parseWithin_eq_error.mp h) with ⟨⟨refusal, ahead⟩, hparse, herror⟩ | h
    · cases refusal with
      | tooDeep => exact (parseAll_ne_tooDeep hparse).elim
      | fault f =>
        obtain ⟨pre, hpre, hviable, -⟩ := viable_of_fault hkinds hparse
        obtain rfl := errorOf_fault_eq_lexical hpre herror
        rwa [hpre, List.append_nil]
    · obtain ⟨ds, rest, _, hparse, -, -⟩ := h
      obtain ⟨rfl, -⟩ := Definition.parseAll_eq_ok_iff.mp hparse
      exact viable_of_parseAll hkinds hparse

theorem fault_of_missing_type :
    parseWithin ⟨none, none⟩ "type A \x7bb: \x7d" =
        .error (.syntactic .expectedName ⟨some (punct .braceClose), 11, 12⟩) ∧
      Viable [.name "type", .name "A", punct .braceOpen, .name "b", punct .colon] ∧
      ¬ Viable [.name "type", .name "A", punct .braceOpen, .name "b", punct .colon,
        punct .braceClose] ∧
      parseWithin ⟨none, none⟩ "type A %" = .error (.lexical ⟨.unexpectedSymbol '%', 7⟩) ∧
      Viable [.name "type", .name "A"] := by
  have hfault : parseWithin ⟨none, none⟩ "type A \x7bb: \x7d" =
      .error (.syntactic .expectedName ⟨some (punct .braceClose), 11, 12⟩) := rfl
  have hlexical : parseWithin ⟨none, none⟩ "type A %" =
      .error (.lexical ⟨.unexpectedSymbol '%', 7⟩) := rfl
  obtain ⟨hviable, himpossible⟩ :=
    ((fault_at_first_impossible "type A \x7bb: \x7d").1 _ _ hfault).2 5 _ rfl rfl
  exact ⟨hfault, hviable, himpossible rfl, hlexical,
    (fault_at_first_impossible "type A %").2 _ hlexical⟩

end Document

end GraphQLSyntax
