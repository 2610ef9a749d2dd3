import GraphQLSyntax.Proofs.Grammar.Recognition
import GraphQLSyntax.Proofs.Token.Run

/-!
# Acceptance

A source is read as the definitions that its tokens derive, and refused if they derive none.

* `parse_eq_ok_iff_derives`: without a limit, a document is read exactly if its tokens derive it.
-/

namespace GraphQLSyntax

open GraphQLSyntax.Parser

namespace Definition

/-- Any room for as many levels as there are tokens is as good as more. -/
theorem parseAll_eq_ok_of_length_le {room depth : Nat} {kinds : List TokenKind}
    {ds : List Definition} (h : parseAll depth kinds = .ok (ds, []))
    (hroom : depth ≤ room ∨ kinds.length ≤ room) : parseAll room kinds = .ok (ds, []) := by
  obtain ⟨pre, hpre, -, hr⟩ := ((predictive_parseAll depth).all kinds).ok h
  rw [List.append_nil] at hpre
  subst hpre
  simpa using hr room [] (by simpa [Profile.levels] using hroom) (.inl rfl)

theorem rest_eq_nil_of_parseAll {room : Nat} {kinds rest : List TokenKind} {ds : List Definition}
    (h : parseAll room kinds = .ok (ds, rest)) : rest = [] := by
  cases (recognizes_parseAll room).mp h <;> rfl

theorem parseAll_eq_ok_iff {kinds rest : List TokenKind} {ds : List Definition} :
    parseAll kinds.length kinds = .ok (ds, rest) ↔
      rest = [] ∧ ∃ depth, AllDerive depth kinds ds [] := by
  constructor
  · intro h
    obtain rfl := rest_eq_nil_of_parseAll h
    exact ⟨rfl, _, (recognizes_parseAll kinds.length).mp h⟩
  · rintro ⟨rfl, depth, h⟩
    exact parseAll_eq_ok_of_length_le ((recognizes_parseAll depth).mpr h) (.inr (Nat.le_refl _))

end Definition

namespace Document

/-- What a run is read as is decided by the grammar first, and then by how the run ended. -/
theorem ofRun_run (depth : Option Nat) (run : Scanner.Run) :
    ofRun depth run = match Definition.parseAll (depth.getD run.kinds.length) run.kinds with
      | .error failure => .error (errorOf run failure)
      | .ok (ds, _) =>
        match run.last with
        | .ok _ => .ok ds
        | .error e => .error (.lexical e) := rfl

theorem ofRun_eq_ok {depth : Option Nat} {run : Scanner.Run} {ds : List Definition} :
    ofRun depth run = .ok ds ↔
      (∃ rest, Definition.parseAll (depth.getD run.kinds.length) run.kinds = .ok (ds, rest)) ∧
        ∃ token, run.last = .ok token := by
  rw [ofRun_run]
  cases Definition.parseAll (depth.getD run.kinds.length) run.kinds with
  | error failure => simp
  | ok result =>
    obtain ⟨definitions, rest⟩ := result
    cases run.last <;> simp

theorem parseWithin_eq_ok {depth : Option Nat} {source : String} {d : Document} :
    parseWithin ⟨depth, none⟩ source = .ok d ↔
      d.source = some source ∧ ofRun depth (Scanner.runOf source) = .ok d.definitions := by
  show (ofRun depth (Scanner.runOf source)).map _ = _ ↔ _
  cases ofRun depth (Scanner.runOf source) with
  | error e => simp [Except.map]
  | ok ds => cases d; simp [Except.map, and_comm, eq_comm]

/-- A document is read exactly if its tokens are definitions up to the end. -/
theorem parseWithin_eq_ok_iff {depth : Option Nat} {source : String} {d : Document} :
    parseWithin ⟨depth, none⟩ source = .ok d ↔ d.source = some source ∧
      Definition.parseAll (depth.getD (Scanner.runOf source).kinds.length)
        (Scanner.runOf source).kinds = .ok (d.definitions, []) ∧
      ∃ token, (Scanner.runOf source).last = .ok token := by
  rw [parseWithin_eq_ok, ofRun_eq_ok]
  constructor
  · rintro ⟨hsource, ⟨rest, hparse⟩, hlast⟩
    obtain rfl := Definition.rest_eq_nil_of_parseAll hparse
    exact ⟨hsource, hparse, hlast⟩
  · rintro ⟨hsource, hparse, hlast⟩
    exact ⟨hsource, ⟨[], hparse⟩, hlast⟩

end Document

/-- Without a limit a source is read exactly as its tokens derive it. -/
theorem parse_eq_ok_iff_derives {source : String} {tokens : List Token}
    (h : lex source = .ok tokens) (ds : List Definition) :
    (∃ d, Document.parseWithin ⟨none, none⟩ source = .ok d ∧ d.definitions = ds) ↔
      ∃ depth, Definition.AllDerive depth (tokens.filterMap Token.kind) ds [] := by
  rw [Scanner.kinds_of_lex h]
  obtain ⟨token, hlast, -⟩ := Scanner.lex_eq_ok.mp h
  constructor
  · rintro ⟨d, hd, rfl⟩
    obtain ⟨⟨rest, hds⟩, -⟩ := Document.ofRun_eq_ok.mp (Document.parseWithin_eq_ok.mp hd).2
    exact (Definition.parseAll_eq_ok_iff.mp hds).2
  · intro hds
    have hparse := Definition.parseAll_eq_ok_iff.mpr ⟨rfl, hds⟩
    exact ⟨⟨ds, some source⟩, Document.parseWithin_eq_ok.mpr
      ⟨rfl, Document.ofRun_eq_ok.mpr ⟨⟨[], hparse⟩, token, hlast⟩⟩, rfl⟩

/-- A description, an interface behind an ampersand, a directive, and a field with an argument. -/
theorem parse_described_type :
    ∃ tokens, lex "\"d\" type A implements &B @c \x7be(f: Int = -1): [B!]!\x7d" = .ok tokens ∧
      ∃ d, Document.parseWithin ⟨none, none⟩
          "\"d\" type A implements &B @c \x7be(f: Int = -1): [B!]!\x7d" = .ok d ∧
        d.definitions = [.type ⟨⟨some "d", false⟩, "A", [⟨"c", []⟩], .object ["B"]
          [⟨none, "e", [⟨none, "f", .named "Int", some (.int (-1)), []⟩],
            .nonNull (.list (.nonNull (.named "B"))), []⟩]⟩] := by
  have hrun : (lex "\"d\" type A implements &B @c \x7be(f: Int = -1): [B!]!\x7d").toOption.map
      (List.filterMap Token.kind) = some [.string "d", .name "type", .name "A", .name "implements",
        punct .amp, .name "B", punct .atSign, .name "c", punct .braceOpen, .name "e",
        punct .parenOpen, .name "f", punct .colon, .name "Int", punct .equals, .int (-1),
        punct .parenClose, punct .colon, punct .bracketOpen, .name "B", punct .bang,
        punct .bracketClose, punct .bang, punct .braceClose] := by
    decide +kernel
  cases hlex : lex "\"d\" type A implements &B @c \x7be(f: Int = -1): [B!]!\x7d" with
  | error e =>
    rw [hlex] at hrun
    cases hrun
  | ok tokens =>
    rw [hlex] at hrun
    have hkinds := Option.some.inj hrun
    have hinterfaces : ∀ ts, TypeBody.DerivesInterfaces 1 (.name "implements" :: punct .amp ::
        .name "B" :: punct .atSign :: ts) ["B"] (punct .atSign :: ts) :=
      fun ts => .present (.leading .intro (.nil (by simp)))
    have hdirectives : ∀ ts, Directive.AllDerive .const 1 (punct .atSign :: .name "c" ::
        punct .braceOpen :: ts) [⟨"c", []⟩] (punct .braceOpen :: ts) :=
      fun ts => .cons (.intro (.absent (by simp))) (.nil (by simp))
    have hargument : ∀ ts, InputValueDefinition.Derives 1 (.name "f" :: punct .colon ::
        .name "Int" :: punct .equals :: .int (-1) :: punct .parenClose :: ts)
        ⟨none, "f", .named "Int", some (.int (-1)), []⟩ (punct .parenClose :: ts) :=
      fun ts => .intro (.absent (by simp)) (.nullable .named (by simp)) (.present .int)
        (.nil (by simp))
    have htype : ∀ ts, TypeRef.Derives 1 (punct .bracketOpen :: .name "B" :: punct .bang ::
        punct .bracketClose :: punct .bang :: ts) (.nonNull (.list (.nonNull (.named "B")))) ts :=
      fun ts => .nonNull (.list (.nonNull .named))
    have hfield : ∀ ts, FieldDefinition.Derives 1 (.name "e" :: punct .parenOpen :: .name "f" ::
        punct .colon :: .name "Int" :: punct .equals :: .int (-1) :: punct .parenClose ::
        punct .colon :: punct .bracketOpen :: .name "B" :: punct .bang :: punct .bracketClose ::
        punct .bang :: punct .braceClose :: ts)
        ⟨none, "e", [⟨none, "f", .named "Int", some (.int (-1)), []⟩],
          .nonNull (.list (.nonNull (.named "B"))), []⟩ (punct .braceClose :: ts) :=
      fun ts => .intro (.absent (by simp)) (.present (.cons (by simp) (hargument _) .nil) (by simp))
        (htype _) (.nil (by simp))
    refine ⟨tokens, rfl, (parse_eq_ok_iff_derives hlex _).mpr ⟨1, ?_⟩⟩
    rw [hkinds]
    refine .cons (.keyword (by simp) (.intro .present (.absent (by simp))) (.type .object
      (.intro (.object (hinterfaces _) (hdirectives _) (.present ?_ (by simp))) ?_))) .nil
    · exact .cons (by simp) (hfield []) .nil
    · simp [TypeDefinition.AddsIfExtension]

end GraphQLSyntax
