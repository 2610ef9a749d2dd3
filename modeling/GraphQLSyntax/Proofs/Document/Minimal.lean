import GraphQLSyntax.Proofs.Document.Lazy
import GraphQLSyntax.Proofs.Document.RoundTrip

/-!
# Printing is minimal in tokens

A document that was read is printed as the tokens of its source, without those that are optional. A
brace that could be read as part of the definition in front keeps its `query`. Entries with repeated
keys leave fewer tokens.

* `Document.print_minimal`: this, for each source that is read.
-/

namespace GraphQLSyntax

open scoped List

/-- Whether the optional token of a definition is printed: only the keyword of an operation behind
a definition whose block could still come. -/
def Definition.keeps (behindOpenBlock optional : Bool) : Definition → Bool
  | operation _ => optional && behindOpenBlock
  | _ => false

namespace Document

/-- The tokens of definitions in a row, each with its optional token or without it. -/
def tokensOf (ds : List (Definition × Bool)) : List TokenKind :=
  ds.flatMap fun d => d.1.tokensWith d.2

/-- The optional tokens that are printed. -/
def kept (behindOpenBlock : Bool) : List (Definition × Bool) → List (Definition × Bool)
  | [] => []
  | (d, optional) :: ds => (d, d.keeps behindOpenBlock optional) :: kept d.lacksBlock ds

/-- No object and no schema of the source has a key twice. -/
def KeysDistinct (source : String) : Prop :=
  ∀ n ∈ notes source, n.Distinct

end Document

/-! ## Optional tokens can be deleted -/

private theorem leading_sublist (optional : Bool) (separator : Punctuator) :
    leading false separator <+ leading optional separator :=
  List.nil_sublist _

namespace TypeBody

private theorem interfaceTokensWith_sublist (optional : Bool) (names : List String) :
    interfaceTokensWith false names <+ interfaceTokensWith optional names := by
  unfold interfaceTokensWith
  split
  · exact List.Sublist.refl _
  · exact ((leading_sublist optional .amp).cons_cons _).append_right _

private theorem tokensWith_sublist (optional : Bool) (body : TypeBody) :
    body.tokensWith false <+ body.tokensWith optional := by
  cases body with
  | union members =>
    show memberTokensWith false members <+ memberTokensWith optional members
    unfold memberTokensWith
    split
    · exact List.Sublist.refl _
    · exact ((leading_sublist optional .pipe).cons_cons _).append_right _
  | _ => exact List.Sublist.refl _

end TypeBody

namespace Definition

theorem tokensWith_sublist (optional : Bool) (d : Definition) :
    d.tokensWith false <+ d.tokensWith optional := by
  cases d with
  | operation d =>
    cases optional with
    | false => exact List.Sublist.refl _
    | true =>
      show d.tokens false <+ d.fullTokens
      unfold OperationDefinition.tokens
      split
      · exact List.sublist_append_right _ _
      · exact List.Sublist.refl _
  | fragment d | schema d => exact List.Sublist.refl _
  | type d =>
    exact (((TypeBody.interfaceTokensWith_sublist optional _).cons_cons _ |>.cons_cons _
      |>.append_left _).append_right _).append (TypeBody.tokensWith_sublist optional _)
  | directive d =>
    exact (((leading_sublist optional .pipe).cons_cons _).append_left _).append_right _

theorem tokensWith_keeps_sublist (behindOpenBlock optional : Bool) (d : Definition) :
    d.tokensWith (d.keeps behindOpenBlock optional) <+ d.tokensWith optional := by
  cases hkeeps : d.keeps behindOpenBlock optional with
  | false => exact d.tokensWith_sublist optional
  | true =>
    have hoptional : optional = true := by
      cases d <;> simp_all [keeps]
    subst hoptional
    exact List.Sublist.refl _

/-- A definition is printed with the optional token that is kept, unless that is not there. -/
theorem tokens_eq_tokensWith_keeps {behindOpenBlock optional : Bool} {d : Definition}
    (h : behindOpenBlock = true → (d.tokensWith optional).head? ≠ some (punct .braceOpen)) :
    d.tokens behindOpenBlock = d.tokensWith (d.keeps behindOpenBlock optional) := by
  cases d with
  | operation d =>
    cases behindOpenBlock with
    | false =>
      simp only [keeps, Bool.and_false]
      rw [tokensWith_false]
    | true =>
      cases optional with
      | true => simp [keeps, tokensWith, tokens, OperationDefinition.tokens]
      | false =>
        have hshorthand : d.isShorthand = false := by
          by_cases hs : d.isShorthand
          · simp [tokensWith, OperationDefinition.tokens, hs, Selection.setTokens] at h
          · simpa using hs
        simp [keeps, tokensWith, tokens, OperationDefinition.tokens, hshorthand]
  | fragment d => exact (tokensWith_false (fragment d)).symm
  | schema d => exact (tokensWith_false (schema d)).symm
  | type d => exact (tokensWith_false (type d)).symm
  | directive d => exact (tokensWith_false (directive d)).symm

end Definition

namespace Document

/-- What is printed is what was there, without the optional tokens that are not kept. -/
theorem tokensOf_kept_sublist (behindOpenBlock : Bool) (ds : List (Definition × Bool)) :
    tokensOf (kept behindOpenBlock ds) <+ tokensOf ds := by
  induction ds generalizing behindOpenBlock with
  | nil => exact List.Sublist.refl _
  | cons d ds ih =>
    exact (Definition.tokensWith_keeps_sublist behindOpenBlock d.2 d.1).append (ih d.1.lacksBlock)

/-- Definitions as they were read are printed with the optional tokens that are kept. -/
theorem of_row {ds : List Definition} {ws : List Written} (behindOpenBlock : Bool)
    (h : Stepwise.Row (fun d w => ∃ optional, w = Definition.written optional d)
      (fun d next => d.lacksBlock = true → next ≠ some (punct .braceOpen)) ds ws)
    (hhead : behindOpenBlock = true →
      (Written.concat ws).tokens.head? ≠ some (punct .braceOpen)) :
    ∃ marked : List (Definition × Bool), marked.map Prod.fst = ds ∧
      (Written.concat ws).tokens = tokensOf marked ∧
      Definition.allTokens behindOpenBlock ds = tokensOf (kept behindOpenBlock marked) := by
  induction h generalizing behindOpenBlock with
  | nil => exact ⟨[], rfl, rfl, rfl⟩
  | @cons d ds _ ws written behind _ ih =>
    obtain ⟨optional, rfl⟩ := written
    obtain ⟨marked, hmarked, htokens, hall⟩ := ih d.lacksBlock behind
    refine ⟨(d, optional) :: marked, by rw [List.map_cons, hmarked], ?_, ?_⟩
    · rw [Written.concat_cons, Written.tokens_append, htokens]
      rfl
    · rw [Definition.allTokens, hall, Definition.tokens_eq_tokensWith_keeps]
      · rfl
      · intro hbehind hbrace
        refine hhead hbehind ?_
        have hwritten : (Definition.written optional d).tokens.head? = some (punct .braceOpen) :=
          hbrace
        rw [Written.concat_cons, Written.tokens_append, List.head?_append, hwritten]
        rfl

private theorem length_lex {source : String} {tokens : List Token} (h : lex source = .ok tokens) :
    tokens.length = (Scanner.runOf source).kinds.length + 1 := by
  obtain ⟨token, -, rfl⟩ := Scanner.lex_eq_ok.mp h
  rw [List.length_append, Scanner.length_kinds]
  rfl

/-- **Printing keeps all tokens but those that are optional.** A document that was read is printed
with no more tokens than its source has. If no key is repeated, the definitions are printed as they
were read, without their optional tokens except for each `query` in front of a brace that could be
read as part of the definition in front. -/
theorem print_minimal {depth : Option Nat} {source : String} {d : Document}
    (h : parseWithin ⟨depth, none⟩ source = .ok d) :
    ∃ read printed, lex source = .ok read ∧ lex d.print = .ok printed ∧
      printed.length ≤ read.length ∧
      (KeysDistinct source → ∃ marked : List (Definition × Bool),
        marked.map Prod.fst = d.definitions ∧
        read.filterMap Token.kind = tokensOf marked ∧
        printed.filterMap Token.kind = tokensOf (kept false marked)) := by
  obtain ⟨hprinted, last, hlast⟩ := runOf_print (wellFormed_of_parseWithin h).1.legible
  have hlexPrinted : lex d.print = .ok _ := Scanner.lex_eq_ok.mpr ⟨last, hlast, rfl⟩
  obtain ⟨read, hlexRead⟩ := lex_of_parseWithin h
  obtain ⟨ws, hrow, haccounts⟩ := accounts_of_parseWithin h
  obtain ⟨marked, hmarked, htokens, hall⟩ := of_row false hrow (by simp)
  refine ⟨read, _, hlexRead, hlexPrinted, ?_, fun hkeys => ⟨marked, hmarked, ?_, ?_⟩⟩
  · rw [length_lex hlexRead, length_lex hlexPrinted, hprinted]
    have hsublist : d.tokens.length ≤ (Written.concat ws).tokens.length := by
      rw [htokens, show d.tokens = tokensOf (kept false marked) from hall]
      exact (tokensOf_kept_sublist false marked).length_le
    exact Nat.succ_le_succ (Nat.le_trans hsublist haccounts.length_le)
  · rw [Scanner.kinds_of_lex hlexRead,
      haccounts.tokens_eq fun n hn => hkeys n (mem_notes.mpr hn), htokens]
  · rw [Scanner.kinds_of_lex hlexPrinted, hprinted]
    exact hall

/-- Behind a type without a block `query` is kept; the ampersand and the other `query` are not. -/
theorem print_minimal_behind_type :
    ∃ d, parseWithin ⟨none, none⟩
        "type A implements &B query\x7ba(b:\x7bc:d, e:\x7bc:f\x7d\x7d)\x7d query\x7bg\x7d" = .ok d ∧
      d.print =
        "type A implements B query\x7ba(b:\x7bc:d e:\x7bc:f\x7d\x7d)\x7d\x7bg\x7d" ∧
      ∃ read printed,
        lex "type A implements &B query\x7ba(b:\x7bc:d, e:\x7bc:f\x7d\x7d)\x7d query\x7bg\x7d" =
          .ok read ∧
        lex d.print = .ok printed ∧ printed.length ≤ read.length ∧
        ∃ marked : List (Definition × Bool), marked.map Prod.fst = d.definitions ∧
          read.filterMap Token.kind = tokensOf marked ∧
          printed.filterMap Token.kind = tokensOf (kept false marked) := by
  have hread : parseWithin ⟨none, none⟩
      "type A implements &B query\x7ba(b:\x7bc:d, e:\x7bc:f\x7d\x7d)\x7d query\x7bg\x7d" =
      .ok ⟨[.type ⟨⟨none, false⟩, "A", [], .object ["B"] []⟩,
        .operation ⟨none, .query, [], [], [.field none "a"
          [⟨"b", .object [("c", .enum "d"), ("e", .object [("c", .enum "f")])]⟩] [] []]⟩,
        .operation ⟨none, .query, [], [], [.field none "g" [] [] []]⟩],
        some "type A implements &B query\x7ba(b:\x7bc:d, e:\x7bc:f\x7d\x7d)\x7d query\x7bg\x7d"⟩ :=
    rfl
  have hnotes : notes
      "type A implements &B query\x7ba(b:\x7bc:d, e:\x7bc:f\x7d\x7d)\x7d query\x7bg\x7d" =
      [.object ["c"], .object ["c", "e"]] := by
    decide +kernel
  obtain ⟨read, printed, hlex, hprinted, hlength, hmarked⟩ := print_minimal hread
  refine ⟨_, hread, rfl, read, printed, hlex, hprinted, hlength, hmarked ?_⟩
  simp [KeysDistinct, hnotes, Note.Distinct]

end Document

end GraphQLSyntax
