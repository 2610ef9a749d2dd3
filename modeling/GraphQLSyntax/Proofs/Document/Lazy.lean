import GraphQLSyntax.Proofs.Document.FirstFault
import GraphQLSyntax.Proofs.Steps.Document

/-!
# Reading token by token

A document can be read with one token of the source at a time: the next one is scanned when the one
in front of it is taken. `Document.parseLazily` reads in this way, and gives what reading from the
list of all tokens gives.

* `Document.parseLazily_eq`: this, within any limit of depth.
* `Document.accounts_of_parseWithin`: the tokens of a source that is read are accounted for.
* `Document.lazy_agrees_with_lex`: what a document is read or refused as is found in what scanning
  all of the source gives.
-/

namespace GraphQLSyntax

open GraphQLSyntax.Parser

namespace Document

/-- The program that reads the definitions of a source. There are no more tokens than characters. -/
def reading (source : String) : Steps (List Definition) :=
  (Definition.stepwiseAll source.toList.length).steps

/-- Reads a document within a limit of depth, scanning each token when the one in front of it is
taken. -/
def parseLazily (depth : Option Nat) (source : String) : Except Error Document :=
  match Reader.next (Scanner.ofSource source) with
  | .ok r =>
    ((reading source).run Reader.feed depth r 0).map fun out => ⟨out.1, some source⟩
  | .error e => .error e

section

variable {source : String} {r : Reader}

theorem length_kinds_le (source : String) :
    (Scanner.runOf source).kinds.length ≤ source.toList.length := by
  rw [Scanner.length_kinds]
  exact Scanner.length_tokens_le _

/-- On the kinds of all tokens, the program does what the parser does. -/
theorem run_reading (depth : Option Nat) (source : String) :
    (reading source).run .ofList depth (Scanner.runOf source).kinds 0 =
      (Definition.parseAll (depth.getD (Scanner.runOf source).kinds.length)
        (Scanner.runOf source).kinds).map fun out => (out.1, out.2, 0) := by
  have hrun := (Definition.stepwiseAll source.toList.length).run_ofList
    (fun l (_ : depth = some l) => Nat.zero_le l) (length_kinds_le source)
  rwa [roomLeft, Nat.zero_add, Nat.sub_zero] at hrun

theorem along_of_next (h : Reader.next (Scanner.ofSource source) = .ok r) :
    Steps.Along (Scanner.runOf source) r where
  valid := Reader.valid_next h
  tokens := by
    rw [Reader.run_of_next h]
    exact List.suffix_refl _
  last := by
    rw [Reader.run_of_next h]
    rfl

theorem kinds_of_next (h : Reader.next (Scanner.ofSource source) = .ok r) :
    r.run.kinds = (Scanner.runOf source).kinds := by
  rw [Reader.run_of_next h]
  rfl

/-- With one token at a time, the program does what the parser does, up to a malformed lexeme. -/
theorem reading_agrees (depth : Option Nat) (h : Reader.next (Scanner.ofSource source) = .ok r) :
    Steps.Agrees (Scanner.runOf source) ((reading source).run Reader.feed depth r 0)
      ((Definition.parseAll (depth.getD (Scanner.runOf source).kinds.length)
        (Scanner.runOf source).kinds).map fun out => (out.1, out.2, 0)) := by
  have hagrees := (reading source).run_feed depth (along_of_next h) 0
  rwa [kinds_of_next h, run_reading] at hagrees

end

/-- **Reading token by token gives what reading from the list of all tokens gives.** -/
theorem parseLazily_eq (depth : Option Nat) (source : String) :
    parseLazily depth source = parseWithin ⟨depth, none⟩ source := by
  show _ = (ofRun depth (Scanner.runOf source)).map _
  unfold parseLazily
  cases hnext : Reader.next (Scanner.ofSource source) with
  | error e =>
    obtain ⟨fault, hrun, rfl⟩ := Reader.run_of_next_eq_error hnext
    have hrunOf : Scanner.runOf source = ⟨[], .error fault⟩ := hrun
    rw [hrunOf]
    rfl
  | ok r =>
    have hagrees := reading_agrees depth hnext
    rw [ofRun_run]
    dsimp only
    cases hparse : Definition.parseAll (depth.getD (Scanner.runOf source).kinds.length)
        (Scanner.runOf source).kinds with
    | error failure =>
      rw [hparse] at hagrees
      have herror : (reading source).run Reader.feed depth r 0 =
        .error (errorOf (Scanner.runOf source) failure) := hagrees
      rw [herror]
      rfl
    | ok result =>
      obtain ⟨ds, rest⟩ := result
      rw [hparse] at hagrees
      obtain rfl := Definition.rest_eq_nil_of_parseAll hparse
      rcases hagrees with ⟨r', hout, halong', hnil⟩ | ⟨fault, hout, -, hlast⟩
      · rw [hout, halong'.last_of_kinds_eq_nil hnil]
        rfl
      · rw [hout, hlast]
        rfl

/-! ## What reading goes through -/

/-- The levels that are entered and the entries that are read without a limit, whether the source is
read or refused. -/
def trace (source : String) : List (Event Reader) :=
  match Reader.next (Scanner.ofSource source) with
  | .ok r => (reading source).trace Reader.feed r 0
  | .error _ => []

/-- The levels among them. -/
def levels (source : String) : List (Level Reader) :=
  (trace source).filterMap Event.level?

/-- The entries among them. -/
def notes (source : String) : List Note :=
  (trace source).filterMap Event.note?

theorem mem_levels {source : String} {l : Level Reader} :
    l ∈ levels source ↔ .level l ∈ trace source := by
  unfold levels
  rw [List.mem_filterMap]
  constructor
  · rintro ⟨_ | _, hevent, hl⟩
    · cases hl
      exact hevent
    · cases hl
  · exact fun h => ⟨.level l, h, rfl⟩

theorem mem_notes {source : String} {n : Note} : n ∈ notes source ↔ .note n ∈ trace source := by
  unfold notes
  rw [List.mem_filterMap]
  constructor
  · rintro ⟨_ | _, hevent, hn⟩
    · cases hn
    · cases hn
      exact hevent
  · exact fun h => ⟨.note n, h, rfl⟩

/-- What is read within a limit is read without one. -/
theorem parseWithin_none_of_parseWithin {depth : Option Nat} {source : String} {d : Document}
    (h : parseWithin ⟨depth, none⟩ source = .ok d) : parseWithin ⟨none, none⟩ source = .ok d := by
  obtain ⟨hsource, hparse, hlast⟩ := parseWithin_eq_ok_iff.mp h
  exact parseWithin_eq_ok_iff.mpr ⟨hsource,
    Definition.parseAll_eq_ok_of_length_le hparse (.inr (Nat.le_refl _)), hlast⟩

/-- The accounts of a source that is read: its tokens are those of the definitions in a row. -/
theorem accounts_of_parseWithin {depth : Option Nat} {source : String} {d : Document}
    (h : parseWithin ⟨depth, none⟩ source = .ok d) :
    ∃ ws, Stepwise.Row (fun d w => ∃ optional, w = d.written optional)
        (fun d next => d.lacksBlock = true → next ≠ some (punct .braceOpen)) d.definitions ws ∧
      Accounts 0 (trace source) (Scanner.runOf source).kinds (.concat ws) := by
  have hnone := parseWithin_none_of_parseWithin h
  obtain ⟨-, hparse, -⟩ := parseWithin_eq_ok_iff.mp hnone
  rw [← parseLazily_eq] at hnone
  unfold parseLazily at hnone
  unfold trace
  cases hnext : Reader.next (Scanner.ofSource source) with
  | error e => simp [hnext] at hnone
  | ok r =>
    have halong := along_of_next hnext
    have hkinds := kinds_of_next hnext
    simp only [hnext] at hnone
    cases hrun : (reading source).run Reader.feed none r 0 with
    | error e => simp [hrun, Except.map] at hnone
    | ok out =>
      obtain ⟨ds, r', depth'⟩ := out
      have hlist := Steps.run_ofList_of_run halong.valid hrun
      rw [hkinds, run_reading, hparse] at hlist
      obtain ⟨hds, hrest, -⟩ : d.definitions = ds ∧ [] = r'.run.kinds ∧ 0 = depth' := by
        simpa [Except.map] using hlist
      obtain ⟨-, -, taken, w, htaken, ⟨ws, hrow, rfl⟩, haccounts⟩ :=
        (Definition.stepwiseAll _).spells halong.valid (hkinds ▸ length_kinds_le source) hrun
      rw [← hrest, List.append_nil, hkinds] at htaken
      subst hds
      exact ⟨ws, hrow, htaken ▸ haccounts⟩

/-! ## Against all tokens of the source -/

variable {source : String} {depth : Option Nat}

/-- What is read is scanned to its end. -/
theorem lex_of_parseWithin {d : Document} (h : parseWithin ⟨depth, none⟩ source = .ok d) :
    ∃ tokens, lex source = .ok tokens := by
  obtain ⟨-, token, hlast⟩ := ofRun_eq_ok.mp (parseWithin_eq_ok.mp h).2
  exact ⟨_, Scanner.lex_eq_ok.mpr ⟨token, hlast, rfl⟩⟩

private theorem lex_eq_error {e : LexError} (h : (Scanner.runOf source).last = .error e) :
    lex source = .error e := by
  show (Scanner.runOf source).last.map _ = _
  rw [h]
  rfl

/-- An error is at a token of the source, or it is the malformed lexeme behind them. -/
private theorem errorOf_cases (run : Scanner.Run) (failure : Failure) :
    (∃ found ∈ run.found, errorOf run failure =
        match failure.refusal with
        | .fault fault => .syntactic fault found
        | .tooDeep => .tooDeep found) ∨
      ∃ e, run.last = .error e ∧ errorOf run failure = .lexical e := by
  unfold errorOf Scanner.Run.found
  dsimp only
  cases htoken : run.tokens[run.tokens.length - failure.ahead.length]? with
  | some token => exact .inl ⟨token, List.mem_append_left _ (List.mem_of_getElem? htoken), rfl⟩
  | none =>
    cases hlast : run.last with
    | ok token => exact .inl ⟨token, by simp [Except.toOption], rfl⟩
    | error e => exact .inr ⟨e, rfl, rfl⟩

/-- A source is refused at one of its tokens, or for the malformed lexeme behind them. -/
theorem parseWithin_eq_error_cases {e : Error}
    (h : parseWithin ⟨depth, none⟩ source = .error e) :
    (∃ found ∈ (Scanner.runOf source).found,
        (∃ fault, e = .syntactic fault found) ∨ e = .tooDeep found) ∨
      ∃ fault, (Scanner.runOf source).last = .error fault ∧ e = .lexical fault := by
  rcases ofRun_eq_error (parseWithin_eq_error.mp h) with
    ⟨failure, -, rfl⟩ | ⟨_, _, fault, -, hlast, rfl⟩
  · rcases errorOf_cases (Scanner.runOf source) failure with ⟨found, hfound, herror⟩ | hlexical
    · refine .inl ⟨found, hfound, ?_⟩
      rw [herror]
      cases failure.refusal with
      | fault fault => exact .inl ⟨fault, rfl⟩
      | tooDeep => exact .inr rfl
    · exact .inr hlexical
  · exact .inr ⟨fault, hlast, rfl⟩

/-- The only token of a source with the span of an error. -/
def IsPlaceOf (source : String) (token : Token) (e : Error) : Prop :=
  .ok token ∈ (Scanner.ofSource source).tokens.1 ∧ token.span = e.span ∧
    ∀ other, .ok other ∈ (Scanner.ofSource source).tokens.1 → other.span = e.span → other = token

private theorem isPlaceOf {found : Token} {e : Error} (h : found ∈ (Scanner.runOf source).found)
    (hspan : found.span = e.span) : IsPlaceOf source found e := by
  refine ⟨Scanner.ok_mem_tokens.mpr h, hspan, fun other hother hspan' => ?_⟩
  obtain ⟨i, hi⟩ := List.mem_iff_getElem?.mp h
  obtain ⟨j, hj⟩ := List.mem_iff_getElem?.mp (Scanner.ok_mem_tokens.mp hother)
  have hindex := Scanner.start_injective hj hi (congrArg Span.start (hspan'.trans hspan.symm))
  subst hindex
  exact Option.some.inj (hj.symm.trans hi)

/-- **Reading token by token agrees with scanning all of the source.** A document is read only if
the source is scanned to its end, a lexical error is that of the scan, and any other error is at a
token that the scanner gives in front of the first lexical error. -/
theorem lazy_agrees_with_lex (depth : Option Nat) (source : String) :
    parseLazily depth source = parseWithin ⟨depth, none⟩ source ∧
    (∀ d, parseWithin ⟨depth, none⟩ source = .ok d → ∃ tokens, lex source = .ok tokens) ∧
    (∀ e, parseWithin ⟨depth, none⟩ source = .error (.lexical e) → lex source = .error e) ∧
    (∀ fault found, parseWithin ⟨depth, none⟩ source = .error (.syntactic fault found) →
      ∃ token, IsPlaceOf source token (.syntactic fault found) ∧
        (Error.syntactic fault found).description =
          fault.message ++ ", found " ++ token.display) ∧
    (∀ found, parseWithin ⟨depth, none⟩ source = .error (.tooDeep found) →
      ∃ token, IsPlaceOf source token (.tooDeep found)) := by
  refine ⟨parseLazily_eq depth source, fun d => lex_of_parseWithin, ?_, ?_, ?_⟩
  · intro e h
    rcases parseWithin_eq_error_cases h with ⟨_, -, ⟨_, h⟩ | h⟩ | ⟨fault, hlast, h⟩
    · cases h
    · cases h
    · cases h
      exact lex_eq_error hlast
  · intro fault found h
    rcases parseWithin_eq_error_cases h with ⟨_, hfound, ⟨_, h⟩ | h⟩ | ⟨_, -, h⟩
    · cases h
      exact ⟨found, isPlaceOf hfound rfl, rfl⟩
    · cases h
    · cases h
  · intro found h
    rcases parseWithin_eq_error_cases h with ⟨_, hfound, ⟨_, h⟩ | h⟩ | ⟨_, -, h⟩
    · cases h
    · cases h
      exact ⟨found, isPlaceOf hfound rfl⟩
    · cases h

theorem lazy_errors_of_unclosed_list :
    parseLazily (some 1) "\x7ba(b: [c" = .error (.tooDeep ⟨some (.name "c"), 7, 8⟩) ∧
      (∃ token, IsPlaceOf "\x7ba(b: [c" token (.tooDeep ⟨some (.name "c"), 7, 8⟩)) ∧
      (∃ token, IsPlaceOf "\x7ba(b: [c" token (.syntactic (.unclosed .bracketClose) ⟨none, 8, 8⟩)) ∧
      lex "\x7ba #\n%" = .error ⟨.unexpectedSymbol '%', 5⟩ ∧
      ∃ tokens, lex "\x7ba\x7d" = .ok tokens := by
  have hdeep : parseWithin ⟨some 1, none⟩ "\x7ba(b: [c" =
      .error (.tooDeep ⟨some (.name "c"), 7, 8⟩) := rfl
  have hunclosed : parseWithin ⟨none, none⟩ "\x7ba(b: [c" =
      .error (.syntactic (.unclosed .bracketClose) ⟨none, 8, 8⟩) := rfl
  have hlexical : parseWithin ⟨none, none⟩ "\x7ba #\n%" =
      .error (.lexical ⟨.unexpectedSymbol '%', 5⟩) := rfl
  obtain ⟨d, hread⟩ : ∃ d, parseWithin ⟨none, none⟩ "\x7ba\x7d" = .ok d := ⟨_, rfl⟩
  obtain ⟨hlazy, -, -, -, htooDeep⟩ := lazy_agrees_with_lex (some 1) "\x7ba(b: [c"
  obtain ⟨-, -, -, hsyntactic, -⟩ := lazy_agrees_with_lex none "\x7ba(b: [c"
  obtain ⟨token, htoken, -⟩ := hsyntactic _ _ hunclosed
  exact ⟨hlazy.trans hdeep, htooDeep _ hdeep, ⟨token, htoken⟩,
    (lazy_agrees_with_lex none "\x7ba #\n%").2.2.1 _ hlexical,
    (lazy_agrees_with_lex none "\x7ba\x7d").2.1 d hread⟩

end Document

end GraphQLSyntax
