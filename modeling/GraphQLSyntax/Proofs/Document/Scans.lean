import GraphQLSyntax.Proofs.Document.Lazy
import GraphQLSyntax.Proofs.Parser.Loops
import GraphQLSyntax.Proofs.Token.Calls
import Mathlib.Data.List.Iterate

/-!
# Scans

Reading a document scans each of its tokens once. `Document.parseRecording` reads token by token and
keeps every scanner that it asked for a token, the one that it began with first. Each goes on where
the one in front of it came to, and none is asked behind the end of the source or a fault.

* `Scanner.Row`: scans in a row, all of which gave tokens in front of the end.
* `Recorder.InRow.run`: reading keeps the scans in a row, step after step.
* `Document.scans_once`: the scans of a source that is read or refused.
-/

namespace GraphQLSyntax

/-! ## Scans in a row -/

namespace Scanner

/-- Scans in a row from the start of a source, and the scanner that they lead to. All of them gave
tokens in front of the end. -/
inductive Row (source : String) : List Scanner → Scanner → Prop
  | start : Row source [] (.ofSource source)
  | scan {calls : List Scanner} {s : Scanner} (row : Row source calls s)
      (goesOn : isLast s.scan.1 = false) : Row source (calls ++ [s]) s.scan.2

/-- A scanner gives its next item and then those of the scanner behind that. -/
theorem tokens_of_isLast (s : Scanner) :
    s.tokens.1 = if isLast s.scan.1 then [s.scan.1] else s.scan.1 :: s.scan.2.tokens.1 := by
  rw [tokens_eq, tokens_eq]
  rcases hscan : s.scan with ⟨e | token, s'⟩
  · simp [run_of_error hscan, isLast]
  · cases hend : token.isEnd with
    | true => simp [run_of_end hscan hend, isLast, hend]
    | false => simp [run_of_token hscan hend, isLast, hend]

namespace Row

variable {source : String} {calls : List Scanner} {s : Scanner}

theorem valid (h : Row source calls s) : s.source = source ∧ s.Valid := by
  induction h with
  | start => exact ⟨rfl, valid_ofSource source⟩
  | scan row _ ih => exact ⟨(source_scan _).trans ih.1, ih.2.after_scan⟩

/-- All items of the source are those that were scanned and those ahead. -/
theorem tokens_eq (h : Row source calls s) :
    (ofSource source).tokens.1 = calls.map (·.scan.1) ++ s.tokens.1 := by
  induction h with
  | start => rfl
  | @scan calls s row goesOn ih =>
    rw [ih, s.tokens_of_isLast, goesOn, List.map_append, List.append_assoc]
    rfl

theorem eq_iterate (h : Row source calls s) :
    calls = List.iterate (fun s => s.scan.2) (.ofSource source) calls.length ∧
      s = (fun s => s.scan.2)^[calls.length] (.ofSource source) := by
  induction h with
  | start => exact ⟨rfl, rfl⟩
  | scan row _ ih =>
    obtain ⟨hcalls, hs⟩ := ih
    rw [List.length_append, List.length_singleton, List.iterate_add, ← hcalls, ← hs,
      Function.iterate_succ_apply', ← hs]
    exact ⟨rfl, rfl⟩

theorem eq_iterate_snoc (h : Row source calls s) :
    calls ++ [s] = List.iterate (fun s => s.scan.2) (.ofSource source) (calls ++ [s]).length := by
  obtain ⟨hcalls, hs⟩ := h.eq_iterate
  rw [List.length_append, List.length_singleton, List.iterate_add, ← hcalls, ← hs]
  rfl

/-- Each scan begins behind the ones in front of it. -/
theorem pairwise_offset (h : Row source calls s) :
    ((calls ++ [s]).map offset).Pairwise (· < ·) := by
  induction h with
  | start => exact List.pairwise_singleton _ _
  | @scan calls s row goesOn ih =>
    have hlt : s.offset < s.scan.2.offset :=
      row.valid.2.steady.forward (isEnd_of_isLast_eq_false goesOn)
    have hfront : ∀ call ∈ calls, call.offset < s.offset := by
      rw [List.map_append, List.pairwise_append] at ih
      simpa using ih.2.2
    rw [List.map_append, List.pairwise_append]
    refine ⟨ih, List.pairwise_singleton _ _, fun a ha b hb => ?_⟩
    obtain rfl : b = s.scan.2.offset := by simpa using hb
    obtain ⟨call, hcall, rfl⟩ := List.mem_map.mp ha
    rcases List.mem_append.mp hcall with hcall | hcall
    · exact Nat.lt_trans (hfront call hcall) hlt
    · exact List.mem_singleton.mp hcall ▸ hlt

/-- All items, where the next one is the last. -/
theorem tokens_eq_of_isLast (h : Row source calls s) (hlast : isLast s.scan.1 = true) :
    (ofSource source).tokens.1 = (calls ++ [s]).map (·.scan.1) := by
  rw [h.tokens_eq, s.tokens_of_isLast, if_pos hlast, List.map_append]
  rfl

theorem prefix_tokens (h : Row source calls s) :
    (calls ++ [s]).map (·.scan.1) <+: (ofSource source).tokens.1 := by
  rw [h.tokens_eq, s.tokens_of_isLast, List.map_append, List.prefix_append_right_inj]
  split
  · exact List.prefix_rfl
  · exact ⟨s.scan.2.tokens.1, rfl⟩

/-- The items that were scanned are the first tokens of the source, or all of them and the fault
behind them. -/
theorem items (h : Row source calls s) :
    (∃ tokens, tokens <+: (runOf source).found ∧
        (calls ++ [s]).map (·.scan.1) = tokens.map .ok) ∨
      ∃ fault, lex source = .error fault ∧
        (calls ++ [s]).map (·.scan.1) = (runOf source).found.map .ok ++ [.error fault] := by
  obtain ⟨more, hmore⟩ := h.prefix_tokens
  have htokens : (ofSource source).tokens.1 =
      (runOf source).tokens.map .ok ++ [(runOf source).last] := Scanner.tokens_eq _
  have hlex : lex source = (runOf source).last.map fun token => (runOf source).tokens ++ [token] :=
    rfl
  rw [htokens] at hmore
  -- With nothing more to scan, all of the source was. Otherwise its last item is still to come.
  rcases List.eq_nil_or_concat more with rfl | ⟨front, item, rfl⟩
  · rw [List.append_nil] at hmore
    rw [hmore]
    unfold Run.found
    cases hlast : (runOf source).last with
    | ok token =>
      exact .inl ⟨_, List.prefix_rfl, by simp [Except.toOption]⟩
    | error fault =>
      rw [hlast] at hlex
      exact .inr ⟨fault, hlex, by simp [Except.toOption]⟩
  · rw [List.concat_eq_append, ← List.append_assoc] at hmore
    obtain ⟨tokens, others, hfound, htokens, -⟩ :=
      List.map_eq_append_iff.mp (List.append_inj' hmore rfl).1.symm
    refine .inl ⟨tokens, ?_, htokens.symm⟩
    rw [Run.found, hfound, List.append_assoc]
    exact List.prefix_append _ _

/-- Where the end was scanned, all tokens of the source were. -/
theorem items_of_isEnd (h : Row source calls s) {token : Token} (htoken : s.scan.1 = .ok token)
    (hend : token.isEnd = true) :
    ∃ tokens, lex source = .ok tokens ∧ (calls ++ [s]).map (·.scan.1) = tokens.map .ok := by
  have hitems := h.tokens_eq_of_isLast (by rw [htoken]; exact hend)
  have htokens : (ofSource source).tokens.1 =
      (runOf source).tokens.map .ok ++ [(runOf source).last] := Scanner.tokens_eq _
  have hlast : (runOf source).last = .ok token := by
    rw [htokens, List.map_append, List.map_singleton, htoken] at hitems
    exact List.singleton_inj.mp (List.append_inj' hitems rfl).2
  refine ⟨_, lex_eq_ok.mpr ⟨token, hlast, rfl⟩, ?_⟩
  rw [← hitems, htokens, hlast, List.map_append]
  rfl

end Row

end Scanner

/-! ## Recording -/

/-- The error is the fault that was scanned, or a refusal of the token. -/
def Error.Blames (e : Error) : Except LexError Token → Prop
  | .ok found => (∃ fault, e = .syntactic fault found) ∨ e = .tooDeep found
  | .error fault => e = .lexical fault

/-- A reader and the scanners that it asked for a token. -/
structure Recorder where
  reader : Reader
  calls : List Scanner

namespace Recorder

/-- Scans a token and keeps the scanner. -/
def next (calls : List Scanner) (s : Scanner) : Except (Error × List Scanner) Recorder :=
  match Reader.next s with
  | .ok r => .ok ⟨r, calls ++ [s]⟩
  | .error e => .error (e, calls ++ [s])

/-- Tokens that are scanned when they are asked for, with a record of the scans. -/
def feed : Feed Recorder (Error × List Scanner) where
  next w := Reader.feed.next w.reader
  behind w := next w.calls w.reader.scanner
  refuse refusal w := (Reader.feed.refuse refusal w.reader, w.calls)

/-- The record left out. -/
def erase {α : Type} : Except (Error × List Scanner) (α × Recorder × Nat) →
    Except Error (α × Reader × Nat)
  | .ok (a, w, depth) => .ok (a, w.reader, depth)
  | .error (e, _) => .error e

theorem behind_eq (w : Recorder) :
    feed.behind w = match Reader.feed.behind w.reader with
      | .ok r => .ok ⟨r, w.calls ++ [w.reader.scanner]⟩
      | .error e => .error (e, w.calls ++ [w.reader.scanner]) := rfl

/-- A record changes nothing. -/
theorem erase_run {α : Type} (x : Steps α) (limit : Option Nat) (w : Recorder) (depth : Nat) :
    erase (x.run feed limit w depth) = x.run Reader.feed limit w.reader depth := by
  induction x generalizing w depth with
  | done | refuse => rfl
  | look t ih => exact ih _ w depth
  | take behind ih =>
    rw [Steps.run, Steps.run, behind_eq]
    cases Reader.feed.behind w.reader with
    | ok r => exact ih _ depth
    | error e => rfl
  | enter b inside ih =>
    rw [Steps.run, Steps.run, show feed.next w = Reader.feed.next w.reader from rfl, behind_eq]
    split
    · cases Reader.feed.behind w.reader with
      | ok r =>
        dsimp only
        split
        · rfl
        · exact ih _ (depth + 1)
      | error e => rfl
    · rfl
  | leave outside ih => exact ih w _
  | note n behind ih => exact ih w depth

/-- The scans were made in a row, and the last of them gave the current token. -/
def InRow (source : String) (w : Recorder) : Prop :=
  ∃ calls s, w.calls = calls ++ [s] ∧ Scanner.Row source calls s ∧
    s.scan = (.ok w.reader.current, w.reader.scanner)

/-- The scans were made in a row, and the last of them gave what the error is about. -/
def FailsInRow (source : String) (e : Error × List Scanner) : Prop :=
  ∃ calls s, e.2 = calls ++ [s] ∧ Scanner.Row source calls s ∧ e.1.Blames s.scan.1

variable {source : String} {w w' : Recorder} {calls : List Scanner} {s : Scanner}
  {e : Error × List Scanner}

theorem inRow_next (h : Scanner.Row source calls s) (hw : next calls s = .ok w) :
    InRow source w := by
  unfold next Reader.next at hw
  rcases hscan : s.scan with ⟨fault | token, s'⟩
  · simp [hscan] at hw
  · simp only [hscan] at hw
    cases hw
    exact ⟨calls, s, rfl, h, hscan⟩

theorem next_eq_ok (h : next calls s = .ok w) : Reader.next s = .ok w.reader := by
  unfold next at h
  split at h
  · next r hr =>
    cases h
    exact hr
  · cases h

theorem failsInRow_next (h : Scanner.Row source calls s) (he : next calls s = .error e) :
    FailsInRow source e := by
  unfold next Reader.next at he
  rcases hscan : s.scan with ⟨fault | token, s'⟩
  · simp only [hscan] at he
    cases he
    exact ⟨calls, s, rfl, h, by rw [hscan]; rfl⟩
  · simp [hscan] at he

/-- A token that is seen is not the end, so the row of scans goes on behind it. -/
theorem InRow.row (h : InRow source w) (hsome : (feed.next w).isSome) :
    Scanner.Row source w.calls w.reader.scanner := by
  obtain ⟨calls, s, hcalls, hrow, hscan⟩ := h
  have hlast : Scanner.isLast s.scan.1 = false := by
    rw [hscan]
    exact Option.isNone_eq_false_iff.mpr hsome
  have hnext := hrow.scan hlast
  rwa [hscan, ← hcalls] at hnext

/-- A refusal is of the token that was scanned last. -/
theorem InRow.refuse (h : InRow source w) (refusal : Refusal) :
    FailsInRow source (feed.refuse refusal w) := by
  obtain ⟨calls, s, hcalls, hrow, hscan⟩ := h
  refine ⟨calls, s, hcalls, hrow, ?_⟩
  rw [hscan]
  cases refusal with
  | fault fault => exact .inl ⟨fault, rfl⟩
  | tooDeep => exact .inr rfl

/-- A guarded program scans in a row. -/
theorem InRow.run {α : Type} {x : Steps α} (hx : x.Guarded false) (h : InRow source w)
    (limit : Option Nat) (depth : Nat) :
    (∀ a w' depth', x.run feed limit w depth = .ok (a, w', depth') → InRow source w') ∧
      ∀ e, x.run feed limit w depth = .error e → FailsInRow source e :=
  Steps.Guarded.run_preserves (fun _ hw hsome _ => inRow_next (hw.row hsome))
    (fun _ hw hsome _ => failsInRow_next (hw.row hsome)) (fun _ refusal hw => hw.refuse refusal)
    hx limit h (by simp) depth

end Recorder

namespace Document

/-! ## Reading -/

/-- Reads a document within a limit of depth, with the scanners that it asks for a token. -/
def parseRecording (depth : Option Nat) (source : String) : Except Error Document × List Scanner :=
  match Recorder.next [] (.ofSource source) with
  | .ok w =>
    match (reading source).run Recorder.feed depth w 0 with
    | .ok (definitions, w, _) => (.ok ⟨definitions, some source⟩, w.calls)
    | .error (e, calls) => (.error e, calls)
  | .error (e, calls) => (.error e, calls)

/-- The record left out, it reads as `parseLazily` does. -/
private theorem parseRecording_fst (depth : Option Nat) (source : String) :
    (parseRecording depth source).1 = parseWithin ⟨depth, none⟩ source := by
  rw [← parseLazily_eq]
  unfold parseRecording parseLazily Recorder.next
  cases Reader.next (.ofSource source) with
  | error e => rfl
  | ok r =>
    have herase := Recorder.erase_run (reading source) depth ⟨r, [] ++ [.ofSource source]⟩ 0
    dsimp only at herase ⊢
    rw [← herase]
    cases (reading source).run Recorder.feed depth ⟨r, [] ++ [.ofSource source]⟩ 0 <;> rfl

/-- The scans of a reading that came to this result: each goes on where the one in front of it came
to and begins behind it, so that no lexeme is scanned twice, and the last of them gave what the
reading ended with. -/
structure ScannedFor (source : String) (result : Except Error Document) (calls : List Scanner) :
    Prop where
  inOrder : calls = List.iterate (fun s => s.scan.2) (.ofSource source) calls.length
  forward : (calls.map Scanner.offset).Pairwise (· < ·)
  /-- They give the first tokens of the source, the end at most once and last, or all of its tokens
  and the fault behind them. -/
  items : (∃ tokens, tokens <+: (Scanner.runOf source).found ∧
      calls.map (·.scan.1) = tokens.map .ok) ∨
    ∃ fault, lex source = .error fault ∧
      calls.map (·.scan.1) = (Scanner.runOf source).found.map .ok ++ [.error fault]
  /-- What is read is scanned up to the end. -/
  read : ∀ d, result = .ok d → ∃ tokens, lex source = .ok tokens ∧
    calls.map (·.scan.1) = tokens.map .ok
  /-- An error is about the last item that was scanned. -/
  refused : ∀ e, result = .error e → ∃ item, (calls.map (·.scan.1)).getLast? = some item ∧
    e.Blames item

variable {source : String} {depth : Option Nat}

private theorem scannedFor_of_failsInRow {e : Error × List Scanner}
    (h : Recorder.FailsInRow source e) : ScannedFor source (.error e.1) e.2 := by
  obtain ⟨calls, s, hcalls, hrow, hblames⟩ := h
  rw [hcalls]
  exact {
    inOrder := hrow.eq_iterate_snoc
    forward := hrow.pairwise_offset
    items := hrow.items
    read := by rintro _ ⟨⟩
    refused := by
      rintro _ ⟨⟩
      exact ⟨s.scan.1, by simp, hblames⟩ }

private theorem scannedFor_of_inRow {w : Recorder} {d : Document} (h : Recorder.InRow source w)
    (hend : w.reader.current.isEnd = true) : ScannedFor source (.ok d) w.calls := by
  obtain ⟨calls, s, hcalls, hrow, hscan⟩ := h
  rw [hcalls]
  exact {
    inOrder := hrow.eq_iterate_snoc
    forward := hrow.pairwise_offset
    items := hrow.items
    read := fun _ _ => hrow.items_of_isEnd (by rw [hscan]) hend
    refused := by rintro _ ⟨⟩ }

/-- What is read is read up to the end. -/
private theorem isEnd_of_run {r r' : Reader} {definitions : List Definition} {depth' : Nat}
    (hnext : Reader.next (.ofSource source) = .ok r)
    (hrun : (reading source).run Reader.feed depth r 0 = .ok (definitions, r', depth')) :
    r'.current.isEnd = true := by
  have hagrees := reading_agrees depth hnext
  rw [hrun] at hagrees
  cases hparse : Definition.parseAll (depth.getD (Scanner.runOf source).kinds.length)
      (Scanner.runOf source).kinds with
  | error failure =>
    rw [hparse] at hagrees
    cases hagrees
  | ok result =>
    obtain ⟨ds, rest⟩ := result
    obtain rfl := Definition.rest_eq_nil_of_parseAll hparse
    rw [hparse] at hagrees
    obtain ⟨_, hout, -, hnil⟩ | ⟨_, hout, -⟩ := hagrees
    · cases hout
      rw [Token.isEnd, r'.next_eq, hnil]
      rfl
    · cases hout

private theorem scannedFor_parseRecording (depth : Option Nat) (source : String) :
    ScannedFor source (parseRecording depth source).1 (parseRecording depth source).2 := by
  unfold parseRecording
  cases hnext : Recorder.next [] (.ofSource source) with
  | error e => exact scannedFor_of_failsInRow (Recorder.failsInRow_next .start hnext)
  | ok w =>
    have hw := Recorder.inRow_next .start hnext
    obtain ⟨hread, hrefused⟩ := hw.run (Definition.stepwiseAll source.toList.length).guarded depth 0
    dsimp only
    cases hrun : (reading source).run Recorder.feed depth w 0 with
    | error e => exact scannedFor_of_failsInRow (hrefused e hrun)
    | ok out =>
      obtain ⟨definitions, w', depth'⟩ := out
      have herase := Recorder.erase_run (reading source) depth w 0
      rw [hrun] at herase
      exact scannedFor_of_inRow (hread _ _ _ hrun)
        (isEnd_of_run (Recorder.next_eq_ok hnext) herase.symm)

theorem ScannedFor.length_le {result : Except Error Document} {calls : List Scanner}
    (h : ScannedFor source result calls) :
    calls.length ≤ (Scanner.runOf source).found.length + 1 ∧
      ∀ tokens, lex source = .ok tokens → calls.length ≤ tokens.length := by
  rcases h.items with ⟨tokens, hprefix, hitems⟩ | ⟨fault, hlex, hitems⟩
  · have hlength : calls.length = tokens.length := by simpa using congrArg List.length hitems
    refine ⟨hlength ▸ Nat.le_succ_of_le hprefix.length_le, fun all hall => ?_⟩
    obtain ⟨token, hlast, rfl⟩ := Scanner.lex_eq_ok.mp hall
    have hfound : (Scanner.runOf source).found = (Scanner.runOf source).tokens ++ [token] := by
      rw [Scanner.Run.found, hlast]
      rfl
    exact hlength ▸ hfound ▸ hprefix.length_le
  · have hlength : calls.length = (Scanner.runOf source).found.length + 1 := by
      simpa using congrArg List.length hitems
    refine ⟨Nat.le_of_eq hlength, fun all hall => ?_⟩
    cases hlex.symm.trans hall

/-- **Each token is scanned once, and all loops go on.** Reading token by token scans in a row from
the start, one token a time and none behind the end, with one scan at most for each token of the
source and one for a fault; what is read is scanned to its end. A round of a loop of the grammar
that gives an item takes a token, whatever comes next and at any depth, so that no loop needs more
rounds than there are tokens. -/
theorem scans_once (depth : Option Nat) (source : String) :
    (parseRecording depth source).1 = parseWithin ⟨depth, none⟩ source ∧
    ScannedFor source (parseWithin ⟨depth, none⟩ source) (parseRecording depth source).2 ∧
    (parseRecording depth source).2.length ≤ (Scanner.runOf source).found.length + 1 ∧
    (∀ tokens, lex source = .ok tokens →
      (parseRecording depth source).2.length ≤ tokens.length) ∧
    ∀ {α : Type} {loop : Parser (List α)} {round : Parser (Option α)},
      Parser.Loop loop round → loop = Parser.repeated round ∧ Parser.Advances round ∧
        ∀ n ts, ts.length < n → Parser.collect round n ts = loop ts := by
  have hscanned := scannedFor_parseRecording depth source
  obtain ⟨hlength, hlex⟩ := hscanned.length_le
  rw [parseRecording_fst] at hscanned
  exact ⟨parseRecording_fst depth source, hscanned, hlength, hlex,
    fun h => ⟨h.eq_repeated, h.advances, fun _ _ => h.collect_eq⟩⟩

/-- A fault behind what is refused is never scanned. -/
theorem scans_once_in_front_of_fault :
    lex "a %" = .error ⟨.unexpectedSymbol '%', 2⟩ ∧
    (parseRecording none "a %").2 = [.ofSource "a %"] ∧
    ScannedFor "a %" (parseWithin ⟨none, none⟩ "a %") [.ofSource "a %"] ∧
    (∃ tokens, lex "\x7ba\x7d" = .ok tokens ∧
      (parseRecording none "\x7ba\x7d").2.length ≤ tokens.length) ∧
    Parser.Advances (Parser.eachRound .amp Parser.name) := by
  have hcalls : (parseRecording none "a %").2 = [.ofSource "a %"] := by rfl
  have hscanned := (scans_once none "a %").2.1
  obtain ⟨tokens, htokens⟩ : ∃ tokens, lex "\x7ba\x7d" = .ok tokens := ⟨_, rfl⟩
  have hlength := (scans_once none "\x7ba\x7d").2.2.2.1 tokens htokens
  have hloop := (scans_once none "").2.2.2.2 (.each .amp .interface)
  rw [hcalls] at hscanned
  exact ⟨rfl, hcalls, hscanned, ⟨tokens, htokens, hlength⟩, hloop.2.1⟩

end Document

end GraphQLSyntax
