import GraphQLSyntax.Document
import GraphQLSyntax.Proofs.Steps.Basic
import GraphQLSyntax.Proofs.Token.OneByOne

/-!
# Steps on a scanner

A program can be run on a list of token kinds, all of which are there from the start, and on a
scanner, which is asked for a token when the one in front of it is taken. The two agree as long as
there is a token; the scanner alone can stop at a malformed lexeme.

* `Steps.run_ofList_none`: a run on a list needs no more levels than there are tokens.
* `Steps.run_feed`: a run on a scanner is the run on the kinds of its tokens, with errors at tokens
  of the source.
-/

namespace GraphQLSyntax

/-- Tokens that are there from the start. -/
def Feed.ofList : Feed (List TokenKind) Failure where
  next ts := ts.head?
  behind ts := .ok ts.tail
  refuse refusal ts := ⟨refusal, ts⟩

/-- A scanner and the token in front of it. -/
structure Reader where
  current : Token
  scanner : Scanner

namespace Reader

/-- The token in front of a scanner is its next one. -/
def next (s : Scanner) : Except Error Reader :=
  match s.scan with
  | (.ok token, s) => .ok ⟨token, s⟩
  | (.error e, _) => .error (.lexical e)

/-- Tokens that are scanned when they are asked for. -/
def feed : Feed Reader Error where
  next r := r.current.kind
  behind r := next r.scanner
  refuse
    | .fault f, r => .syntactic f r.current
    | .tooDeep, r => .tooDeep r.current

/-- The tokens from the one in front of the scanner on. -/
def run (r : Reader) : Scanner.Run :=
  if r.current.isEnd then ⟨[], .ok r.current⟩
  else ⟨r.current :: r.scanner.run.1.tokens, r.scanner.run.1.last⟩

/-- Behind the end is the end again. -/
def Valid (r : Reader) : Prop :=
  r.current.isEnd = true → r.current = r.scanner.endToken ∧ r.scanner.ahead = []

variable {r r' : Reader} {s : Scanner} {e : Error}

theorem valid_next (h : next s = .ok r) : r.Valid := by
  intro hend
  unfold next at h
  split at h
  · next token s' hscan =>
    cases h
    obtain ⟨rfl, rfl, -⟩ := Scanner.scan_of_end hscan hend
    exact ⟨rfl, rfl⟩
  · cases h

theorem run_of_next (h : next s = .ok r) : r.run = s.run.1 := by
  unfold next at h
  split at h
  · next token s' hscan =>
    cases h
    unfold run
    cases hend : token.isEnd with
    | true => simp [Scanner.run_of_end hscan hend]
    | false => simp [Scanner.run_of_token hscan hend]
  · cases h

theorem run_of_next_eq_error (h : next s = .error e) :
    ∃ fault, s.run.1 = ⟨[], .error fault⟩ ∧ e = .lexical fault := by
  unfold next at h
  split at h
  · cases h
  · next fault s' hscan =>
    cases h
    exact ⟨fault, Scanner.run_of_error hscan, rfl⟩

theorem kind_isSome_of_not_isEnd {token : Token} (h : ¬ token.isEnd = true) :
    token.kind.isSome := by
  simpa [Token.isEnd, Option.isSome_iff_ne_none] using h

/-- The next token is the first of the run. -/
theorem next_eq (r : Reader) : r.current.kind = r.run.kinds.head? := by
  unfold run
  split
  · next hend => exact Option.isNone_iff_eq_none.mp hend
  · next hend =>
    obtain ⟨k, hk⟩ := Option.isSome_iff_exists.mp (kind_isSome_of_not_isEnd hend)
    simp [Scanner.Run.kinds, hk]

/-- Behind the next token is the rest of the run. -/
theorem run_behind (hr : r.Valid) (h : next r.scanner = .ok r') :
    r'.run.tokens = r.run.tokens.tail ∧ r'.run.last = r.run.last := by
  rw [run_of_next h]
  unfold run
  split
  · next hend =>
    obtain ⟨hcurrent, hahead⟩ := hr hend
    have hscan : r.scanner.scan = (.ok r.scanner.endToken, { r.scanner with ahead := [] }) := by
      unfold Scanner.scan
      rw [hahead]
      rfl
    rw [Scanner.run_of_end hscan rfl, hcurrent]
    exact ⟨rfl, rfl⟩
  · exact ⟨rfl, rfl⟩

/-- Only the last token of a run can have a malformed lexeme behind it. -/
theorem run_behind_eq_error (hr : r.Valid) (h : next r.scanner = .error e) :
    ∃ fault, r.run = ⟨[r.current], .error fault⟩ ∧ e = .lexical fault := by
  obtain ⟨fault, hrun, rfl⟩ := run_of_next_eq_error h
  refine ⟨fault, ?_, rfl⟩
  unfold run
  rw [if_neg, hrun]
  intro hend
  obtain ⟨-, hahead⟩ := hr hend
  simp [next, Scanner.scan, hahead, skipIgnored] at h

/-- All tokens of a run have a kind. -/
theorem kind_isSome {token : Token} (h : token ∈ r.run.tokens) : token.kind.isSome := by
  unfold run at h
  split at h
  · cases h
  · next hend =>
    rcases List.mem_cons.mp h with rfl | h
    · exact kind_isSome_of_not_isEnd hend
    · exact Scanner.kind_isSome h

theorem length_kinds (r : Reader) : r.run.kinds.length = r.run.tokens.length :=
  Scanner.Run.length_kinds fun _ => kind_isSome

theorem kinds_behind (hr : r.Valid) (h : next r.scanner = .ok r') :
    r'.run.kinds = r.run.kinds.tail := by
  rw [Scanner.Run.kinds, (run_behind hr h).1, Scanner.Run.kinds]
  cases htokens : r.run.tokens with
  | nil => rfl
  | cons token tokens =>
    have hsome : token.kind.isSome := kind_isSome (htokens ▸ List.mem_cons_self)
    obtain ⟨k, hk⟩ := Option.isSome_iff_exists.mp hsome
    rw [List.filterMap_cons_some hk]
    rfl

theorem kinds_eq_cons (hr : r.Valid) (h : next r.scanner = .ok r') {k : TokenKind}
    (hk : r.current.kind = some k) : r.run.kinds = k :: r'.run.kinds := by
  rw [r.next_eq] at hk
  obtain ⟨tail, htail⟩ := List.head?_eq_some_iff.mp hk
  rw [kinds_behind hr h, htail, List.tail_cons]

end Reader

namespace Steps

variable {α : Type} {limit : Option Nat}

variable (limit) in
/-- Where no token is ahead, none will be. -/
private theorem run_ofList_nil (x : Steps α) (depth : Nat) :
    (∃ refusal, x.run .ofList limit [] depth = .error ⟨refusal, []⟩) ∨
      ∃ a depth', x.run .ofList limit [] depth = .ok (a, [], depth') := by
  induction x generalizing depth with
  | done x => exact .inr ⟨x, depth, rfl⟩
  | refuse f => exact .inl ⟨.fault f, rfl⟩
  | look next ih => exact ih _ depth
  | take behind ih => exact ih depth
  | enter b inside ih => exact .inl ⟨_, rfl⟩
  | leave outside ih => exact ih _
  | note n behind ih => exact ih depth

/-- A level is entered behind a token of its own. -/
theorem depth_le_of_mem_levels {x : Steps α} {ts : List TokenKind} {depth : Nat}
    {l : Level (List TokenKind)} (h : l ∈ x.levels .ofList ts depth) :
    l.depth ≤ depth + ts.length := by
  induction x generalizing ts depth with
  | done | refuse => cases h
  | look next ih => exact ih _ h
  | take behind ih =>
    have hle : l.depth ≤ depth + ts.tail.length := ih h
    rw [List.length_tail] at hle
    omega
  | enter b inside ih =>
    rw [levels_enter] at h
    split at h
    · next hnext =>
      obtain ⟨tail, rfl⟩ := List.head?_eq_some_iff.mp hnext
      rcases List.mem_cons.mp h with rfl | h
      · exact Nat.add_le_add_left (Nat.succ_le_succ (Nat.zero_le _)) depth
      · have hle : l.depth ≤ depth + 1 + tail.length := ih h
        rw [List.length_cons]
        omega
    · cases h
  | leave outside ih =>
    have hle := ih h
    omega
  | note n behind ih => exact ih h

/-- A run without a limit needs no more levels than there are tokens. -/
theorem run_ofList_none (x : Steps α) (ts : List TokenKind) (depth : Nat) :
    x.run .ofList none ts depth = x.run .ofList (some (depth + ts.length)) ts depth := by
  rw [run_some x ts (Nat.le_add_right depth ts.length), List.find?_eq_none.mpr]
  exact fun l hl => by simpa using depth_le_of_mem_levels hl

/-- A reader that has come some way through the run of a source. -/
structure Along (whole : Scanner.Run) (r : Reader) : Prop where
  valid : r.Valid
  tokens : r.run.tokens <:+ whole.tokens
  last : r.run.last = whole.last

theorem Along.behind {whole : Scanner.Run} {r r' : Reader} (h : Along whole r)
    (hr : Reader.next r.scanner = .ok r') : Along whole r' where
  valid := Reader.valid_next hr
  tokens := (Reader.run_behind h.valid hr).1 ▸ (List.tail_suffix _).trans h.tokens
  last := (Reader.run_behind h.valid hr).2.trans h.last

/-- A refusal is at the current token. -/
theorem Along.refuse {whole : Scanner.Run} {r : Reader} (h : Along whole r)
    (refusal : Refusal) :
    Reader.feed.refuse refusal r = Document.errorOf whole ⟨refusal, r.run.kinds⟩ := by
  obtain ⟨passed, hpassed⟩ := h.tokens
  have hindex : whole.tokens.length - r.run.kinds.length = passed.length := by
    rw [Reader.length_kinds, ← hpassed, List.length_append]
    omega
  have hnext : whole.tokens[passed.length]? = r.run.tokens.head? := by
    rw [← hpassed, List.getElem?_append_right (Nat.le_refl _), Nat.sub_self, List.head?_eq_getElem?]
  have hlast := h.last
  unfold Document.errorOf
  dsimp only
  rw [hindex, hnext, ← hlast]
  unfold Reader.run
  cases r.current.isEnd <;> cases refusal <;> rfl

/-- Where no token is left, the run has come to its end. -/
theorem Along.last_of_kinds_eq_nil {whole : Scanner.Run} {r : Reader} (h : Along whole r)
    (hkinds : r.run.kinds = []) : whole.last = .ok r.current := by
  have htokens : r.run.tokens = [] := by
    rw [← List.length_eq_zero_iff, ← Reader.length_kinds, hkinds]
    rfl
  rw [← h.last]
  unfold Reader.run at htokens ⊢
  split
  · rfl
  · next hend => simp [hend] at htokens

/-- Two readers of one run that are as far are in front of the same tokens. -/
theorem Along.run_eq {whole : Scanner.Run} {r r' : Reader} (h : Along whole r) (h' : Along whole r')
    (hkinds : r.run.kinds = r'.run.kinds) : r.run = r'.run := by
  have hlength := congrArg List.length hkinds
  rw [Reader.length_kinds, Reader.length_kinds] at hlength
  have htokens : r.run.tokens = r'.run.tokens :=
    (List.suffix_of_suffix_length_le h.tokens h'.tokens (Nat.le_of_eq hlength)).eq_of_length hlength
  have hlast := h.last.trans h'.last.symm
  cases hr : r.run
  cases hr' : r'.run
  simp_all

/-- A malformed lexeme stands for all that would come behind it. -/
theorem errorOf_nil {whole : Scanner.Run} {fault : LexError} (h : whole.last = .error fault)
    (refusal : Refusal) : Document.errorOf whole ⟨refusal, []⟩ = .lexical fault := by
  simp [Document.errorOf, h]

/-- An outcome on a scanner is one on a list, except that a malformed lexeme behind the last token
stands for what comes when none is left. -/
def Agrees (whole : Scanner.Run) (out : Except Error (α × Reader × Nat)) :
    Except Failure (α × List TokenKind × Nat) → Prop
  | .error failure => out = .error (Document.errorOf whole failure)
  | .ok (a, rest, depth) =>
    (∃ r, out = .ok (a, r, depth) ∧ Along whole r ∧ r.run.kinds = rest) ∨
      ∃ fault, out = .error (.lexical fault) ∧ rest = [] ∧ whole.last = .error fault

/-- Of runs that agree with the same run on a list, up to `f`, so do the outcomes. -/
theorem Agrees.map_eq {β : Type} {whole : Scanner.Run} {f : β → α}
    {out : Except Error (α × Reader × Nat)} {out' : Except Error (β × Reader × Nat)}
    {read : Except Failure (β × List TokenKind × Nat)}
    (h : Agrees whole out (read.map fun x => (f x.1, x.2))) (h' : Agrees whole out' read) :
    (out.map fun x => (x.1, x.2.1.run, x.2.2)) =
      out'.map fun x => (f x.1, x.2.1.run, x.2.2) := by
  cases read with
  | error failure =>
    obtain rfl : out = _ := h
    obtain rfl : out' = _ := h'
    rfl
  | ok x =>
    obtain ⟨value, rest, depth⟩ := x
    rcases h with ⟨r, rfl, halong, hrest⟩ | ⟨fault, rfl, hnil, hlast⟩
    · rcases h' with ⟨r', rfl, halong', hrest'⟩ | ⟨fault, rfl, hnil, hlast⟩
      · simp [Except.map, halong.run_eq halong' (hrest.trans hrest'.symm)]
      · have hend := halong.last_of_kinds_eq_nil (hrest.trans hnil)
        cases hend.symm.trans hlast
    · rcases h' with ⟨r', rfl, halong', hrest'⟩ | ⟨fault', rfl, -, hlast'⟩
      · have hend := halong'.last_of_kinds_eq_nil (hrest'.trans hnil)
        cases hend.symm.trans hlast
      · cases hlast.symm.trans hlast'
        rfl

/-- Where a malformed lexeme comes next, it ends the run of the source. -/
private theorem Along.stuck {whole : Scanner.Run} {r : Reader} (h : Along whole r) {e : Error}
    (he : Reader.next r.scanner = .error e) :
    ∃ fault, e = .lexical fault ∧ r.run.kinds.tail = [] ∧ whole.last = .error fault := by
  obtain ⟨fault, hrun, rfl⟩ := Reader.run_behind_eq_error h.valid he
  refine ⟨fault, rfl, ?_, by rw [← h.last, hrun]⟩
  rw [← List.length_eq_zero_iff, List.length_tail, Reader.length_kinds, hrun]
  rfl

/-- Whatever the program does where nothing is left, the malformed lexeme stands for it. -/
private theorem agrees_nil {whole : Scanner.Run} {fault : LexError}
    (h : whole.last = .error fault) (x : Steps α) (depth : Nat) :
    Agrees whole (.error (.lexical fault)) (x.run .ofList limit [] depth) := by
  rcases run_ofList_nil limit x depth with ⟨refusal, hx⟩ | ⟨a, depth', hx⟩
  · rw [hx]
    exact congrArg Except.error (errorOf_nil h refusal).symm
  · rw [hx]
    exact .inr ⟨fault, rfl, rfl, h⟩

private theorem feed_behind (r : Reader) : Reader.feed.behind r = Reader.next r.scanner := rfl

private theorem ofList_behind (ts : List TokenKind) : Feed.ofList.behind ts = .ok ts.tail := rfl

variable (limit) in
/-- **A run on a scanner is the run on the kinds of its tokens**, except that it ends at a malformed
lexeme as soon as the token in front of it is taken. -/
theorem run_feed {whole : Scanner.Run} (x : Steps α) {r : Reader} (h : Along whole r)
    (depth : Nat) :
    Agrees whole (x.run Reader.feed limit r depth) (x.run .ofList limit r.run.kinds depth) := by
  induction x generalizing r depth with
  | done x => exact .inl ⟨r, rfl, h, rfl⟩
  | refuse f => exact congrArg Except.error (h.refuse (.fault f))
  | look next ih =>
    have hnext : Reader.feed.next r = Feed.ofList.next r.run.kinds := r.next_eq
    rw [run, run, hnext]
    exact ih _ h depth
  | take behind ih =>
    rw [run, run, feed_behind, ofList_behind]
    cases hr : Reader.next r.scanner with
    | error e =>
      obtain ⟨fault, rfl, hnil, hlast⟩ := h.stuck hr
      rw [hnil]
      exact agrees_nil hlast behind depth
    | ok r' =>
      rw [← Reader.kinds_behind h.valid hr]
      exact ih (h.behind hr) depth
  | enter b inside ih =>
    have hnext : Reader.feed.next r = Feed.ofList.next r.run.kinds := r.next_eq
    rw [run, run, hnext]
    split
    · rw [feed_behind, ofList_behind]
      -- The delimiter is taken before the room is checked, so a malformed lexeme comes first.
      cases hr : Reader.next r.scanner with
      | error e =>
        obtain ⟨fault, rfl, hnil, hlast⟩ := h.stuck hr
        rw [hnil]
        dsimp only
        split
        · exact congrArg Except.error (errorOf_nil hlast .tooDeep).symm
        · exact agrees_nil hlast inside (depth + 1)
      | ok r' =>
        rw [← Reader.kinds_behind h.valid hr]
        dsimp only
        split
        · exact congrArg Except.error ((h.behind hr).refuse .tooDeep)
        · exact ih (h.behind hr) (depth + 1)
    · exact congrArg Except.error (h.refuse (.fault (.expectedPunctuator b.opening)))
  | leave outside ih => exact ih h _
  | note n behind ih => exact ih h depth

end Steps

end GraphQLSyntax
