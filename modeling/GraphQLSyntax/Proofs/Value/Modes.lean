import GraphQLSyntax.Proofs.Steps.Values
import GraphQLSyntax.Proofs.Value.Widen

/-!
# Constant and dynamic values

Constant and dynamic values are read alike but for dollar signs. Where a dynamic value is read
without coming to a dollar sign that a value starts with, the constant value is read to the same
end, and the dynamic one is its widening. Otherwise the constant value is refused at the first of
these.

* `Value.starts`: where values start when a dynamic one is read.
* `AlikeUntil.bind`: outcomes that are alike up to the first dollar sign, one behind the other.
* `Value.mirrors_parse`: the two ways to read a list of token kinds.
* `Value.readLazily_mirrors`: the same token by token.
* `Value.const_mirrors_dynamic`: both together.
-/

namespace GraphQLSyntax

open GraphQLSyntax.Parser

/-! ## Up to a dollar sign -/

/-- What is ahead at all places in one run, up to the first where a dollar sign comes next. -/
def firstDollar? (places : List (List TokenKind)) : Option (List TokenKind) :=
  places.find? fun ahead => ahead.head? = some (punct .dollar)

theorem firstDollar?_append (front back : List (List TokenKind)) :
    firstDollar? (front ++ back) = (firstDollar? front).or (firstDollar? back) :=
  List.find?_append

/-- Two outcomes are the same, up to `f`, if there is no dollar sign at the places. Otherwise the
second is the refusal of the first of these. -/
def AlikeUntil {α β : Type} (places : List (List TokenKind)) (f : β → α)
    (x : Except Failure (α × List TokenKind)) (y : Except Failure (β × List TokenKind)) : Prop :=
  match firstDollar? places with
  | none => x = y.map fun out => (f out.1, out.2)
  | some ahead => y = .error ⟨.fault .variableInConst, ahead⟩

namespace AlikeUntil

variable {α β γ δ : Type} {places : List (List TokenKind)} {f : β → α} {g : δ → γ}

theorem same {x : Except Failure (α × List TokenKind)} {y : Except Failure (β × List TokenKind)}
    (h : AlikeUntil places f x y) (hfirst : firstDollar? places = none) :
    x = y.map fun out => (f out.1, out.2) := by
  rwa [AlikeUntil, hfirst] at h

theorem refused {x : Except Failure (α × List TokenKind)} {y : Except Failure (β × List TokenKind)}
    (h : AlikeUntil places f x y) {ahead : List TokenKind}
    (hfirst : firstDollar? places = some ahead) : y = .error ⟨.fault .variableInConst, ahead⟩ := by
  rwa [AlikeUntil, hfirst] at h

variable {p : Parser α} {q : Parser β} {ts : List TokenKind}

theorem map {x : α → γ} {y : β → δ} (h : AlikeUntil places f (p ts) (q ts))
    (hg : ∀ b, x (f b) = g (y b)) : AlikeUntil places g ((x <$> p) ts) ((y <$> q) ts) := by
  unfold AlikeUntil
  rw [map_run, map_run]
  cases hfirst : firstDollar? places with
  | some ahead => simp [h.refused hfirst]
  | none =>
    rw [h.same hfirst]
    cases q ts with
    | error failure => rfl
    | ok out => simp [Except.map, hg]

/-- What comes behind is only reached if there was no dollar sign in front. -/
theorem bind {p' : α → Parser γ} {q' : β → Parser δ}
    {behind : List TokenKind → List (List TokenKind)} (h : AlikeUntil places f (p ts) (q ts))
    (hbehind : ∀ b rest, q ts = .ok (b, rest) →
      AlikeUntil (behind rest) g (p' (f b) rest) (q' b rest)) :
    AlikeUntil
      (places ++ match p ts with
        | .ok (_, rest) => behind rest
        | .error _ => [])
      g ((p >>= p') ts) ((q >>= q') ts) := by
  unfold AlikeUntil
  rw [firstDollar?_append, bind_run, bind_run]
  cases hfirst : firstDollar? places with
  | some ahead => simp [h.refused hfirst]
  | none =>
    rw [h.same hfirst]
    cases hread : q ts with
    | error failure => rfl
    | ok out => exact hbehind out.1 out.2 hread

end AlikeUntil

namespace Value

/-! ## Where values start -/

variable {α β : Type}

/-- Where values start between delimiters, with the places of one item. There are no more items
than tokens. -/
def startsBetween (close : Punctuator) (item : Parser α)
    (places : List TokenKind → List (List TokenKind)) :
    (tokens : Nat) → List TokenKind → List (List TokenKind)
  | 0, _ => []
  | tokens + 1, ts =>
    if ts.head? = some (punct close) ∨ ts = [] then []
    else places ts ++
      match item ts with
      | .ok (_, rest) => startsBetween close item places tokens rest
      | .error _ => []

/-- The value of an entry starts behind the colon. -/
def startsEntry (places : List TokenKind → List (List TokenKind)) :
    List TokenKind → List (List TokenKind)
  | .name _ :: .punctuator .colon :: ts => places ts
  | _ => []

/-- What is ahead wherever a value starts when a dynamic value is read, in order. -/
def starts : (room : Nat) → List TokenKind → List (List TokenKind)
  | 0, ts => [ts]
  | room + 1, ts =>
    ts ::
      match ts with
      | .punctuator .bracketOpen :: ts =>
        startsBetween .bracketClose (parse .dynamic room) (starts room) ts.length ts
      | .punctuator .braceOpen :: ts =>
        startsBetween .braceClose (parseEntry (parse .dynamic room)) (startsEntry (starts room))
          ts.length ts
      | _ => []

/-! ## Two ways to read -/

/-- Up to the first dollar sign at one of the places, `q` reads what `p` does. -/
def Mirrors (f : β → α) (p : Parser α) (q : Parser β)
    (places : List TokenKind → List (List TokenKind)) : Prop :=
  ∀ ts, AlikeUntil (places ts) f (p ts) (q ts)

theorem Mirrors.delimited {f : β → α} {p : Parser α} {q : Parser β}
    {places : List TokenKind → List (List TokenKind)} (h : Mirrors f p q places)
    (hp : Takes 1 p) (hq : Takes 1 q) (close : Punctuator) :
    Mirrors (List.map f) (delimited close p) (delimited close q)
      fun ts => startsBetween close p places ts.length ts := by
  suffices ∀ n ts, ts.length ≤ n → AlikeUntil (startsBetween close p places n ts) (List.map f)
      (Parser.delimited close p ts) (Parser.delimited close q ts) from
    fun ts => this _ ts (Nat.le_refl _)
  intro n ts hn
  induction n generalizing ts with
  | zero =>
    obtain rfl : ts = [] := List.length_eq_zero_iff.mp (Nat.le_zero.mp hn)
    rw [delimited_run hp, delimited_run hq]
    rfl
  | succ n ih =>
    rw [startsBetween, delimited_run hp, delimited_run hq]
    by_cases hclose : ts.head? = some (punct close)
    · simp [hclose, AlikeUntil, firstDollar?, Except.map]
    by_cases hnil : ts = []
    · simp [hnil, AlikeUntil, firstDollar?, Except.map]
    simp only [hclose, hnil, or_self, if_false]
    refine (h ts).bind fun y rest hread => ?_
    have hlt := hq ts y rest hread
    exact (ih rest (by omega)).map fun _ => rfl

theorem parseEntry_run {m : ValueMode} (value : Parser (Value m)) (key : String)
    (ts : List TokenKind) :
    parseEntry value (.name key :: punct .colon :: ts) = (Prod.mk key <$> value) ts := by
  rw [map_eq_bind]
  rfl

/-- The name and the colon of an entry are read alike. -/
theorem Mirrors.entry {p : Parser (Value .dynamic)} {q : Parser (Value .const)}
    {places : List TokenKind → List (List TokenKind)} (h : Mirrors widen p q places) :
    Mirrors (fun entry : String × Value .const => (entry.1, entry.2.widen)) (parseEntry p)
      (parseEntry q) (startsEntry places) := by
  intro ts
  rcases ts with _ | ⟨_ | key | _ | _ | _, ts⟩
  case cons.name =>
    rcases ts with _ | ⟨mark | _ | _ | _ | _, ts⟩
    case cons.punctuator =>
      cases mark
      case colon =>
        rw [startsEntry, parseEntry_run, parseEntry_run]
        exact (h ts).map fun _ => rfl
      all_goals rfl
    all_goals rfl
  all_goals rfl

/-! ## Values -/

/-- Where no dollar sign comes next, only what is inside can come to one. -/
private theorem alike_of_inside {ts : List TokenKind} {inside : List (List TokenKind)}
    {x : Except Failure (Value .dynamic × List TokenKind)}
    {y : Except Failure (Value .const × List TokenKind)} (h : AlikeUntil inside widen x y)
    (hhead : ts.head? ≠ some (punct .dollar)) : AlikeUntil (ts :: inside) widen x y := by
  unfold AlikeUntil firstDollar? at h ⊢
  rwa [List.find?_cons_of_neg (by simpa using hhead)]

private theorem mirrors_step {room : Nat}
    (ih : ∀ r, room = r + 1 → Mirrors widen (parse .dynamic r) (parse .const r) (starts r)) :
    Mirrors widen (parse .dynamic room) (parse .const room) (starts room) := by
  intro ts
  rcases ts with _ | ⟨mark | text | _ | _ | _, ts⟩
  case cons.punctuator =>
    cases mark
    case bracketOpen =>
      cases room with
      | zero => rfl
      | succ r =>
        have hitems := (ih r rfl).delimited (takes_parse r) (takes_parse r) .bracketClose ts
        rw [parse_bracketOpen, parse_bracketOpen]
        exact alike_of_inside (hitems.map fun items => (widen_list items).symm) (by simp)
    case braceOpen =>
      cases room with
      | zero => rfl
      | succ r =>
        have hentry : ∀ {m}, Takes 1 (parseEntry (parse m r)) :=
          takes_parseEntry ((takes_parse r).mono (by omega))
        have hentries := (ih r rfl).entry.delimited hentry hentry .braceClose ts
        rw [parse_braceOpen, parse_braceOpen]
        exact alike_of_inside (hentries.map fun pairs => (widen_ofPairs pairs).symm) (by simp)
    all_goals cases room <;> rfl
  case cons.name =>
    -- A name is a value at once, so no other value starts behind it.
    have hstarts : starts room (.name text :: ts) = [.name text :: ts] := by
      cases room <;> rfl
    rw [hstarts, parse_of_token rfl, parse_of_token rfl]
    exact congrArg (fun value => Except.ok (value, ts)) (widen_ofName text).symm
  all_goals cases room <;> rfl

/-- A constant value is read as a dynamic one up to the first dollar sign, where it is refused. -/
theorem mirrors_parse (room : Nat) :
    Mirrors widen (parse .dynamic room) (parse .const room) (starts room) := by
  induction room with
  | zero => exact mirrors_step (by simp)
  | succ room ih => exact mirrors_step fun r hr => by cases hr; exact ih

end Value

/-! ## Token by token -/

namespace Value

variable {m : ValueMode}

/-- Reads a value, scanning each token when the one in front of it is taken. -/
def readLazily (m : ValueMode) (limit : Option Nat) (depth : Nat) (r : Reader) :
    Except Error (Value m × Reader × Nat) :=
  (stepwise m r.run.kinds.length).steps.run Reader.feed limit r depth

/-- Within a limit that is reached, or was passed before, there is room for no level. -/
private theorem run_of_le {limit depth n : Nat} {ts : List TokenKind} (h : limit ≤ depth)
    (hts : ts.length ≤ n) :
    (stepwise m n).steps.run .ofList (some limit) ts depth =
      (parse m 0 ts).map fun out => (out.1, out.2, depth) := by
  rcases ts with _ | ⟨mark | _ | _ | _ | _, ts⟩
  case cons.punctuator =>
    cases mark
    case bracketOpen | braceOpen =>
      cases n with
      | zero => cases hts
      | succ n =>
        show (if (some limit).any (· ≤ depth) then _ else _) = _
        rw [if_pos (by simpa using h)]
        rfl
    case dollar =>
      cases m with
      | const => cases n <;> rfl
      | dynamic => rcases ts with _ | ⟨_ | _ | _ | _ | _, ts⟩ <;> cases n <;> rfl
    all_goals cases m <;> cases n <;> rfl
  all_goals cases m <;> cases n <;> rfl

/-- The depth may be any, also one that the limit does not admit. -/
private theorem run_ofList {n : Nat} {ts : List TokenKind} (limit : Option Nat) (depth : Nat)
    (hts : ts.length ≤ n) :
    (stepwise m n).steps.run .ofList limit ts depth =
      (parse m (roomLeft limit depth ts) ts).map fun out => (out.1, out.2, depth) := by
  cases limit with
  | none => exact (stepwise m n).run_ofList (by simp) hts
  | some l =>
    rcases Nat.le_total depth l with hdepth | hdepth
    · exact (stepwise m n).follows hdepth hts
    · have hroom : roomLeft (some l) depth ts = 0 := Nat.sub_eq_zero_of_le hdepth
      rw [hroom, run_of_le hdepth hts]

theorem readLazily_agrees (m : ValueMode) (limit : Option Nat) (depth : Nat) {r : Reader}
    (hr : r.Valid) :
    Steps.Agrees r.run (readLazily m limit depth r)
      ((parse m (roomLeft limit depth r.run.kinds) r.run.kinds).map
        fun out => (out.1, out.2, depth)) := by
  rw [← run_ofList limit depth (Nat.le_refl _)]
  exact Steps.run_feed limit _ ⟨hr, List.suffix_refl _, rfl⟩ depth

/-- A refusal in front of a token is at that token of the run. -/
theorem errorOf_eq_syntactic {r : Reader} {fault : SyntaxFault} {ahead : List TokenKind}
    {k : TokenKind} {room : Nat}
    (h : parse m room r.run.kinds = .error ⟨.fault fault, ahead⟩) (hk : ahead.head? = some k) :
    ∃ token, r.run.tokens[r.run.tokens.length - ahead.length]? = some token ∧
      token.kind = some k ∧
      Document.errorOf r.run ⟨.fault fault, ahead⟩ = .syntactic fault token := by
  obtain ⟨passed, hpassed, -⟩ := ((predictive room).all r.run.kinds).fault h
  obtain ⟨behind, rfl⟩ := List.head?_eq_some_iff.mp hk
  have hlength := congrArg List.length hpassed
  rw [r.length_kinds, List.length_append] at hlength
  have hindex : r.run.tokens.length - (k :: behind).length = passed.length := by omega
  have hkind : (r.run.tokens.map Token.kind)[passed.length]? = some (some k) := by
    rw [Scanner.Run.map_kind fun _ => Reader.kind_isSome, hpassed]
    simp
  rw [List.getElem?_map] at hkind
  obtain ⟨token, htoken, hk⟩ := Option.map_eq_some_iff.mp hkind
  refine ⟨token, hindex ▸ htoken, hk, ?_⟩
  unfold Document.errorOf
  dsimp only
  rw [hindex, htoken]

private theorem description_variableInConst {token : Token}
    (h : token.kind = some (punct .dollar)) :
    (Error.syntactic .variableInConst token).description =
      "variables are not allowed in const values, found `$`" := by
  have hdisplay : token.display = "`$`" := by
    rw [Token.display, h]
    rfl
  show SyntaxFault.variableInConst.message ++ ", found " ++ token.display = _
  rw [hdisplay]
  rfl

theorem readLazily_mirrors {limit : Option Nat} {depth : Nat} {r : Reader} (hr : r.Valid) :
    match firstDollar? (starts (roomLeft limit depth r.run.kinds) r.run.kinds) with
    | none =>
      ((readLazily .dynamic limit depth r).map fun out => (out.1, out.2.1.run, out.2.2)) =
        (readLazily .const limit depth r).map fun out => (out.1.widen, out.2.1.run, out.2.2)
    | some ahead => ∃ token,
      r.run.tokens[r.run.tokens.length - ahead.length]? = some token ∧
        token.kind = some (punct .dollar) ∧
        readLazily .const limit depth r = .error (.syntactic .variableInConst token) ∧
        (Error.syntactic .variableInConst token).description =
          "variables are not allowed in const values, found `$`" := by
  have hmirrors := mirrors_parse (roomLeft limit depth r.run.kinds) r.run.kinds
  have hconst := readLazily_agrees .const limit depth hr
  have hdynamic := readLazily_agrees .dynamic limit depth hr
  cases hfirst : firstDollar? (starts (roomLeft limit depth r.run.kinds) r.run.kinds) with
  | none =>
    rw [hmirrors.same hfirst] at hdynamic
    refine Steps.Agrees.map_eq ?_ hconst
    cases hread : parse .const (roomLeft limit depth r.run.kinds) r.run.kinds with
    | error failure =>
      rw [hread] at hdynamic
      exact hdynamic
    | ok out =>
      rw [hread] at hdynamic
      exact hdynamic
  | some ahead =>
    have hrefusal := hmirrors.refused hfirst
    have hdollar : ahead.head? = some (punct .dollar) := by
      simpa using List.find?_some hfirst
    obtain ⟨token, htoken, hkind, herror⟩ := errorOf_eq_syntactic hrefusal hdollar
    have hrefused : readLazily .const limit depth r =
        .error (.syntactic .variableInConst token) := by
      rw [hrefusal] at hconst
      rw [← herror]
      exact hconst
    exact ⟨token, htoken, hkind, hrefused, description_variableInConst hkind⟩

/-! ## One grammar -/

/-- **Constant and dynamic values have one grammar but for dollar signs.** Read from one place,
token by token, at any depth and within any limit, a constant value ends as the dynamic one does
unless that comes to a dollar sign where a value starts, and is refused at the first of these
otherwise. The same holds on a list of tokens, with room for any number of levels. A widened value
has no variables, is written as the same tokens, and has the same tree but for the tags of lists and
objects. -/
theorem const_mirrors_dynamic :
    (∀ (limit : Option Nat) (depth : Nat) (r : Reader), r.Valid →
      match firstDollar? (starts (roomLeft limit depth r.run.kinds) r.run.kinds) with
      | none =>
        ((readLazily .dynamic limit depth r).map fun out => (out.1, out.2.1.run, out.2.2)) =
          (readLazily .const limit depth r).map fun out => (out.1.widen, out.2.1.run, out.2.2)
      | some ahead => ∃ token,
        r.run.tokens[r.run.tokens.length - ahead.length]? = some token ∧
          token.kind = some (punct .dollar) ∧
          readLazily .const limit depth r = .error (.syntactic .variableInConst token) ∧
          (Error.syntactic .variableInConst token).description =
            "variables are not allowed in const values, found `$`") ∧
    (∀ room ts,
      match firstDollar? (starts room ts) with
      | none =>
        parse .dynamic room ts = (parse .const room ts).map fun out => (out.1.widen, out.2)
      | some ahead => parse .const room ts = .error ⟨.fault .variableInConst, ahead⟩) ∧
    ∀ value : Value .const, value.widen.hasVariables = false ∧ value.widen.tokens = value.tokens ∧
      value.widen.sexp = value.sexp.asDynamic :=
  ⟨fun _ _ _ hr => readLazily_mirrors hr, mirrors_parse,
    fun value => ⟨hasVariables_widen value, tokens_widen value, sexp_widen value⟩⟩

/-- The entry with the dollar sign would be replaced, but it is refused. -/
theorem const_refused_at_replaced_value :
    ∃ r, Reader.next (Scanner.ofSource "\x7bk:$x k:1\x7d") = .ok r ∧
      readLazily .const (some 1) 0 r =
        .error (.syntactic .variableInConst ⟨some (punct .dollar), 3, 4⟩) := by
  obtain ⟨r, hr⟩ : ∃ r, Reader.next (Scanner.ofSource "\x7bk:$x k:1\x7d") = .ok r := ⟨_, rfl⟩
  have hkinds : r.run.kinds = [punct .braceOpen, .name "k", punct .colon, punct .dollar,
      .name "x", .name "k", punct .colon, .int 1, punct .braceClose] := by
    rw [Reader.run_of_next hr]
    rfl
  have hfourth : r.run.tokens[r.run.tokens.length - 6]? = some ⟨some (punct .dollar), 3, 4⟩ := by
    rw [Reader.run_of_next hr]
    rfl
  have hfirst : firstDollar? (starts (roomLeft (some 1) 0 r.run.kinds) r.run.kinds) =
      some [punct .dollar, .name "x", .name "k", punct .colon, .int 1, punct .braceClose] := by
    rw [hkinds]
    rfl
  have hrefused := const_mirrors_dynamic.1 (some 1) 0 r (Reader.valid_next hr)
  rw [hfirst] at hrefused
  obtain ⟨token, htoken, -, herror, -⟩ := hrefused
  obtain rfl := Option.some.inj (hfourth.symm.trans htoken)
  exact ⟨r, hr, herror⟩

end Value

end GraphQLSyntax
