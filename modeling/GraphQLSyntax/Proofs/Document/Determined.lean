import GraphQLSyntax.Proofs.Document.FirstFault

/-!
# What a result depends on

Of the text of a source only the kinds of its tokens matter for what it is read as, and a token is
refused before those behind it are looked at.

* `Document.refused_of_same_beginning`: sources that begin with the same kinds are refused alike at
  a token among these.
* `Document.determined_by_kinds`: sources of the same kinds are read alike or refused alike.
-/

namespace GraphQLSyntax

open GraphQLSyntax.Parser

/-! ## Refusals at a token -/

namespace Refusal

/-- The error of a refusal at a token. -/
def errorAt (found : Token) : Refusal → Error
  | fault f => .syntactic f found
  | tooDeep => .tooDeep found

theorem errorAt_inj {r r' : Refusal} {t t' : Token} :
    r.errorAt t = r'.errorAt t' ↔ r = r' ∧ t = t' := by
  cases r <;> cases r' <;> simp [errorAt]

/-- A message names a token by its kind. -/
theorem description_errorAt (r : Refusal) {t t' : Token} (h : t.kind = t'.kind) :
    (r.errorAt t).description = (r.errorAt t').description := by
  cases r with
  | fault f =>
    show f.message ++ ", found " ++ t.display = f.message ++ ", found " ++ t'.display
    unfold Token.display
    rw [h]
  | tooDeep => rfl

end Refusal

/-! ## Kinds by index -/

namespace Scanner

variable {source : String}

/-- The tokens of a run have their kinds, and the end behind them has none. -/
theorem map_kind_found (source : String) :
    (runOf source).found.map Token.kind =
      (runOf source).kinds.map some ++ (runOf source).last.toOption.toList.map fun _ => none := by
  have hkinds : (runOf source).tokens.map Token.kind = (runOf source).kinds.map some :=
    Run.map_kind fun _ => kind_isSome
  rw [Run.found, List.map_append, hkinds]
  cases hlast : (runOf source).last with
  | error e => rfl
  | ok token => simp [Except.toOption, kind_of_last hlast]

/-- The kind of the token with an index, if it has one, is the kind with that index. -/
theorem kinds_getElem? {i : Nat} {token : Token} (h : (runOf source).found[i]? = some token) :
    (runOf source).kinds[i]? = token.kind := by
  have hkind : ((runOf source).found.map Token.kind)[i]? = some token.kind := by
    rw [List.getElem?_map, h]
    rfl
  rw [map_kind_found] at hkind
  by_cases hi : i < (runOf source).kinds.length
  · rw [List.getElem?_append_left (by simpa using hi), List.getElem?_map] at hkind
    rw [List.getElem?_eq_getElem hi] at hkind ⊢
    simpa using hkind
  · rw [List.getElem?_append_right (by simpa using hi), List.getElem?_map] at hkind
    obtain ⟨_, -, hnone⟩ := Option.map_eq_some_iff.mp hkind
    rw [← hnone, List.getElem?_eq_none (by omega)]

/-- All tokens of a source that is scanned to its end. -/
theorem found_of_lex {tokens : List Token} (h : lex source = .ok tokens) :
    (runOf source).found = tokens := by
  obtain ⟨token, hlast, rfl⟩ := lex_eq_ok.mp h
  simp [Run.found, hlast, Except.toOption]

/-- The grammar sees the same beginning where the first tokens have the same kinds. -/
theorem kinds_take (source : String) (n : Nat) :
    (runOf source).kinds.take n =
      (((runOf source).found.take n).map Token.kind).filterMap id := by
  have hsome : ((runOf source).kinds.map some).take n = ((runOf source).kinds.take n).map some :=
    List.map_take.symm
  rw [List.map_take, map_kind_found, List.take_append, List.filterMap_append, hsome,
    List.filterMap_map]
  cases (runOf source).last with
  | error e => simp [Except.toOption]
  | ok token =>
    cases n - ((runOf source).kinds.map some).length <;> simp [Except.toOption]

end Scanner

namespace Document

variable {source : String} {pre ahead : List TokenKind}

/-- A refusal is an error at the token that those in front of it end at. -/
theorem errorOf_eq_errorAt_iff (hkinds : (Scanner.runOf source).kinds = pre ++ ahead)
    {r r' : Refusal} {found : Token} :
    errorOf (Scanner.runOf source) ⟨r, ahead⟩ = r'.errorAt found ↔
      r = r' ∧ (Scanner.runOf source).found[pre.length]? = some found := by
  have hlength := congrArg List.length hkinds
  rw [Scanner.length_kinds, List.length_append] at hlength
  have hindex : (Scanner.runOf source).tokens.length - ahead.length = pre.length := by omega
  unfold errorOf Scanner.Run.found
  dsimp only
  rw [hindex]
  cases htoken : (Scanner.runOf source).tokens[pre.length]? with
  | some token =>
    rw [List.getElem?_append_left (List.getElem?_eq_some_iff.mp htoken).1, htoken,
      Option.some_inj]
    exact Refusal.errorAt_inj
  | none =>
    have hend := List.getElem?_eq_none_iff.mp htoken
    have hlast : pre.length - (Scanner.runOf source).tokens.length = 0 := by omega
    rw [List.getElem?_append_right hend, hlast]
    cases (Scanner.runOf source).last with
    | ok token =>
      show r.errorAt token = _ ↔ _ ∧ some token = some found
      rw [Option.some_inj]
      exact Refusal.errorAt_inj
    | error e => cases r' <;> simp [Refusal.errorAt, Except.toOption]

/-- A token that is refused is refused whatever stands behind it. -/
theorem parseAll_eq_error_of_same_beginning {depth : Option Nat} {kinds kinds' : List TokenKind}
    {r : Refusal} {ahead' : List TokenKind}
    (h : Definition.parseAll (depth.getD kinds.length) kinds = .error ⟨r, ahead⟩)
    (hkinds : kinds = pre ++ ahead) (hkinds' : kinds' = pre ++ ahead')
    (hhead : ahead'.head? = ahead.head?) :
    Definition.parseAll (depth.getD kinds'.length) kinds' = .error ⟨r, ahead'⟩ := by
  have hpredictive := (Definition.predictive_parseAll (depth.getD kinds.length)).all kinds
  cases r with
  | fault f =>
    obtain ⟨pre', hpre', -, hfault⟩ := hpredictive.fault h
    obtain rfl := List.append_cancel_right (hpre'.symm.trans hkinds)
    rw [hkinds']
    refine hfault _ ahead' ?_ hhead
    cases depth with
    | none => exact .inr (by simp [Profile.levels])
    | some depth => exact .inl (Nat.le_refl _)
  | tooDeep =>
    cases depth with
    | none => exact (parseAll_ne_tooDeep h).elim
    | some depth =>
      obtain ⟨pre', hpre', -, hdeep⟩ := hpredictive.tooDeep h
      obtain rfl := List.append_cancel_right (hpre'.symm.trans hkinds)
      rw [hkinds']
      exact hdeep ahead' hhead

/-- What is refused is refused at one of the tokens, which those in front of it lead up to. -/
theorem exists_pre_of_parseAll {room : Nat} {kinds : List TokenKind} {failure : Failure}
    (h : Definition.parseAll room kinds = .error failure) :
    ∃ pre, kinds = pre ++ failure.ahead := by
  have hpredictive := (Definition.predictive_parseAll room).all kinds
  obtain ⟨_ | _, ahead⟩ := failure
  · obtain ⟨pre, hpre, -⟩ := hpredictive.fault h
    exact ⟨pre, hpre⟩
  · obtain ⟨pre, hpre, -⟩ := hpredictive.tooDeep h
    exact ⟨pre, hpre⟩

/-! ## Two sources -/

variable {depth : Option Nat} {s t : String} {i : Nat}

/-- The first `n` tokens of two sources, the end among them, have the same kinds. -/
def SameBeginning (n : Nat) (s t : String) : Prop :=
  ((Scanner.runOf s).found.take n).map Token.kind = ((Scanner.runOf t).found.take n).map Token.kind

/-- Two sources are refused alike: for the same reason and with the same words, at tokens with the
same index and of the same kind. -/
def RefusedAlike (depth : Option Nat) (i : Nat) (s t : String) : Prop :=
  ∃ (r : Refusal) (found found' : Token),
    (Scanner.runOf s).found[i]? = some found ∧ (Scanner.runOf t).found[i]? = some found' ∧
    parseWithin ⟨depth, none⟩ s = .error (r.errorAt found) ∧
    parseWithin ⟨depth, none⟩ t = .error (r.errorAt found') ∧
    found.display = found'.display ∧
    (r.errorAt found).description = (r.errorAt found').description

namespace SameBeginning

theorem exists_found (h : SameBeginning (i + 1) s t) {found : Token}
    (hfound : (Scanner.runOf s).found[i]? = some found) :
    ∃ found', (Scanner.runOf t).found[i]? = some found' ∧ found.kind = found'.kind := by
  have hkind := congrArg (·[i]?) h
  simp only [List.getElem?_map, List.getElem?_take_of_lt (Nat.lt_succ_self i), hfound,
    Option.map_some] at hkind
  obtain ⟨found', hfound', hkind'⟩ := Option.map_eq_some_iff.mp hkind.symm
  exact ⟨found', hfound', hkind'.symm⟩

theorem kinds_take (h : SameBeginning (i + 1) s t) :
    (Scanner.runOf s).kinds.take i = (Scanner.runOf t).kinds.take i := by
  have htake := congrArg (List.filterMap id) h
  rw [← Scanner.kinds_take, ← Scanner.kinds_take] at htake
  have hshort := congrArg (List.take i) htake
  rwa [List.take_take, List.take_take, Nat.min_eq_left (Nat.le_succ i)] at hshort

/-- Behind what is in front of a token, the grammar sees its kind next in either source. -/
theorem exists_ahead (h : SameBeginning (pre.length + 1) s t) {found : Token}
    (hfound : (Scanner.runOf s).found[pre.length]? = some found)
    (hkinds : (Scanner.runOf s).kinds = pre ++ ahead) :
    ∃ ahead', (Scanner.runOf t).kinds = pre ++ ahead' ∧ ahead'.head? = ahead.head? := by
  obtain ⟨found', hfound', hkind⟩ := h.exists_found hfound
  have hpre := h.kinds_take
  rw [hkinds, List.take_left' rfl] at hpre
  have hahead : ahead.head? = found.kind := by
    rw [← Scanner.kinds_getElem? hfound, hkinds, List.getElem?_append_right (Nat.le_refl _),
      Nat.sub_self, List.head?_eq_getElem?]
  refine ⟨(Scanner.runOf t).kinds.drop pre.length, ?_, ?_⟩
  · calc (Scanner.runOf t).kinds
        = (Scanner.runOf t).kinds.take pre.length ++ (Scanner.runOf t).kinds.drop pre.length :=
          (List.take_append_drop _ _).symm
      _ = pre ++ (Scanner.runOf t).kinds.drop pre.length := by rw [← hpre]
  · rw [List.head?_drop, Scanner.kinds_getElem? hfound', hahead, hkind]

end SameBeginning

/-- **Sources that begin alike are refused alike**, at a token of that beginning. -/
theorem refused_of_same_beginning {r : Refusal} {found : Token}
    (h : parseWithin ⟨depth, none⟩ s = .error (r.errorAt found))
    (hfound : (Scanner.runOf s).found[i]? = some found) (hsame : SameBeginning (i + 1) s t) :
    RefusedAlike depth i s t := by
  obtain ⟨found', hfound', hkind⟩ := hsame.exists_found hfound
  refine ⟨r, found, found', hfound, hfound', h, ?_, by rw [Token.display, hkind, Token.display],
    r.description_errorAt hkind⟩
  rcases ofRun_eq_error (parseWithin_eq_error.mp h) with
    ⟨⟨refusal, ahead⟩, hparse, herror⟩ | ⟨_, _, _, -, -, herror⟩
  · obtain ⟨pre, hpre⟩ := exists_pre_of_parseAll hparse
    obtain ⟨rfl, hindex⟩ := (errorOf_eq_errorAt_iff hpre).mp herror
    obtain rfl := Scanner.start_injective hindex hfound rfl
    obtain ⟨ahead', hpre', hhead⟩ := hsame.exists_ahead hfound hpre
    have hparse' := parseAll_eq_error_of_same_beginning hparse hpre hpre' hhead
    rw [parseWithin_eq_error, ofRun_run, hparse']
    exact congrArg _ ((errorOf_eq_errorAt_iff hpre').mpr ⟨rfl, hfound'⟩)
  · cases r <;> cases herror

/-- Without a lexical fault, what is refused is refused at a token. -/
theorem exists_errorAt_of_parseAll {ts : List Token} (hs : lex s = .ok ts) {failure : Failure}
    (h : Definition.parseAll (depth.getD (Scanner.runOf s).kinds.length) (Scanner.runOf s).kinds =
      .error failure) :
    ∃ (i : Nat) (found : Token), (Scanner.runOf s).found[i]? = some found ∧
      parseWithin ⟨depth, none⟩ s = .error (failure.refusal.errorAt found) := by
  obtain ⟨pre, hpre⟩ := exists_pre_of_parseAll h
  obtain ⟨token, hlast, -⟩ := Scanner.lex_eq_ok.mp hs
  have hlength : pre.length < (Scanner.runOf s).found.length := by
    have hkinds := congrArg List.length hpre
    rw [Scanner.length_kinds, List.length_append] at hkinds
    simp only [Scanner.Run.found, hlast, Except.toOption, Option.toList_some, List.length_append,
      List.length_singleton]
    omega
  have hfound := List.getElem?_eq_getElem hlength
  refine ⟨pre.length, _, hfound, ?_⟩
  rw [parseWithin_eq_error, ofRun_run, h]
  exact congrArg _ ((errorOf_eq_errorAt_iff hpre).mpr ⟨rfl, hfound⟩)

/-- **What is read or refused is determined by the kinds of the tokens**, and a refusal by those up
to the refused token: sources of the same kinds are read as the same definitions or refused alike,
and a source that begins with the kinds up to a refused token is refused alike, whatever follows. -/
theorem determined_by_kinds (depth : Option Nat) (s t : String) :
    (∀ ts us, lex s = .ok ts → lex t = .ok us → ts.map Token.kind = us.map Token.kind →
      (∃ d d', parseWithin ⟨depth, none⟩ s = .ok d ∧ parseWithin ⟨depth, none⟩ t = .ok d' ∧
        d.definitions = d'.definitions) ∨ ∃ i, RefusedAlike depth i s t) ∧
    ∀ i (r : Refusal) found, parseWithin ⟨depth, none⟩ s = .error (r.errorAt found) →
      (Scanner.runOf s).found[i]? = some found →
      ((Scanner.runOf s).found.take (i + 1)).map Token.kind =
        ((Scanner.runOf t).found.take (i + 1)).map Token.kind →
      RefusedAlike depth i s t := by
  refine ⟨fun ts us hs ht hsame => ?_, fun i r found => refused_of_same_beginning⟩
  cases hparse : Definition.parseAll (depth.getD (Scanner.runOf s).kinds.length)
      (Scanner.runOf s).kinds with
  | error failure =>
    obtain ⟨i, found, hfound, herror⟩ := exists_errorAt_of_parseAll hs hparse
    refine .inr ⟨i, refused_of_same_beginning herror hfound ?_⟩
    rw [SameBeginning, Scanner.found_of_lex hs, Scanner.found_of_lex ht, List.map_take,
      List.map_take, hsame]
  | ok result =>
    obtain ⟨ds, rest⟩ := result
    obtain ⟨token, hlast, -⟩ := Scanner.lex_eq_ok.mp hs
    obtain ⟨token', hlast', -⟩ := Scanner.lex_eq_ok.mp ht
    have hkinds : (Scanner.runOf s).kinds = (Scanner.runOf t).kinds := by
      have hfilter := congrArg (List.filterMap id) hsame
      simpa only [List.filterMap_map, Function.id_comp, Scanner.kinds_of_lex hs,
        Scanner.kinds_of_lex ht] using hfilter
    refine .inl ⟨⟨ds, some s⟩, ⟨ds, some t⟩, ?_, ?_, rfl⟩
    · exact parseWithin_eq_ok.mpr ⟨rfl, ofRun_eq_ok.mpr ⟨⟨rest, hparse⟩, token, hlast⟩⟩
    · rw [hkinds] at hparse
      exact parseWithin_eq_ok.mpr ⟨rfl, ofRun_eq_ok.mpr ⟨⟨rest, hparse⟩, token', hlast'⟩⟩

/-- A type and a level too many are missed in either layout, and what cannot be scanned behind them
does not matter. -/
theorem refused_alike_of_missing_type :
    RefusedAlike none 5 "type A\x7bb:\x7d" "type A \x7b b : \x7d %" ∧
      RefusedAlike (some 0) 1 "\x7ba\x7d" "\x7b a b" ∧
      ∃ d d', parseWithin ⟨none, none⟩ "\x7ba\x7d" = .ok d ∧
        parseWithin ⟨none, none⟩ "#b\n\x7ba,\x7d" = .ok d' ∧ d.definitions = d'.definitions := by
  have hsyntactic : parseWithin ⟨none, none⟩ "type A\x7bb:\x7d" =
      .error (Refusal.errorAt ⟨some (punct .braceClose), 9, 10⟩ (.fault .expectedName)) := rfl
  have hdeep : parseWithin ⟨some 0, none⟩ "\x7ba\x7d" =
      .error (Refusal.errorAt ⟨some (.name "a"), 1, 2⟩ .tooDeep) := rfl
  have hread : ∃ d, parseWithin ⟨none, none⟩ "\x7ba\x7d" = .ok d := ⟨_, rfl⟩
  have hlex : lex "\x7ba\x7d" = .ok [⟨some (punct .braceOpen), 0, 1⟩, ⟨some (.name "a"), 1, 2⟩,
      ⟨some (punct .braceClose), 2, 3⟩, ⟨none, 3, 3⟩] := rfl
  have hlex' : lex "#b\n\x7ba,\x7d" = .ok [⟨some (punct .braceOpen), 3, 4⟩,
      ⟨some (.name "a"), 4, 5⟩, ⟨some (punct .braceClose), 6, 7⟩, ⟨none, 7, 7⟩] := rfl
  refine ⟨(determined_by_kinds none _ _).2 5 _ _ hsyntactic rfl rfl,
    (determined_by_kinds (some 0) _ _).2 1 _ _ hdeep rfl rfl, ?_⟩
  rcases (determined_by_kinds none _ _).1 _ _ hlex hlex' rfl with h | ⟨_, _, _, _, -, -, herror, -⟩
  · exact h
  · obtain ⟨d, hd⟩ := hread
    rw [hd] at herror
    cases herror

end Document

end GraphQLSyntax
