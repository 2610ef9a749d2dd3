import GraphQLSyntax.Proofs.Steps.Scanning
import GraphQLSyntax.Proofs.WellFormed.Basic

/-!
# Accounts of a run

`Written` is what a result is written as and how deep it is. A run keeps the accounts (`Accounts`) if

* no more tokens are written than were taken, and the first is the one that was taken first;
* if no key is repeated, the tokens that were taken are those that are written;
* if no key of an object is repeated, no level is entered that is deeper than what is written.
-/

namespace GraphQLSyntax

/-! ## What is written -/

/-- Tokens that something is written as, and how many levels it is deep. -/
@[ext] structure Written where
  tokens : List TokenKind
  depth : Nat

namespace Written

def empty : Written where
  tokens := []
  depth := 0

/-- Tokens without any level. -/
def flat (ts : List TokenKind) : Written where
  tokens := ts
  depth := 0

def token (t : TokenKind) : Written :=
  flat [t]

instance : Append Written where
  append v w := { tokens := v.tokens ++ w.tokens, depth := max v.depth w.depth }

/-- What stands on a level, with the delimiter that opens it. -/
def within (b : Bracket) (w : Written) : Written where
  tokens := punct b.opening :: w.tokens
  depth := w.depth + 1

def concat (ws : List Written) : Written where
  tokens := ws.flatMap tokens
  depth := listDepth depth ws

/-- Items with a separator between each two. -/
def separated (separator : Punctuator) : List Written → Written
  | [] => empty
  | w :: ws => w ++ concat (ws.map (token (punct separator) ++ ·))

/-- Items between delimiters; nothing at all if there are no items. -/
def enclosed (opening close : Punctuator) (ws : List Written) : Written where
  tokens := GraphQLSyntax.enclosed opening close (ws.map tokens)
  depth := listDepth depth ws

@[simp] theorem tokens_empty : empty.tokens = [] := rfl

@[simp] theorem depth_empty : empty.depth = 0 := rfl

@[simp] theorem tokens_flat (ts : List TokenKind) : (flat ts).tokens = ts := rfl

@[simp] theorem depth_flat (ts : List TokenKind) : (flat ts).depth = 0 := rfl

@[simp] theorem tokens_token (t : TokenKind) : (token t).tokens = [t] := rfl

@[simp] theorem depth_token (t : TokenKind) : (token t).depth = 0 := rfl

@[simp] theorem tokens_append (v w : Written) : (v ++ w).tokens = v.tokens ++ w.tokens := rfl

@[simp] theorem depth_append (v w : Written) : (v ++ w).depth = max v.depth w.depth := rfl

@[simp] theorem tokens_within (b : Bracket) (w : Written) :
    (w.within b).tokens = punct b.opening :: w.tokens := rfl

@[simp] theorem depth_within (b : Bracket) (w : Written) : (w.within b).depth = w.depth + 1 := rfl

@[simp] theorem empty_append (w : Written) : empty ++ w = w := by
  ext1 <;> simp

@[simp] theorem append_empty (w : Written) : w ++ empty = w := by
  ext1 <;> simp

theorem append_assoc (u v w : Written) : u ++ v ++ w = u ++ (v ++ w) := by
  ext1 <;> simp [Nat.max_assoc]

@[simp] theorem tokens_concat (ws : List Written) : (concat ws).tokens = ws.flatMap tokens := rfl

@[simp] theorem depth_concat (ws : List Written) : (concat ws).depth = listDepth depth ws := rfl

@[simp] theorem tokens_enclosed (opening close : Punctuator) (ws : List Written) :
    (enclosed opening close ws).tokens = GraphQLSyntax.enclosed opening close (ws.map tokens) := rfl

@[simp] theorem depth_enclosed (opening close : Punctuator) (ws : List Written) :
    (enclosed opening close ws).depth = listDepth depth ws := rfl

@[simp] theorem concat_nil : concat [] = empty := rfl

@[simp] theorem concat_cons (w : Written) (ws : List Written) :
    concat (w :: ws) = w ++ concat ws := rfl

theorem enclosed_map {α : Type} (opening close : Punctuator) (W : α → Written) (xs : List α) :
    enclosed opening close (xs.map W) =
      ⟨GraphQLSyntax.enclosed opening close (xs.map fun x => (W x).tokens),
        listDepth (fun x => (W x).depth) xs⟩ := by
  ext1 <;> simp [Function.comp_def]

theorem enclosed_of_ne_nil {ws : List Written} (h : ws ≠ []) (opening close : Punctuator) :
    enclosed opening close ws = token (punct opening) ++ (concat ws ++ token (punct close)) := by
  ext1
  · simp [GraphQLSyntax.enclosed, h, List.flatMap_def]
  · simp

end Written

/-! ## Accounts -/

/-- What was taken and gone through, against what is written for it. -/
structure Accounts (depth : Nat) (events : List (Event Reader)) (taken : List TokenKind)
    (w : Written) : Prop where
  length_le : w.tokens.length ≤ taken.length
  head_eq : taken.head? = w.tokens.head?
  tokens_eq : (∀ n, .note n ∈ events → n.Distinct) → taken = w.tokens
  depth_le : (∀ keys, .note (.object keys) ∈ events → keys.Nodup) →
    ∀ l, .level l ∈ events → l.depth ≤ depth + w.depth

namespace Accounts

variable {depth : Nat} {events events' : List (Event Reader)} {taken taken' : List TokenKind}
  {v w : Written}

theorem empty (depth : Nat) : Accounts depth [] [] .empty :=
  ⟨Nat.le_refl _, rfl, fun _ => rfl, by simp⟩

theorem token (depth : Nat) (t : TokenKind) : Accounts depth [] [t] (.token t) :=
  ⟨Nat.le_refl _, rfl, fun _ => rfl, by simp⟩

theorem append (h : Accounts depth events taken v) (h' : Accounts depth events' taken' w) :
    Accounts depth (events ++ events') (taken ++ taken') (v ++ w) where
  length_le := by
    have := h.length_le
    have := h'.length_le
    simp only [Written.tokens_append, List.length_append]
    omega
  head_eq := by
    rw [List.head?_append, h.head_eq, h'.head_eq, Written.tokens_append, List.head?_append]
  tokens_eq hnotes := by
    rw [h.tokens_eq fun n hn => hnotes n (List.mem_append_left _ hn),
      h'.tokens_eq fun n hn => hnotes n (List.mem_append_right _ hn), Written.tokens_append]
  depth_le hkeys l hl := by
    have hle : ∀ {d e}, l.depth ≤ depth + d → d ≤ e → l.depth ≤ depth + e := by
      intro d e hd he
      omega
    rcases List.mem_append.mp hl with hl | hl
    · exact hle (h.depth_le (fun keys hk => hkeys keys (List.mem_append_left _ hk)) l hl)
        (Nat.le_max_left _ _)
    · exact hle (h'.depth_le (fun keys hk => hkeys keys (List.mem_append_right _ hk)) l hl)
        (Nat.le_max_right _ _)

/-- What stands on a level is one level less deep than the level. -/
theorem within (b : Bracket) {r r' : Reader} (h : Accounts (depth + 1) events taken w) :
    Accounts depth (.level ⟨depth + 1, r, r'⟩ :: events) (punct b.opening :: taken)
      (w.within b) where
  length_le := by simpa using h.length_le
  head_eq := rfl
  tokens_eq hnotes := by
    rw [h.tokens_eq fun n hn => hnotes n (List.mem_cons_of_mem _ hn), Written.tokens_within]
  depth_le hkeys l hl := by
    rcases List.mem_cons.mp hl with hl | hl
    · cases hl
      simp only [Written.depth_within]
      omega
    · have := h.depth_le (fun keys hk => hkeys keys (List.mem_cons_of_mem _ hk)) l hl
      simp only [Written.depth_within]
      omega

/-- Entries that were read, with what is left of them in the end. -/
theorem noted (h : Accounts depth events taken v) (n : Note)
    (hlength : w.tokens.length ≤ v.tokens.length) (hhead : v.tokens.head? = w.tokens.head?)
    (htokens : n.Distinct → v.tokens = w.tokens)
    (hdepth : (∀ keys, n = .object keys → keys.Nodup) → v.depth ≤ w.depth) :
    Accounts depth (events ++ [.note n]) taken w where
  length_le := Nat.le_trans hlength h.length_le
  head_eq := h.head_eq.trans hhead
  tokens_eq hnotes := by
    rw [h.tokens_eq fun n hn => hnotes n (List.mem_append_left _ hn), htokens (hnotes n (by simp))]
  depth_le hkeys l hl := by
    have hle := h.depth_le (fun keys hk => hkeys keys (List.mem_append_left _ hk)) l
      (by simpa using hl)
    have := hdepth fun keys hn => hkeys keys (by simp [hn])
    omega

end Accounts

end GraphQLSyntax
