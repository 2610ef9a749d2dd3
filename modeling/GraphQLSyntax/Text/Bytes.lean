/-!
# Byte lengths

Text is handled as a list of characters, and places in it are byte offsets of its UTF-8 form.
`byteLength` counts those bytes.

* `byteLength_append`: lengths add up.
* `eq_of_append_of_byteLength`: they tell where a text is cut.
* `byteLength_toList`: it is the byte size of the string with these characters.
-/

namespace GraphQLSyntax

/-- How many bytes the characters take in UTF-8. -/
def byteLength (cs : List Char) : Nat :=
  cs.foldl (fun n c => n + c.utf8Size) 0

private theorem foldl_utf8Size (cs : List Char) (n : Nat) :
    cs.foldl (fun n c => n + c.utf8Size) n = n + byteLength cs := by
  unfold byteLength
  induction cs generalizing n with
  | nil => rfl
  | cons c cs ih => rw [List.foldl_cons, List.foldl_cons, ih, ih (0 + c.utf8Size)]; omega

@[simp] theorem byteLength_nil : byteLength [] = 0 := rfl

@[simp] theorem byteLength_cons (c : Char) (cs : List Char) :
    byteLength (c :: cs) = c.utf8Size + byteLength cs := by
  rw [byteLength, List.foldl_cons, foldl_utf8Size]; omega

@[simp] theorem byteLength_append (cs ds : List Char) :
    byteLength (cs ++ ds) = byteLength cs + byteLength ds := by
  induction cs with
  | nil => simp
  | cons c cs ih => simp [ih, Nat.add_assoc]

theorem length_le_byteLength (cs : List Char) : cs.length ≤ byteLength cs := by
  induction cs with
  | nil => exact Nat.le_refl _
  | cons c cs ih =>
    have hpos := c.utf8Size_pos
    rw [List.length_cons, byteLength_cons]
    omega

/-- Where one text is cut after as many bytes, it is cut at the same place. -/
theorem eq_of_append_of_byteLength {as bs cs ds : List Char} (h : as ++ bs = cs ++ ds)
    (hbytes : byteLength as = byteLength cs) : as = cs ∧ bs = ds := by
  induction as generalizing cs with
  | nil =>
    cases cs with
    | nil => exact ⟨rfl, h⟩
    | cons c cs =>
      have hpos := c.utf8Size_pos
      rw [byteLength_nil, byteLength_cons] at hbytes
      omega
  | cons a as ih =>
    cases cs with
    | nil =>
      have hpos := a.utf8Size_pos
      rw [byteLength_nil, byteLength_cons] at hbytes
      omega
    | cons c cs =>
      obtain ⟨rfl, htail⟩ := List.cons.inj h
      rw [byteLength_cons, byteLength_cons, Nat.add_left_cancel_iff] at hbytes
      obtain ⟨rfl, rfl⟩ := ih htail hbytes
      exact ⟨rfl, rfl⟩

/-- The characters of a string take as many bytes as the string. -/
theorem byteLength_toList (s : String) : byteLength s.toList = s.utf8ByteSize := by
  obtain ⟨cs, rfl⟩ : ∃ cs, s = String.ofList cs := ⟨s.toList, by simp⟩
  rw [String.toList_ofList]
  induction cs with
  | nil => rfl
  | cons c cs ih =>
    rw [byteLength_cons, ih, String.ofList_cons, String.utf8ByteSize_append,
      String.utf8ByteSize_singleton]

end GraphQLSyntax
