import GraphQLSyntax.Proofs.Double.Shortest
import GraphQLSyntax.Proofs.Token.Tiling

/-!
# Floats in a source

The literal form of every double that is a number is scanned as one float token, which takes all of
the text and is the double, to the sign of a zero. The text has no digit too many for that, and no
double is nearer to what it says.

* `Double.lex_literal`: the literal form is scanned as the double.
-/

namespace GraphQLSyntax

namespace Decimal

/-- The text of a decimal is not that of an integer. -/
theorem mem_text (x : Decimal) : '.' ∈ x.text ∨ 'e' ∈ x.text := by
  have hpointed : ∀ digits whole, '.' ∈ pointed digits whole := fun digits whole =>
    List.mem_append_right _ List.mem_cons_self
  simp only [text]
  split
  · exact .inl (by decide)
  · split
    · left
      unfold positional
      split
      · exact List.mem_append_left _ (List.mem_append_left _ (by decide))
      · exact hpointed _ _
    · right
      exact List.mem_append_left _ (List.mem_append_right _ List.mem_cons_self)

end Decimal

namespace Double

/-- A finite double is written by its sign and the digits of its shortest decimal, with a point or
an exponent. -/
structure WrittenShortest (x : Double) : Prop where
  text : x.literal = (if x.negative then ['-'] else []) ++ x.shortest.text
  pointed : '.' ∈ x.shortest.text ∨ 'e' ∈ x.shortest.text
  shortest : x.IsShortest x.shortest

theorem writtenShortest {x : Double} (h : x.isNaN = false) (hfinite : x.isInfinite = false) :
    x.WrittenShortest := by
  have hlt : x.magnitude.toNat < infiniteMagnitude := by
    have hle := Nat.not_lt.mp (of_decide_eq_false h)
    have hne : x.magnitude.toNat ≠ infiniteMagnitude := by simpa [isInfinite] using hfinite
    omega
  refine ⟨?_, x.shortest.mem_text, isShortest_shortest hlt⟩
  rw [literal_eq h]
  simp only [hfinite, Bool.false_eq_true, if_false]

/-- The literal form of a number is scanned as the number. -/
theorem lex_literal_of_isNumber {x : Double} (h : x.isNaN = false) :
    lex (String.ofList x.literal) = .ok [⟨some (.float x), 0, byteLength x.literal⟩,
      ⟨none, byteLength x.literal, byteLength x.literal⟩] := by
  have hreadable : (TokenKind.float x).isReadable = true := by simp [TokenKind.isReadable, h]
  have hends : (TokenKind.float x).EndsBefore [] := by
    rintro c ⟨⟩
  obtain ⟨c, cs, hcs, hcomment, hblank, hlexeme⟩ := lexeme_spelling hreadable hends
  rw [List.append_nil] at hlexeme
  have htext : x.literal = c :: cs := hcs
  rw [htext]
  exact lex_of_lexeme hcomment hblank hlexeme

/-- **The text of a float reads back as the same float**, for every 64 bits that are a number. The
text has the fewest digits for that, and decimals are read as the nearest double. -/
theorem lex_literal {bits : UInt64} (h : (ofBits bits).isNaN = false) :
    (∃ x : Double, x.toBits = bits ∧
      lex (String.ofList (ofBits bits).literal) =
        .ok [⟨some (.float x), 0, byteLength (ofBits bits).literal⟩,
          ⟨none, byteLength (ofBits bits).literal, byteLength (ofBits bits).literal⟩]) ∧
    ((ofBits bits).isInfinite = false → (ofBits bits).WrittenShortest) ∧
    ∀ (negative : Bool) (d : Decimal), (d.toDouble negative).negative = negative ∧
      IsNearest d.value (d.toDouble negative) :=
  ⟨⟨ofBits bits, toBits_ofBits bits, lex_literal_of_isNumber h⟩, writtenShortest h,
    fun negative d => ⟨rfl, isNearest_toDouble negative d⟩⟩

/-- Both zeros and both infinities are numbers. -/
theorem lex_literal_of_negative_zero :
    lex "-0.0" = .ok [⟨some (.float (ofBits 0x8000000000000000)), 0, 4⟩, ⟨none, 4, 4⟩] ∧
      (ofBits 0x8000000000000000).WrittenShortest := by
  have hnumber : (ofBits 0x8000000000000000).isNaN = false := by decide
  obtain ⟨⟨x, hbits, hlex⟩, hshortest, -⟩ := lex_literal hnumber
  have htext : (ofBits 0x8000000000000000).literal = "-0.0".toList := by decide +kernel
  rw [htext, String.ofList_toList] at hlex
  refine ⟨?_, hshortest (by decide)⟩
  rw [hlex, ← hbits, ofBits_toBits]
  rfl

end Double

end GraphQLSyntax
