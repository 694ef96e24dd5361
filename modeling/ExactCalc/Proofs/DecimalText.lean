import ExactCalc.Proofs.Canonical
import ExactCalc.Proofs.Numeral
/-!
# The text of a decimal

A decimal is written as two numerals with a point between them, the second padded to the scale.  Without the point its
digits are those of the mantissa, zeros in front aside, so that mantissa and scale can be read back from the text, whether
or not the decimal is in its canonical form (`Value.text_decimal_reads_back`).
-/
namespace ExactCalc
namespace Value

/-! ## Padded digits -/

theorem length_paddedDigits {n width : Nat} (hw : 0 < width) (h : n < tenPow width) :
    (paddedDigits n width).length = width := by
  have hlen : (Nat.toDigits 10 n).length ≤ width := (Nat.length_toDigits_le_iff (by decide) hw).2 h
  rw [paddedDigits, List.length_append, List.length_replicate]
  omega

theorem isDigit_of_mem_paddedDigits {n width : Nat} {c : Char} (h : c ∈ paddedDigits n width) : c.isDigit = true := by
  rcases List.mem_append.1 h with h | h
  · rw [(List.mem_replicate.1 h).2]
    rfl
  · exact isDigit_of_mem_toDigits h

theorem ofDigitChars_paddedDigits (n width : Nat) : Nat.ofDigitChars 10 (paddedDigits n width) 0 = n := by
  rw [paddedDigits, Nat.ofDigitChars_append, Nat.ofDigitChars_replicate_zero, Nat.mul_zero,
    Nat.ofDigitChars_ten_toDigits]

/-- The digits of quotient and remainder by a power of ten, one after the other, are those of the number. -/
theorem ofDigitChars_whole_fraction (n : Nat) {s : Nat} (hs : 0 < s) :
    Nat.ofDigitChars 10 (Nat.toDigits 10 (n / tenPow s) ++ paddedDigits (n % tenPow s) s) 0 = n := by
  rw [Nat.ofDigitChars_append, Nat.ofDigitChars_ten_toDigits, Nat.ofDigitChars_eq_ofDigitChars_zero,
    length_paddedDigits hs (Nat.mod_lt n (tenPow_pos s)), ofDigitChars_paddedDigits]
  exact Nat.div_add_mod n (tenPow s)

/-! ## The written form -/

/-- The written form of a decimal: a `-` if it is negative, its whole part without a zero too many in front, a point, and
as many digits as the scale says. -/
structure DecimalForm (negative : Prop) [Decidable negative] (scale : Nat) (cs whole fraction : List Char) : Prop where
  eq       : cs = (if negative then ['-'] else []) ++ whole ++ '.' :: fraction
  nonempty : whole ≠ []
  leading  : whole.head? = some '0' → whole = ['0']
  digits   : ∀ c ∈ whole ++ fraction, c.isDigit = true
  length   : fraction.length = scale

theorem decimalForm_decimalChars (m : Int) {s : Nat} (hs : 0 < s) :
    DecimalForm (m < 0) s (decimalChars m s) (Nat.toDigits 10 (m.natAbs / tenPow s))
      (paddedDigits (m.natAbs % tenPow s) s) where
  eq       := if_neg hs.ne'
  nonempty := Nat.toDigits_ne_nil
  leading  := by
    intro h
    rcases Nat.eq_zero_or_pos (m.natAbs / tenPow s) with hz | hpos
    · rw [hz, Nat.toDigits_zero]
    · exact absurd h (head?_toDigits_ne_zero hpos)
  digits   := List.forall_mem_append.2 ⟨fun _ => isDigit_of_mem_toDigits, fun _ => isDigit_of_mem_paddedDigits⟩
  length   := length_paddedDigits hs (Nat.mod_lt _ (tenPow_pos s))

/-! ## Reading back -/

/-- Reads an unsigned decimal: the number that its digits make with the point removed, and how many come after the
point. -/
def readUnsigned (cs : List Char) : Nat × Nat :=
  (Nat.ofDigitChars 10 (cs.filter (· != '.')) 0, (cs.dropWhile (· != '.')).tail.length)

/-- **Reads a decimal**: mantissa and scale. -/
def readDecimal : List Char → Int × Nat
  | '-' :: cs => (-((readUnsigned cs).1 : Int), (readUnsigned cs).2)
  | cs        => ((readUnsigned cs).1, (readUnsigned cs).2)

theorem readDecimal_signed {negative : Prop} [Decidable negative] {cs : List Char} (h : cs.head? ≠ some '-') :
    readDecimal ((if negative then ['-'] else []) ++ cs) =
      (if negative then -((readUnsigned cs).1 : Int) else (readUnsigned cs).1, (readUnsigned cs).2) := by
  split
  · rfl
  · rw [List.nil_append, readDecimal]
    rintro body rfl
    exact h rfl

theorem readUnsigned_append {whole fraction : List Char} (hw : ∀ c ∈ whole, c.isDigit = true)
    (hf : ∀ c ∈ fraction, c.isDigit = true) :
    readUnsigned (whole ++ '.' :: fraction) = (Nat.ofDigitChars 10 (whole ++ fraction) 0, fraction.length) := by
  have hpoint : ∀ c : Char, c.isDigit = true → (c != '.') = true := fun c hc => bne_iff_ne.2 (ne_of_isDigit hc rfl)
  have hfilter : (whole ++ '.' :: fraction).filter (· != '.') = whole ++ fraction := by
    rw [List.filter_append, List.filter_cons_of_neg (by decide), List.filter_eq_self.2 fun c hc => hpoint c (hw c hc),
      List.filter_eq_self.2 fun c hc => hpoint c (hf c hc)]
  have hdrop : (whole ++ '.' :: fraction).dropWhile (· != '.') = '.' :: fraction :=
    List.dropWhile_append_of_pos fun c hc => hpoint c (hw c hc)
  rw [readUnsigned, hfilter, hdrop, List.tail_cons]

namespace DecimalForm
variable {negative : Prop} [Decidable negative] {s : Nat} {cs whole fraction : List Char}

/-- A form is read as the number that its digits make, under its sign. -/
theorem readDecimal_eq (h : DecimalForm negative s cs whole fraction) :
    readDecimal cs = (if negative then -(Nat.ofDigitChars 10 (whole ++ fraction) 0 : Int)
      else Nat.ofDigitChars 10 (whole ++ fraction) 0, s) := by
  obtain ⟨hw, hf⟩ := List.forall_mem_append.1 h.digits
  have hhead : (whole ++ '.' :: fraction).head? ≠ some '-' := by
    rw [List.head?_append_of_ne_nil _ h.nonempty]
    exact fun hc => ne_of_isDigit (hw _ (List.mem_of_mem_head? hc)) rfl rfl
  rw [h.eq, List.append_assoc, readDecimal_signed hhead, readUnsigned_append hw hf, h.length]

theorem notMem (h : DecimalForm negative s cs whole fraction) {c : Char} (hd : c.isDigit = false) (hs : c ≠ '-')
    (hp : c ≠ '.') : c ∉ cs := by
  have hdigits : c ∉ whole ++ fraction := fun hc => ne_of_isDigit (h.digits c hc) hd rfl
  rw [List.mem_append, not_or] at hdigits
  rw [h.eq, List.mem_append, List.mem_append, List.mem_cons]
  split <;> simp [*]

theorem minus_mem_iff (h : DecimalForm negative s cs whole fraction) : '-' ∈ cs ↔ negative := by
  have hdigits : '-' ∉ whole ++ fraction := fun hc => ne_of_isDigit (h.digits _ hc) rfl rfl
  rw [List.mem_append, not_or] at hdigits
  rw [h.eq, List.mem_append, List.mem_append, List.mem_cons]
  split <;> simp [*]

end DecimalForm

theorem readDecimal_decimalChars (m : Int) {s : Nat} (hs : 0 < s) : readDecimal (decimalChars m s) = (m, s) := by
  rw [(decimalForm_decimalChars m hs).readDecimal_eq, ofDigitChars_whole_fraction m.natAbs hs, Prod.mk.injEq]
  refine ⟨?_, rfl⟩
  split <;> omega

theorem toList_text_decimal (m : Int) (s : Nat) : (decimal m s).text.toList = decimalChars m s :=
  String.toList_ofList

theorem text_decimal_inj {m m' : Int} {s s' : Nat} (hs : 0 < s) (hs' : 0 < s')
    (h : (decimal m s).text = (decimal m' s').text) : m = m' ∧ s = s' := by
  have hread := congrArg (readDecimal ∘ String.toList) h
  rwa [Function.comp_apply, Function.comp_apply, toList_text_decimal, toList_text_decimal, readDecimal_decimalChars m hs,
    readDecimal_decimalChars m' hs', Prod.mk.injEq] at hread

/-- **Decimal printing loses nothing.**  A decimal with digits after the point, in its canonical form or not, is written
with a `-` just if its mantissa is negative, a whole part without a zero too many, a point, and as many digits as its
scale says.  From that text its mantissa and its scale are read back, so no other decimal has it. -/
theorem text_decimal_reads_back (m : Int) {s : Nat} (hs : 0 < s) :
    (∃ whole fraction, DecimalForm (m < 0) s (decimal m s).text.toList whole fraction) ∧
      readDecimal (decimal m s).text.toList = (m, s) ∧
      ('-' ∈ (decimal m s).text.toList ↔ m < 0) ∧
      ∀ m' s', 0 < s' → (m', s') ≠ (m, s) → (decimal m' s').text ≠ (decimal m s).text := by
  have hform := decimalForm_decimalChars m hs
  rw [toList_text_decimal]
  refine ⟨⟨_, _, hform⟩, readDecimal_decimalChars m hs, hform.minus_mem_iff, fun m' s' hs' hne h => hne ?_⟩
  obtain ⟨rfl, rfl⟩ := text_decimal_inj hs' hs h
  rfl

theorem text_decimal_reads_back_padded :
    0 < 4 ∧ (decimal (-250) 4).text = "-0.0250" ∧ readDecimal "-0.0250".toList = (-250, 4) ∧
      ('-' ∈ "-0.0250".toList ↔ (-250 : Int) < 0) ∧ (decimal (-25) 3).text ≠ "-0.0250" := by
  have ht : (decimal (-250) 4).text = "-0.0250" := by decide +kernel
  obtain ⟨-, hread, hminus, hne⟩ := text_decimal_reads_back (-250) (s := 4) (by decide)
  rw [ht] at hread hminus hne
  exact ⟨by decide, ht, hread, hminus, hne (-25) 3 (by decide) (by decide)⟩

end Value

end ExactCalc
