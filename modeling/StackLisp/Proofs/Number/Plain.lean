import Mathlib
import StackLisp.Proofs.Printing

/-!
# Numbers are printed plain and exact

A finite number is printed in plain notation.  Its digits are the shortest that read back, from
which trailing zeros have been taken, so that no zero stands at the end behind a point.  The view by
constructors puts the point elsewhere, or a power of ten behind the digits.  **Both denote the same
rational number** (`Decimal.value`), with the same sign (`Numeral.write_exact`).
-/

namespace StackLisp

/-! ## Values -/

namespace Decimal

/-- **The rational number that a decimal is.** -/
def value (d : Decimal) : ℚ :=
  d.digits * 10 ^ d.exponent

/-- Zeros may move from the digits to the exponent. -/
theorem value_shift (n k : Nat) (e : Int) : value ⟨n * 10 ^ k, e⟩ = value ⟨n, e + k⟩ := by
  simp only [value, Nat.cast_mul, Nat.cast_pow, Nat.cast_ofNat]
  rw [zpow_add₀ (by norm_num), zpow_natCast, mul_assoc, mul_comm ((10 : ℚ) ^ k)]

theorem value_zeros (d : Decimal) (zeros : Nat) :
    value ⟨d.digits * 10 ^ zeros, d.exponent - zeros⟩ = d.value := by
  rw [value_shift, sub_add_cancel]

/-! ## The shortest decimals -/

/-- Removing all trailing zeros leaves none. -/
theorem trimZeros_mod {fuel : Nat} {d : Decimal} (h0 : d.digits ≠ 0) (hlt : d.digits < 10 ^ fuel) :
    (trimZeros fuel d).digits % 10 ≠ 0 := by
  induction fuel generalizing d with
  | zero => exact absurd hlt (by omega)
  | succ fuel ih =>
    unfold trimZeros
    split
    · rename_i hzero
      rw [Nat.pow_succ] at hlt
      exact ih (by simp only; omega) (by simp only; omega)
    · rename_i hlast
      exact fun hzero => hlast ⟨hzero, h0⟩

theorem normalize_mod {d : Decimal} (h0 : d.digits ≠ 0) : d.normalize.digits % 10 ≠ 0 :=
  trimZeros_mod h0
    ((Nat.length_toDigits_le_iff (by decide) Nat.length_toDigits_pos).mp (Nat.le_refl _))

theorem digits_ne_zero {w : Nat} {d : Decimal} (h0 : w ≠ 0) (h : d.nearestWord = w) :
    d.digits ≠ 0 := by
  rintro hzero
  rw [nearestWord, if_pos hzero] at h
  exact h0 h.symm

/-- **The shortest decimal** of a double is zero, or its last digit is not. -/
theorem shortest_mod (w : Nat) : shortest w = ⟨0, 0⟩ ∨ (shortest w).digits % 10 ≠ 0 := by
  unfold shortest
  by_cases h0 : w = 0
  · exact .inl (if_pos h0)
  · rw [if_neg h0]
    refine .inr (normalize_mod ?_)
    cases hsearch : search? w searchLength (coarsest (Double.units w)) with
    | some d => exact digits_ne_zero h0 (nearestWord_of_search? hsearch)
    | none =>
      have hfives : ∀ k, Nat.pow 5 k ≠ 0 := fun k => Nat.ne_of_gt (Nat.pow_pos (by decide))
      exact Nat.mul_ne_zero (Double.units_ne_zero h0) (hfives 1074)

end Decimal

namespace Numeral
variable {sign : List Char} {negative : Bool}

/-! ## The view by constructors -/

/-- The digits of a power of ten in scientific notation, of which there are two at least. -/
theorem digitsValue_padded {n : Nat} {digits : List Char}
    (h : (if (Nat.toDigits 10 n).length < 2 then '0' :: Nat.toDigits 10 n
      else Nat.toDigits 10 n) = digits) :
    digits ≠ [] ∧ (∀ c ∈ digits, Text.isDigit c = true) ∧ Text.digitsValue digits = n := by
  have hall : ∀ c ∈ Nat.toDigits 10 n, Text.isDigit c = true :=
    fun c hc => Text.isDigit_of_isDigit (Text.isDigit_of_mem_toDigits c hc)
  split at h <;> subst h
  · refine ⟨List.cons_ne_nil _ _, List.forall_mem_cons.mpr ⟨by decide, hall⟩, ?_⟩
    exact (Text.digitsValue_zeros_append 1 _).trans (Text.digitsValue_toDigits n)
  · exact ⟨Nat.toDigits_ne_nil, hall, Text.digitsValue_toDigits n⟩

/-- The power of ten in scientific notation. -/
theorem scale_scientific (n : Int) :
    Scale ('e' :: (if n < 0 then '-' else '+') ::
      (if (Nat.toDigits 10 n.natAbs).length < 2 then '0' :: Nat.toDigits 10 n.natAbs
        else Nat.toDigits 10 n.natAbs)) n := by
  obtain ⟨hne, hall, hvalue⟩ := digitsValue_padded (n := n.natAbs) rfl
  split
  · rename_i hneg
    have hscale := Scale.marked (.inl rfl) .minus hne hall
    rwa [if_pos rfl, hvalue, Int.ofNat_natAbs_of_nonpos (Int.le_of_lt hneg), Int.neg_neg] at hscale
  · rename_i hneg
    have hscale := Scale.marked (.inl rfl) .plus hne hall
    rwa [if_neg Bool.false_ne_true, hvalue, Int.natAbs_of_nonneg (Int.not_lt.mp hneg)] at hscale

/-- **Scientific notation denotes the decimal.** -/
theorem denotes_scientific (hs : Signed sign negative) (d : Decimal) :
    Denotes (sign ++ d.scientific.toList) negative d := by
  have hdigits : ∀ c ∈ d.digitChars, Text.isDigit c = true :=
    fun c hc => Text.isDigit_of_isDigit (Text.isDigit_of_mem_toDigits c hc)
  have hvalue : Text.digitsValue d.digitChars = d.digits := Text.digitsValue_toDigits _
  have hscale := scale_scientific (d.point - 1)
  unfold Decimal.scientific
  rcases hchars : d.digitChars with _ | ⟨c, _ | ⟨c', cs⟩⟩
  · exact absurd hchars Nat.toDigits_ne_nil
  · rw [hchars] at hdigits hvalue
    have hdenotes := Denotes.intro hs (.whole (List.cons_ne_nil c []) hdigits) hscale
    have hexponent : d.point - 1 - ([] : List Char).length = d.exponent := by
      simp [Decimal.point, hchars]
    rw [List.append_nil, hvalue, hexponent] at hdenotes
    simp only [String.toList_ofList]
    exact hdenotes
  · rw [hchars] at hdigits hvalue
    have hdenotes := Denotes.intro hs (.point (List.cons_ne_nil c []) hdigits) hscale
    have hexponent : d.point - 1 - (c' :: cs).length = d.exponent := by
      rw [Decimal.point, hchars]
      simp only [List.length_cons]
      omega
    rw [hexponent, show Text.digitsValue ([c] ++ c' :: cs) = d.digits from hvalue] at hdenotes
    simp only [String.toList_ofList]
    exact hdenotes

/-- **The view by constructors denotes the decimal**, up to zeros. -/
theorem exists_denotes_inspectDecimal (hs : Signed sign negative) (d : Decimal) :
    ∃ d', Denotes (sign ++ (inspectDecimal d).toList) negative d' ∧ d'.value = d.value := by
  unfold inspectDecimal
  split
  · rename_i hzero
    have hzeros : ∀ c ∈ ['0'] ++ ['0'], c.isDigit = true := Text.isDigit_of_mem_zeros (k := 2)
    have hvalue : Text.digitsValue (['0'] ++ ['0']) = 0 := Text.digitsValue_zeros_append 2 []
    have htext : "0.0".toList = ['0'] ++ '.' :: ['0'] := by simp
    rw [htext]
    refine ⟨_, .pointed hs (List.cons_ne_nil '0' []) hzeros, ?_⟩
    rw [hvalue, Decimal.value, Decimal.value, hzero, Nat.cast_zero, zero_mul, zero_mul]
  split
  · split
    · rename_i hexponent
      obtain ⟨whole, hne, hdigits, htext, zeros, hvalue, hzeros⟩ |
        ⟨whole, fraction, -, hfraction, -, -, hd⟩ := d.plain_shape
      · have hzero : ∀ c ∈ ['0'], c.isDigit = true := Text.isDigit_of_mem_zeros (k := 1)
        have hten := Text.digitsValue_append_zeros whole 1
        rw [List.replicate_one] at hten
        have hpoint : ".0".toList = '.' :: ['0'] := by simp
        rw [String.toList_append, htext, hpoint]
        refine ⟨_, .pointed hs hne (List.forall_mem_append.mpr ⟨hdigits, hzero⟩), ?_⟩
        rw [hten, Decimal.value_shift, hvalue, Decimal.value_shift, List.length_singleton,
          neg_add_cancel, zero_add, ← hzeros]
      · have hpos := List.length_pos_of_ne_nil hfraction
        rw [← hd] at hexponent
        simp only at hexponent
        omega
    · obtain ⟨zeros, hdenotes⟩ := exists_denotes_plain hs d
      exact ⟨_, hdenotes, d.value_zeros zeros⟩
  · exact ⟨d, denotes_scientific hs d, rfl⟩

theorem inspect_toList {x : Float} (h : Double.isFinite x = true) :
    (inspect x).toList = (if Double.isNegative x then ['-'] else []) ++
      (inspectDecimal (Decimal.shortest (Double.word x))).toList := by
  rw [inspect, Double.isNaN_of_isFinite h, if_neg Bool.false_ne_true, if_pos h,
    String.toList_append, signText]
  cases Double.isNegative x <;> rfl

/-! ## Finite numbers -/

/-- **The text of a finite number**: a minus sign if it is negative, digits, and perhaps a point and
more digits, the last of which is not zero. -/
theorem write_shape {x : Float} (h : Double.isFinite x = true) :
    ∃ whole fraction : List Char, whole ≠ [] ∧ (∀ c ∈ whole ++ fraction, c.isDigit = true) ∧
      (write x).toList = (if Double.isNegative x then ['-'] else []) ++
        (whole ++ if fraction = [] then [] else '.' :: fraction) ∧
      fraction.getLast? ≠ some '0' := by
  rw [write_toList h]
  obtain ⟨whole, hne, hdigits, htext, -⟩ | ⟨whole, fraction, hne, hfraction, hdigits, htext, hd⟩ :=
    (Decimal.shortest (Double.word x)).plain_shape
  · exact ⟨whole, [], hne, by simpa using hdigits, by simp [htext], by simp⟩
  · refine ⟨whole, fraction, hne, hdigits, by simp [htext, hfraction], fun hlast => ?_⟩
    obtain ⟨front, rfl⟩ := List.getLast?_eq_some_iff.mp hlast
    have hten := Text.digitsValue_append_zeros (whole ++ front) 1
    rw [List.replicate_one, List.append_assoc] at hten
    rcases Decimal.shortest_mod (Double.word x) with hzero | hmod
    · have hexponent := congrArg Decimal.exponent (hd.trans hzero)
      simp at hexponent
      omega
    · rw [← hd, hten] at hmod
      simp only at hmod
      omega

/-- **The text of a finite number does not end in a point and a zero.** -/
theorem not_suffix_write {x : Float} (h : Double.isFinite x = true) :
    ¬ ['.', '0'] <:+ (write x).toList := by
  obtain ⟨whole, fraction, hne, hdigits, htext, hlast⟩ := write_shape h
  intro hend
  rw [htext] at hend
  by_cases hnone : fraction = []
  · -- Without a point there is none to end in.
    have hpoint : '.' ∈ (if Double.isNegative x then ['-'] else []) ++ whole := by
      simpa [hnone] using hend.subset List.mem_cons_self
    rcases List.mem_append.mp hpoint with hsign | hwhole
    · cases hnegative : Double.isNegative x <;> simp [hnegative] at hsign
    · exact absurd (hdigits '.' (List.mem_append_left _ hwhole)) (by decide)
  · rw [if_neg hnone] at hend
    obtain ⟨front, hfront⟩ := hend
    obtain hnil | ⟨digits, last, rfl⟩ := fraction.eq_nil_or_concat'
    · exact hnone hnil
    have hsplit : front ++ ['.'] ++ ['0'] =
        (if Double.isNegative x then ['-'] else []) ++ (whole ++ '.' :: digits) ++ [last] := by
      simpa using hfront
    obtain ⟨-, hzero⟩ := List.append_inj' hsplit rfl
    rw [← hzero, List.getLast?_concat] at hlast
    exact hlast rfl

/-- **Numbers are printed plain and exact.**  The text of a finite number is an optional minus sign,
one digit or more, and perhaps a point and one digit or more.  It does not end in a point and a
zero.  It is a numeral, and denotes the same rational number as the view by constructors, with the
same sign.  And it is read as the number itself. -/
theorem write_exact (x : Float) (h : Double.isFinite x = true) :
    (∃ whole fraction : List Char, whole ≠ [] ∧ (∀ c ∈ whole ++ fraction, c.isDigit = true) ∧
      (write x).toList = (if Double.isNegative x then ['-'] else []) ++
        (whole ++ if fraction = [] then [] else '.' :: fraction)) ∧
    ¬ ['.', '0'] <:+ (write x).toList ∧
    (∃ d d' : Decimal, Denotes (write x).toList (Double.isNegative x) d ∧
      Denotes (inspect x).toList (Double.isNegative x) d' ∧ d.value = d'.value) ∧
    readWord (write x) = .number x := by
  obtain ⟨whole, fraction, hne, hdigits, htext, -⟩ := write_shape h
  have hs := signed_minus (Double.isNegative x)
  obtain ⟨zeros, hd⟩ := exists_denotes_plain hs (Decimal.shortest (Double.word x))
  obtain ⟨d', hd', hvalue⟩ := exists_denotes_inspectDecimal hs (Decimal.shortest (Double.word x))
  refine ⟨⟨whole, fraction, hne, hdigits, htext⟩, not_suffix_write h, ?_, readWord_write h⟩
  rw [write_toList h, inspect_toList h]
  exact ⟨_, d', hd, hd', (Decimal.value_zeros _ zeros).trans hvalue.symm⟩

/-- The double nearest to a tenth below zero is printed and read. -/
theorem write_exact_tenth :
    let x := Double.ofWord true 4591870180066957722
    Double.isFinite x = true ∧ write x = "-0.1" ∧ ¬ ['.', '0'] <:+ (write x).toList ∧
      readWord (write x) = .number x := by
  intro x
  have hfinite : Double.isFinite x = true := by decide +kernel
  obtain ⟨-, hend, -, hread⟩ := write_exact x hfinite
  exact ⟨hfinite, by decide +kernel, hend, hread⟩

end Numeral

end StackLisp
