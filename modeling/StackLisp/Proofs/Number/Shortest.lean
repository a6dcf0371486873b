import Mathlib
import StackLisp.Number.Shortest

/-!
# The shortest decimal reads back

A decimal is read as the double nearest to it, and a double is written as the shortest decimal
that is read as that double.  The search for it tries the decimal out, so what it finds reads
back; what is left to show is that **the whole expansion of a double reads back**, which ends
a search that finds nothing.

Rounding looks at a quotient only.  So a decimal is read as the same double when zeros move from
its digits to its exponent (`Decimal.nearestWord_shift`), and a quotient that is a double is
rounded to itself (`Double.nearest_units`).
-/

namespace StackLisp

/-! ## Rounding -/

namespace Double

theorem binade_eq : binade = 2 ^ 52 := rfl

theorem roundQuotient_mul (num den : Nat) {k : Nat} (hk : 0 < k) :
    roundQuotient (num * k) (den * k) = roundQuotient num den := by
  have hdiv : num * k / (den * k) = num / den := Nat.mul_div_mul_right num den hk
  have hmod : 2 * (num * k % (den * k)) = 2 * (num % den) * k := by
    rw [Nat.mul_mod_mul_right, Nat.mul_assoc]
  unfold roundQuotient
  simp only [hdiv, hmod, Nat.mul_lt_mul_right hk]

/-- **Rounding looks at the quotient only.** -/
theorem nearest_mul (num den : Nat) {k : Nat} (hk : 0 < k) :
    nearest (num * k) (den * k) = nearest num den := by
  unfold nearest
  rw [Nat.mul_div_mul_right num den hk]
  have hden : ∀ p, den * k * p = den * p * k := fun p => Nat.mul_right_comm den k p
  simp only [hden, roundQuotient_mul _ _ hk]

/-- Fives and twos in equal number make tens, which cancel. -/
theorem nearest_tens (num k : Nat) :
    nearest (num * Nat.pow 5 k * Nat.pow 2 k) (Nat.pow 10 k) = nearest num 1 := by
  have hnum : num * Nat.pow 5 k * Nat.pow 2 k = num * 10 ^ k := by
    rw [Nat.pow_eq, Nat.pow_eq, Nat.mul_assoc, ← Nat.mul_pow]
  have hcancel := nearest_mul num 1 (Nat.pow_pos (show 0 < 10 by decide) : 0 < 10 ^ k)
  rw [hnum, Nat.pow_eq, ← hcancel, Nat.one_mul]

theorem roundQuotient_mul_self (q : Nat) {den : Nat} (hd : 0 < den) :
    roundQuotient (q * den) den = q := by
  have hdiv : q * den / den = q := Nat.mul_div_cancel q hd
  have hmod : q * den % den = 0 := Nat.mul_mod_left q den
  simp [roundQuotient, hdiv, hmod, hd]

/-- **A double is the nearest one to itself.** -/
theorem nearest_units {w : Nat} (hw : w < infinityWord) : nearest (units w) 1 = w := by
  by_cases hsmall : w < binade
  · -- The first two binades are spaced one unit apart.
    have hexcess : excessBits w = 0 := by
      rw [excessBits, Nat.sub_eq_zero_iff_le]
      by_cases h0 : w = 0
      · simp [h0, Nat.log2_zero]
      · exact Nat.le_of_lt ((Nat.log2_lt h0).mpr hsmall)
    have hround := roundQuotient_mul_self w Nat.one_pos
    simp only [Nat.mul_one] at hround
    simp only [nearest, units, if_pos hsmall, Nat.div_one, hexcess, Nat.zero_mul, Nat.pow_eq,
      Nat.pow_zero, Nat.mul_one, hround, Nat.zero_add]
    omega
  · have hpos : 0 < binade := by decide
    -- The significand and the power of two that it is counted in.
    obtain ⟨s, hs⟩ : ∃ s, s = binade + w % binade := ⟨_, rfl⟩
    obtain ⟨e, he⟩ : ∃ e, e = w / binade - 1 := ⟨_, rfl⟩
    have hlow : binade ≤ s := by omega
    have hhigh : s < 2 * binade := by
      have := Nat.mod_lt w hpos
      omega
    have hunits : units w = s * 2 ^ e := by simp [units, hsmall, hs, he]
    have hexcess : excessBits (s * 2 ^ e) = e := by
      have hlog : Nat.log2 (s * 2 ^ e) = 52 + e := by
        rw [Nat.log2_eq_iff (Nat.mul_ne_zero (by omega) (Nat.ne_of_gt (Nat.two_pow_pos e)))]
        constructor
        · rw [Nat.pow_add]
          exact Nat.mul_le_mul_right _ hlow
        · rw [Nat.add_right_comm, Nat.pow_add]
          exact Nat.mul_lt_mul_of_pos_right hhigh (Nat.two_pow_pos e)
      rw [excessBits, hlog, Nat.add_sub_cancel_left]
    have hround : roundQuotient (s * 2 ^ e) (1 * 2 ^ e) = s := by
      rw [Nat.one_mul]
      exact roundQuotient_mul_self s (Nat.two_pow_pos e)
    have hword : e * binade + s = w := by
      have hdiv := Nat.div_add_mod' w binade
      have hone : 1 ≤ w / binade := (Nat.one_le_div_iff hpos).mpr (Nat.le_of_not_lt hsmall)
      have hsplit : w / binade = e + 1 := by omega
      rw [hsplit, Nat.succ_mul] at hdiv
      omega
    simp only [nearest, hunits, Nat.div_one, hexcess, Nat.pow_eq, hround, hword]
    omega

/-- The units of a double are bounded by its binade. -/
theorem units_lt {w : Nat} (k : Nat) (hw : w < (k + 2) * binade) : units w < 2 ^ (53 + k) := by
  have hsub : w / binade - 1 ≤ k := by
    have : w / binade < k + 2 := Nat.div_lt_of_lt_mul (by rwa [Nat.mul_comm])
    omega
  unfold units
  by_cases h : w < binade
  · rw [if_pos h]
    have hpow : 2 ^ 52 ≤ 2 ^ (53 + k) := Nat.pow_le_pow_right (by decide) (by omega)
    exact Nat.lt_of_lt_of_le h hpow
  · rw [if_neg h]
    have hs : binade + w % binade < 2 ^ 53 := by
      have := Nat.mod_lt w (show 0 < binade by decide)
      rw [binade_eq] at this ⊢
      omega
    calc (binade + w % binade) * Nat.pow 2 (w / binade - 1)
        < 2 ^ 53 * 2 ^ (w / binade - 1) := Nat.mul_lt_mul_of_pos_right hs (Nat.two_pow_pos _)
      _ ≤ 2 ^ 53 * 2 ^ k := Nat.mul_le_mul_left _ (Nat.pow_le_pow_right (by decide) hsub)
      _ = 2 ^ (53 + k) := (Nat.pow_add 2 53 k).symm

theorem units_ne_zero {w : Nat} (hw : w ≠ 0) : units w ≠ 0 := by
  unfold units
  split
  · exact hw
  · have : 0 < binade := by decide
    exact Nat.mul_ne_zero (by omega) (Nat.ne_of_gt (Nat.two_pow_pos _))

end Double

/-! ## Decimals -/

namespace Decimal

theorem length_toDigits_mul_ten {n : Nat} (hn : n ≠ 0) :
    (Nat.toDigits 10 (n * 10)).length = (Nat.toDigits 10 n).length + 1 := by
  rw [Nat.toDigits_of_base_le (by decide) (by omega), Nat.mul_div_cancel n (by decide)]
  simp

theorem length_toDigits_mul_pow {n : Nat} (hn : n ≠ 0) (k : Nat) :
    (Nat.toDigits 10 (n * 10 ^ k)).length = (Nat.toDigits 10 n).length + k := by
  induction k with
  | zero => simp
  | succ k ih =>
    have hne : n * 10 ^ k ≠ 0 := Nat.mul_ne_zero hn (Nat.ne_of_gt (Nat.pow_pos (by decide)))
    rw [Nat.pow_succ, ← Nat.mul_assoc, length_toDigits_mul_ten hne, ih, Nat.add_assoc]

/-- **Zeros may move from the digits to the exponent.** -/
theorem nearestWord_shift (n k : Nat) (e : Int) :
    nearestWord ⟨n * 10 ^ k, e⟩ = nearestWord ⟨n, e + k⟩ := by
  have hpos : ∀ i, 0 < 10 ^ i := fun i => Nat.pow_pos (by decide)
  by_cases hn : n = 0
  · simp [nearestWord, hn]
  have hdigits : n * 10 ^ k ≠ 0 := Nat.mul_ne_zero hn (Nat.ne_of_gt (hpos k))
  have hpoint : point ⟨n * 10 ^ k, e⟩ = point ⟨n, e + k⟩ := by
    simp only [point, digitChars, length_toDigits_mul_pow hn]
    omega
  unfold nearestWord
  simp only [hdigits, hn, hpoint, if_false, Nat.pow_eq]
  split
  · rfl
  split
  · rfl
  by_cases he : 0 ≤ e
  · rw [if_pos he, if_pos (by omega), Int.toNat_add he (by omega), Int.toNat_natCast,
      Nat.pow_add, Nat.mul_assoc n, Nat.mul_comm (10 ^ k)]
  rw [if_neg he]
  by_cases hsum : 0 ≤ e + k
  · -- The exponent turns positive: the denominator cancels.
    rw [if_pos hsum]
    have hsplit : k = (e + k).toNat + (-e).toNat := by omega
    have hnum : n * 10 ^ k * Double.unitsPerOne =
        n * 10 ^ (e + k).toNat * Double.unitsPerOne * 10 ^ (-e).toNat := by
      conv => lhs; rw [hsplit, Nat.pow_add]
      simp only [Nat.mul_assoc, Nat.mul_left_comm, Nat.mul_comm]
    have hcancel := Double.nearest_mul (n * 10 ^ (e + k).toNat * Double.unitsPerOne) 1
      (hpos (-e).toNat)
    rw [hnum, ← hcancel, Nat.one_mul]
  · rw [if_neg hsum]
    have hsplit : (-e).toNat = (-(e + k)).toNat + k := by omega
    rw [hsplit, Nat.pow_add, Nat.mul_right_comm]
    exact Double.nearest_mul (n * Double.unitsPerOne) (10 ^ (-(e + k)).toNat) (hpos k)

theorem nearestWord_trimZeros (fuel : Nat) (d : Decimal) :
    (trimZeros fuel d).nearestWord = d.nearestWord := by
  induction fuel generalizing d with
  | zero => rfl
  | succ fuel ih =>
    unfold trimZeros
    split
    · rename_i h
      have hdigits : d.digits = d.digits / 10 * 10 ^ 1 := by omega
      rw [ih, ← Int.natCast_one, ← nearestWord_shift, ← hdigits]
    · rfl

theorem nearestWord_normalize (d : Decimal) : d.normalize.nearestWord = d.nearestWord :=
  nearestWord_trimZeros _ d

/-- **The expansion of a number of units** is read as the double nearest to that number, unless
it is too large or too small.  Each binary place takes a decimal one. -/
theorem nearestWord_expansion {u k : Nat} (hunit : Double.unitsPerOne = Nat.pow 2 k) (hu : u ≠ 0)
    (hk : 0 < k) (hlow : smallestPoint + k ≤ (Nat.toDigits 10 (u * Nat.pow 5 k)).length)
    (hhigh : (Nat.toDigits 10 (u * Nat.pow 5 k)).length ≤ largestPoint + k) :
    nearestWord ⟨u * Nat.pow 5 k, -k⟩ = Double.nearest u 1 := by
  have hn : u * Nat.pow 5 k ≠ 0 := Nat.mul_ne_zero hu (Nat.ne_of_gt (Nat.pow_pos (by decide)))
  have hpoint : point ⟨u * Nat.pow 5 k, -k⟩ =
      (Nat.toDigits 10 (u * Nat.pow 5 k)).length - k := by
    simp only [point, digitChars]
    omega
  unfold nearestWord
  simp only [hpoint, Int.neg_neg, Int.toNat_natCast, hunit]
  rw [if_neg hn, if_neg (by omega), if_neg (by omega), if_neg (by omega), Double.nearest_tens]

theorem length_expansion_le {u : Nat} (hu : u < 2 ^ (53 + 2045)) :
    (Nat.toDigits 10 (u * Nat.pow 5 1074)).length ≤ 1384 := by
  have hfives : ∀ k, 0 < Nat.pow 5 k := fun k => Nat.pow_pos (by decide)
  rw [Nat.length_toDigits_le_iff (by decide) (by decide)]
  calc u * Nat.pow 5 1074
      < 2 ^ (53 + 2045) * Nat.pow 5 1074 := Nat.mul_lt_mul_of_pos_right hu (hfives 1074)
    _ ≤ 10 ^ 1384 := by decide +kernel

theorem lt_length_expansion {u : Nat} (hu : u ≠ 0) :
    743 < (Nat.toDigits 10 (u * Nat.pow 5 1074)).length := by
  rw [← Nat.not_le, Nat.length_toDigits_le_iff (by decide) (by decide), Nat.not_lt]
  calc 10 ^ 743 ≤ Nat.pow 5 1074 := by decide +kernel
    _ ≤ u * Nat.pow 5 1074 := Nat.le_mul_of_pos_left _ (Nat.pos_of_ne_zero hu)

/-- **The whole expansion of a double reads back.** -/
theorem nearestWord_exact {w : Nat} (hw : w < Double.infinityWord) (h0 : w ≠ 0) :
    (exact (Double.units w)).nearestWord = w := by
  obtain ⟨k, hunit, hk⟩ : ∃ k, Double.unitsPerOne = Nat.pow 2 k ∧ 1074 = k := by
    delta Double.unitsPerOne
    exact ⟨1074, Eq.refl _, Eq.refl _⟩
  have hhigh := length_expansion_le (Double.units_lt 2045 hw)
  have hlow := lt_length_expansion (Double.units_ne_zero h0)
  simp only [hk] at hhigh hlow
  have hexpansion := nearestWord_expansion hunit (Double.units_ne_zero h0) (by omega)
    (by simp only [smallestPoint]; omega) (by simp only [largestPoint]; omega)
  have hexact : exact (Double.units w) = ⟨Double.units w * Nat.pow 5 k, -k⟩ := by
    rw [exact, Decimal.mk.injEq, hk]
    exact ⟨rfl, by omega⟩
  rw [hexact, hexpansion, Double.nearest_units hw]

theorem nearestWord_of_search? {w fuel : Nat} {e : Int} {d : Decimal}
    (h : search? w fuel e = some d) : d.nearestWord = w := by
  induction fuel generalizing e with
  | zero => cases h
  | succ fuel ih =>
    unfold search? at h
    split at h
    · rename_i found hgrid
      cases h
      simpa using List.find?_some hgrid
    · exact ih h

/-- **The shortest decimal of a double reads back as the double.** -/
theorem nearestWord_shortest {w : Nat} (hw : w < Double.infinityWord) :
    (shortest w).nearestWord = w := by
  unfold shortest
  by_cases h0 : w = 0
  · simp [h0, nearestWord]
  rw [if_neg h0]
  simp only [nearestWord_normalize]
  cases hsearch : search? w searchLength (coarsest (Double.units w)) with
  | none => exact nearestWord_exact hw h0
  | some d => exact nearestWord_of_search? hsearch

end Decimal

end StackLisp
