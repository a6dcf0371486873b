import Mathlib
import StackLisp.Number.Numeral
import StackLisp.Proofs.Number.Shortest

/-!
# Numerals read back

What texts are numerals, and what these denote, is said by a grammar (`Numeral.Denotes`), which
follows the pattern of the lexer: a sign, digits with a point among them, and a power of ten.
**Reading accepts exactly that** (`Numeral.decimal?_eq_some`).

A number is written as the shortest decimal of its magnitude, in plain notation and with its sign.
Plain notation is a row of digits, or two such rows with a point between them
(`Decimal.plain_shape`), and what it denotes is the decimal up to zeros that have moved from the
exponent to the digits.  So **reading what was written gives the number itself**, bit for bit and
with the sign of a zero (`Numeral.read?_write`).
-/

namespace StackLisp

/-! ## Rows of digits -/

namespace Text

theorem digitValue?_of_isDigit {c : Char} (h : c.isDigit = true) :
    digitValue? c = some (c.toNat - '0'.toNat) := by
  simp only [Char.isDigit, Bool.and_eq_true, decide_eq_true_eq, ge_iff_le] at h
  obtain ⟨hlow, hhigh⟩ := h
  have hlow : 48 ≤ c.toNat := hlow
  have hhigh : c.toNat ≤ 57 := hhigh
  have hrun : (decide (48 ≤ c.toNat) && decide (c.toNat < 48 + 10)) = true := by
    simp only [Bool.and_eq_true, decide_eq_true_eq]
    omega
  simp only [digitValue?, zeroDigits, List.find?_cons, hrun, Option.map_some]
  rfl

theorem isDigit_of_isDigit {c : Char} (h : c.isDigit = true) : isDigit c = true := by
  rw [isDigit, digitValue?_of_isDigit h, Option.isSome_some]

theorem not_isDigit_point : isDigit '.' = false := by decide

/-- Digits are read as they are read elsewhere. -/
theorem digitsValue_eq {cs : List Char} (h : ∀ c ∈ cs, c.isDigit = true) :
    digitsValue cs = Nat.ofDigitChars 10 cs 0 := by
  suffices hfold : ∀ n, cs.foldl (fun n c => 10 * n + (digitValue? c).getD 0) n =
      Nat.ofDigitChars 10 cs n from hfold 0
  induction cs with
  | nil => exact fun _ => rfl
  | cons c cs ih =>
    intro n
    obtain ⟨hc, hcs⟩ := List.forall_mem_cons.mp h
    rw [List.foldl_cons, digitValue?_of_isDigit hc, Option.getD_some, ih hcs]
    rfl

theorem isDigit_of_mem_toDigits {n : Nat} : ∀ c ∈ Nat.toDigits 10 n, c.isDigit = true :=
  fun _ hc => Nat.isDigit_of_mem_toDigits (by decide) (by decide) hc

/-- **The digits of a number denote it.** -/
theorem digitsValue_toDigits (n : Nat) : digitsValue (Nat.toDigits 10 n) = n := by
  rw [digitsValue_eq isDigit_of_mem_toDigits]
  exact Nat.ofDigitChars_toDigits (by decide) (by decide)

theorem digitsValue_append_zeros (cs : List Char) (k : Nat) :
    digitsValue (cs ++ List.replicate k '0') = digitsValue cs * 10 ^ k := by
  induction k with
  | zero => simp
  | succ k ih =>
    have hzero : digitsValue (cs ++ List.replicate k '0' ++ ['0']) =
        10 * digitsValue (cs ++ List.replicate k '0') := by
      simp only [digitsValue, List.foldl_append, List.foldl_cons, List.foldl_nil]
      rfl
    rw [List.replicate_succ', ← List.append_assoc, hzero, ih, Nat.pow_succ]
    exact (Nat.mul_left_comm _ _ _).trans (congrArg _ (Nat.mul_comm _ _))

theorem digitsValue_zeros_append (k : Nat) (cs : List Char) :
    digitsValue (List.replicate k '0' ++ cs) = digitsValue cs := by
  induction k with
  | zero => rfl
  | succ k ih => exact ih

theorem isDigit_of_mem_zeros {k : Nat} : ∀ c ∈ List.replicate k '0', c.isDigit = true := by
  intro c hc
  rw [List.eq_of_mem_replicate hc]
  decide

end Text

/-! ## Plain notation -/

namespace Decimal

/-- **Plain notation** is a row of digits, or two rows with a point between them: either an integer,
with as many zeros behind the digits as the exponent says, or all digits of the decimal with as
many places behind the point. -/
theorem plain_shape (d : Decimal) :
    (∃ whole, whole ≠ [] ∧ (∀ c ∈ whole, c.isDigit = true) ∧ d.plain.toList = whole ∧
      ∃ zeros : Nat, Text.digitsValue whole = d.digits * 10 ^ zeros ∧ d.exponent = zeros) ∨
    ∃ whole fraction, whole ≠ [] ∧ fraction ≠ [] ∧ (∀ c ∈ whole ++ fraction, c.isDigit = true) ∧
      d.plain.toList = whole ++ '.' :: fraction ∧
      (⟨Text.digitsValue (whole ++ fraction), -fraction.length⟩ : Decimal) = d := by
  obtain ⟨n, e⟩ := d
  have hdigits := Text.isDigit_of_mem_toDigits (n := n)
  have hne : Nat.toDigits 10 n ≠ [] := Nat.toDigits_ne_nil
  by_cases he : 0 ≤ e
  · refine .inl ⟨Nat.toDigits 10 n ++ List.replicate e.toNat '0', by simp [hne], ?_, ?_,
      e.toNat, ?_, ?_⟩
    · exact List.forall_mem_append.mpr ⟨hdigits, Text.isDigit_of_mem_zeros⟩
    · simp [plain, digitChars, he]
    · rw [Text.digitsValue_append_zeros, Text.digitsValue_toDigits]
    · exact (Int.toNat_of_nonneg he).symm
  · right
    obtain ⟨places, hplaces⟩ : ∃ places, places = (-e).toNat := ⟨_, rfl⟩
    have hpos : 0 < places := by omega
    by_cases hlen : places < (Nat.toDigits 10 n).length
    · -- The point lies among the digits.
      refine ⟨(Nat.toDigits 10 n).take ((Nat.toDigits 10 n).length - places),
        (Nat.toDigits 10 n).drop ((Nat.toDigits 10 n).length - places), ?_, ?_, ?_, ?_, ?_⟩
      · intro hnil
        have := congrArg List.length hnil
        simp only [List.length_take, List.length_nil] at this
        omega
      · intro hnil
        have := congrArg List.length hnil
        simp only [List.length_drop, List.length_nil] at this
        omega
      · rwa [List.take_append_drop]
      · simp [plain, digitChars, he, ← hplaces, hlen]
      · rw [List.take_append_drop, Text.digitsValue_toDigits, List.length_drop]
        congr
        omega
    · -- Zeros fill the places between the point and the digits.
      refine ⟨['0'], List.replicate (places - (Nat.toDigits 10 n).length) '0' ++
        Nat.toDigits 10 n, by simp, by simp [hne], ?_, ?_, ?_⟩
      · rw [← List.append_assoc]
        exact List.forall_mem_append.mpr
          ⟨fun c hc => Text.isDigit_of_mem_zeros (k := _ + 1) c hc, hdigits⟩
      · simp [plain, digitChars, he, ← hplaces, hlen]
      · have hzeros := Text.digitsValue_zeros_append
          (places - (Nat.toDigits 10 n).length + 1) (Nat.toDigits 10 n)
        rw [Text.digitsValue_toDigits] at hzeros
        rw [List.length_append, List.length_replicate]
        congr
        omega

/-- The characters of plain notation. -/
theorem mem_plain {d : Decimal} {c : Char} (hc : c ∈ d.plain.toList) :
    c.isDigit = true ∨ c = '.' := by
  obtain ⟨whole, -, hdigits, htext, -⟩ | ⟨whole, fraction, -, -, hdigits, htext, -⟩ := d.plain_shape
  · exact .inl (hdigits c (htext ▸ hc))
  · rw [htext, List.mem_append, List.mem_cons] at hc
    obtain hc | rfl | hc := hc
    · exact .inl (hdigits c (List.mem_append_left _ hc))
    · exact .inr rfl
    · exact .inl (hdigits c (List.mem_append_right _ hc))

end Decimal

/-! ## The grammar of numerals -/

namespace Numeral

/-- A sign, or none.  `true` stands for minus. -/
inductive Signed : List Char → Bool → Prop
  | none : Signed [] false
  | plus : Signed ['+'] false
  | minus : Signed ['-'] true

/-- **The digits of a numeral**, those before its point and those after it. -/
inductive Mantissa : List Char → List Char → List Char → Prop
  | whole {whole : List Char} (hne : whole ≠ []) (h : ∀ c ∈ whole, Text.isDigit c = true) :
      Mantissa whole whole []
  | point {whole fraction : List Char} (hne : whole ≠ [])
      (h : ∀ c ∈ whole ++ fraction, Text.isDigit c = true) :
      Mantissa (whole ++ '.' :: fraction) whole fraction
  | fraction {fraction : List Char} (hne : fraction ≠ [])
      (h : ∀ c ∈ fraction, Text.isDigit c = true) : Mantissa ('.' :: fraction) [] fraction

/-- **The power of ten** behind the digits, or none. -/
inductive Scale : List Char → Int → Prop
  | none : Scale [] 0
  | marked {mark : Char} {sign digits : List Char} {negative : Bool} (hm : mark = 'e' ∨ mark = 'E')
      (hs : Signed sign negative) (hne : digits ≠ []) (h : ∀ c ∈ digits, Text.isDigit c = true) :
      Scale (mark :: (sign ++ digits))
        (if negative then -(Text.digitsValue digits : Int) else Text.digitsValue digits)

/-- **A numeral and what it denotes**: a sign and a decimal. -/
inductive Denotes : List Char → Bool → Decimal → Prop
  | intro {sign mantissa whole fraction scale : List Char} {negative : Bool} {e : Int}
      (hs : Signed sign negative) (hm : Mantissa mantissa whole fraction) (he : Scale scale e) :
      Denotes (sign ++ (mantissa ++ scale)) negative
        ⟨Text.digitsValue (whole ++ fraction), e - fraction.length⟩

variable {cs sign mantissa whole fraction scale rest digits : List Char} {negative : Bool} {e : Int}
  {d : Decimal}

/-! ## Reading follows the grammar -/

theorem splitSign_sound (cs : List Char) :
    ∃ sign, cs = sign ++ (splitSign cs).2 ∧ Signed sign (splitSign cs).1 := by
  unfold splitSign
  split
  · exact ⟨['-'], rfl, .minus⟩
  · exact ⟨['+'], rfl, .plus⟩
  · exact ⟨[], rfl, .none⟩

theorem splitSign_append (hs : Signed sign negative)
    (hrest : ∀ c ∈ rest.head?, c ≠ '-' ∧ c ≠ '+') :
    splitSign (sign ++ rest) = (negative, rest) := by
  cases hs with
  | plus | minus => rfl
  | none =>
    rw [List.nil_append]
    unfold splitSign
    split
    · exact absurd rfl (hrest _ rfl).1
    · exact absurd rfl (hrest _ rfl).2
    · rfl

/-- Digits are no signs. -/
theorem ne_sign_of_isDigit {c : Char} (h : Text.isDigit c = true) : c ≠ '-' ∧ c ≠ '+' := by
  constructor <;> rintro rfl <;> exact absurd h (by decide)

theorem readExponent?_eq_some : readExponent? cs = some e ↔ Scale cs e := by
  constructor
  · intro h
    cases cs with
    | nil =>
      cases h
      exact .none
    | cons mark cs =>
      obtain ⟨sign, hcs, hs⟩ := splitSign_sound cs
      simp only [readExponent?] at h
      split at h
      · rename_i hmark
        obtain ⟨hm, hne, hdigits⟩ := hmark
        rw [hcs, ← Option.some.inj h]
        exact .marked hm hs hne (List.all_eq_true.mp hdigits)
      · cases h
  · intro h
    cases h with
    | none => rfl
    | @marked mark sign digits negative hm hs hne h =>
      have hhead : ∀ c ∈ digits.head?, c ≠ '-' ∧ c ≠ '+' := fun c hc =>
        ne_sign_of_isDigit (h c (List.mem_of_mem_head? hc))
      simp only [readExponent?, splitSign_append hs hhead]
      rw [if_pos ⟨hm, hne, List.all_eq_true.mpr h⟩]

/-- What a power of ten begins with does not belong to the digits. -/
theorem Scale.head (h : Scale scale e) :
    ∀ c ∈ scale.head?, Text.isDigit c = false ∧ c ≠ '.' := by
  intro c hc
  cases h with
  | none => cases hc
  | marked hm hs hne h =>
    obtain rfl := Option.some.inj hc
    rcases hm with rfl | rfl <;> decide

theorem span_digits (h : ∀ c ∈ digits, Text.isDigit c = true)
    (hrest : ∀ c ∈ rest.head?, Text.isDigit c = false) :
    (digits ++ rest).takeWhile Text.isDigit = digits ∧
      (digits ++ rest).dropWhile Text.isDigit = rest := by
  rw [List.takeWhile_append_of_pos h, List.dropWhile_append_of_pos h]
  cases rest with
  | nil => simp
  | cons c rest => simp [hrest c rfl]

theorem splitDigits_sound (h : splitDigits cs = (whole, fraction, rest))
    (hne : ¬ (whole = [] ∧ fraction = [])) :
    ∃ mantissa, cs = mantissa ++ rest ∧ Mantissa mantissa whole fraction := by
  have hcs := List.takeWhile_append_dropWhile (p := Text.isDigit) (l := cs)
  have hwhole : ∀ c ∈ cs.takeWhile Text.isDigit, Text.isDigit c = true :=
    fun c hc => List.mem_takeWhile_imp hc
  unfold splitDigits at h
  simp only at h
  split at h
  · rename_i behind hdrop
    obtain ⟨rfl, rfl, rfl⟩ : cs.takeWhile Text.isDigit = whole ∧
        behind.takeWhile Text.isDigit = fraction ∧ behind.dropWhile Text.isDigit = rest := by
      simpa using h
    have hbehind := List.takeWhile_append_dropWhile (p := Text.isDigit) (l := behind)
    have hfraction : ∀ c ∈ behind.takeWhile Text.isDigit, Text.isDigit c = true :=
      fun c hc => List.mem_takeWhile_imp hc
    refine ⟨cs.takeWhile Text.isDigit ++ '.' :: behind.takeWhile Text.isDigit, ?_, ?_⟩
    · rw [List.append_assoc, List.cons_append, hbehind, ← hdrop, hcs]
    · by_cases hempty : cs.takeWhile Text.isDigit = []
      · rw [hempty, List.nil_append]
        exact .fraction (fun hf => hne ⟨hempty, hf⟩) hfraction
      · exact .point hempty (List.forall_mem_append.mpr ⟨hwhole, hfraction⟩)
  · obtain ⟨rfl, rfl, rfl⟩ : cs.takeWhile Text.isDigit = whole ∧ [] = fraction ∧
        cs.dropWhile Text.isDigit = rest := by
      simpa using h
    exact ⟨_, hcs.symm, .whole (fun hw => hne ⟨hw, rfl⟩) hwhole⟩

theorem splitDigits_append (hm : Mantissa mantissa whole fraction)
    (hrest : ∀ c ∈ rest.head?, Text.isDigit c = false ∧ c ≠ '.') :
    splitDigits (mantissa ++ rest) = (whole, fraction, rest) := by
  have hhead : ∀ c ∈ rest.head?, Text.isDigit c = false := fun c hc => (hrest c hc).1
  have hpoint : ∀ c ∈ ('.' :: (fraction ++ rest)).head?, Text.isDigit c = false := by
    rintro c ⟨⟩
    exact Text.not_isDigit_point
  unfold splitDigits
  cases hm with
  | whole hne h =>
    obtain ⟨htake, hdrop⟩ := span_digits h hhead
    simp only [htake, hdrop]
    split
    · exact absurd rfl (hrest _ rfl).2
    · rfl
  | point hne h =>
    obtain ⟨hwhole, hfraction⟩ := List.forall_mem_append.mp h
    obtain ⟨htake, hdrop⟩ := span_digits hwhole hpoint
    obtain ⟨htake', hdrop'⟩ := span_digits hfraction hhead
    simp only [List.append_assoc, List.cons_append, htake, hdrop, htake', hdrop']
  | fraction hne h =>
    obtain ⟨htake, hdrop⟩ := span_digits (List.forall_mem_nil _) hpoint
    obtain ⟨htake', hdrop'⟩ := span_digits h hhead
    rw [List.nil_append] at htake hdrop
    simp only [List.cons_append, htake, hdrop, htake', hdrop']

theorem Mantissa.ne_nil (h : Mantissa mantissa whole fraction) :
    ¬ (whole = [] ∧ fraction = []) := by
  cases h with
  | whole hne _ | point hne _ => exact fun h => hne h.1
  | fraction hne _ => exact fun h => hne h.2

/-- Digits and points are no signs. -/
theorem Mantissa.head (h : Mantissa mantissa whole fraction) :
    ∀ c ∈ (mantissa ++ rest).head?, c ≠ '-' ∧ c ≠ '+' := by
  intro c hc
  cases h with
  | whole hne h =>
    obtain ⟨first, row, rfl⟩ := List.exists_cons_of_ne_nil hne
    obtain rfl := Option.some.inj hc
    exact ne_sign_of_isDigit (h _ List.mem_cons_self)
  | point hne h =>
    obtain ⟨first, row, rfl⟩ := List.exists_cons_of_ne_nil hne
    obtain rfl := Option.some.inj hc
    exact ne_sign_of_isDigit (h _ List.mem_cons_self)
  | fraction _ _ =>
    obtain rfl := Option.some.inj hc
    decide

/-- **Reading accepts exactly the numerals**, and gives what they denote. -/
theorem decimal?_eq_some : decimal? cs = some (negative, d) ↔ Denotes cs negative d := by
  constructor
  · intro h
    obtain ⟨sign, hcs, hs⟩ := splitSign_sound cs
    rcases hsign : splitSign cs with ⟨minus, behind⟩
    rcases hsplit : splitDigits behind with ⟨whole, fraction, rest⟩
    rw [hsign] at hcs hs
    simp only [decimal?, hsign, hsplit] at h
    split at h
    · cases h
    · rename_i hne
      obtain ⟨e, he, hd⟩ := Option.map_eq_some_iff.mp h
      obtain ⟨rfl, rfl⟩ := Prod.mk.inj hd
      obtain ⟨mantissa, hm, hmantissa⟩ := splitDigits_sound hsplit hne
      rw [hcs, hm]
      exact .intro hs hmantissa (readExponent?_eq_some.mp he)
  · rintro ⟨hs, hm, he⟩
    simp only [decimal?, splitSign_append hs hm.head, splitDigits_append hm he.head,
      readExponent?_eq_some.mpr he]
    rw [if_neg hm.ne_nil]
    rfl

/-! ## Plain notation is read -/

theorem signed_minus (negative : Bool) : Signed (if negative then ['-'] else []) negative := by
  cases negative
  · exact .none
  · exact .minus

theorem Denotes.integer (hs : Signed sign negative) (hne : whole ≠ [])
    (h : ∀ c ∈ whole, c.isDigit = true) :
    Denotes (sign ++ whole) negative ⟨Text.digitsValue whole, 0⟩ := by
  simpa using Denotes.intro hs (.whole hne fun c hc => Text.isDigit_of_isDigit (h c hc)) .none

theorem Denotes.pointed (hs : Signed sign negative) (hne : whole ≠ [])
    (h : ∀ c ∈ whole ++ fraction, c.isDigit = true) :
    Denotes (sign ++ (whole ++ '.' :: fraction)) negative
      ⟨Text.digitsValue (whole ++ fraction), -fraction.length⟩ := by
  simpa using Denotes.intro hs (.point hne fun c hc => Text.isDigit_of_isDigit (h c hc)) .none

/-- **Plain notation denotes the decimal**, with zeros that have moved from the exponent to the
digits. -/
theorem exists_denotes_plain (hs : Signed sign negative) (d : Decimal) :
    ∃ zeros : Nat, Denotes (sign ++ d.plain.toList) negative
      ⟨d.digits * 10 ^ zeros, d.exponent - zeros⟩ := by
  obtain ⟨whole, hne, hdigits, htext, zeros, hvalue, hzeros⟩ |
    ⟨whole, fraction, hne, -, hdigits, htext, hd⟩ := d.plain_shape
  · refine ⟨zeros, ?_⟩
    rw [htext, ← hvalue, hzeros, sub_self]
    exact .integer hs hne hdigits
  · refine ⟨0, ?_⟩
    rw [htext, pow_zero, mul_one, Nat.cast_zero, sub_zero]
    exact hd ▸ .pointed hs hne hdigits

end Numeral

/-! ## Bits -/

namespace Double

/-- A number is its sign and its magnitude. -/
theorem ofWord_word (x : Float) : ofWord (isNegative x) (word x) = x := by
  have hlt : x.toBits.toNat < 2 * signBit := x.toBits.toNat_lt
  have hbits : (if isNegative x then signBit + word x else word x) = x.toBits.toNat := by
    by_cases hsign : signBit ≤ x.toBits.toNat
    · have hmod : word x = x.toBits.toNat - signBit := by
        rw [word, Nat.mod_eq_sub_mod hsign, Nat.mod_eq_of_lt (by omega)]
      rw [if_pos (by simpa [isNegative] using hsign), hmod]
      omega
    · rw [if_neg (by simpa [isNegative] using hsign), word, Nat.mod_eq_of_lt (by omega)]
  rw [ofWord, hbits, UInt64.ofNat_toNat, Float.ofBits_toBits]

theorem isNaN_of_isFinite {x : Float} (h : isFinite x = true) : x.isNaN = false := by
  rw [Float.isNaN_eq_decide_eq_nan, decide_eq_false_iff_not]
  intro hnan
  subst hnan
  exact absurd h (by decide +kernel)

end Double

namespace Numeral

/-- The characters of a finite number: an optional sign, digits and points. -/
theorem write_toList {x : Float} (h : Double.isFinite x = true) :
    (write x).toList = (if Double.isNegative x then ['-'] else []) ++
      (Decimal.shortest (Double.word x)).plain.toList := by
  rw [write, Double.isNaN_of_isFinite h, if_neg Bool.false_ne_true, if_pos h, String.toList_append,
    signText]
  cases Double.isNegative x <;> rfl

/-- **Reading a number that was written** gives the same bits. -/
theorem read?_write {x : Float} (h : Double.isFinite x = true) : read? (write x) = some x := by
  obtain ⟨zeros, hd⟩ := exists_denotes_plain (signed_minus (Double.isNegative x))
    (Decimal.shortest (Double.word x))
  have hfinite : Double.word x < Double.infinityWord := by simpa [Double.isFinite] using h
  rw [read?, write_toList h, decimal?_eq_some.mpr hd, Option.map_some]
  simp only [Decimal.nearestWord_shift, sub_add_cancel]
  rw [Decimal.nearestWord_shortest hfinite, Double.ofWord_word]

/-- The negative zero keeps its sign. -/
example : read? "-0" = some (Double.ofWord true 0) := by decide +kernel

end Numeral

end StackLisp
