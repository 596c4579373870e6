import Mathlib.Data.List.Induction
import Mathlib.Data.Nat.Digits.Defs
import PrimePlus.Proofs.SizedLiterals

/-!
Sized literals are cut to their width exactly, and signed decimal ones are read back where they have
no sign of their own.
-/

namespace PrimePlus

open List hiding all any
open Text (ofNat)

namespace Numeral

variable {base : Base} {digits : Text} {width : Nat}

section Reading

def denoted (radix : Nat) (digits : Text) : Nat :=
  Nat.ofDigits radix (digits.reverse.map digitValue)

theorem readDigits_eq_denoted (base : Base) (digits : Text) :
    readDigits base 0 digits = denoted base.radix digits := by
  induction digits using reverseRecOn with
  | nil => rfl
  | append_singleton digits c ih =>
    rw [readDigits] at ih
    rw [readDigits, foldl_append, ih, denoted, denoted]
    simp [Nat.ofDigits_cons, Nat.add_comm]

theorem ofDigits?_eq (ne : digits ≠ []) :
    ofDigits? base digits = if digits.all (digitValue · < base.radix) then
      some (denoted base.radix digits) else none := by
  rw [← readDigits_eq_denoted, ofDigits?, isEmpty_eq_false_iff.mpr ne]
  cases all : digits.all (digitValue · < base.radix) <;> rfl

theorem toDigits_decimal (n : Nat) : toDigits .decimal n = ofNat n := by
  refine (map_congr_left fun c mem => ?_).trans (map_id _)
  obtain ⟨-, high⟩ : 48 ≤ c.val ∧ c.val ≤ 57 := by simpa [Char.isDigit] using isDigit_ofNat c mem
  have digit : ¬c.val ≥ 97 := fun low => absurd (UInt32.le_trans low high) (by decide)
  unfold Char.toUpper
  simp [digit]

end Reading

theorem sizedValue_eq (ne : digits ≠ []) (bare : digits.head? ≠ some '+') (least : 1 ≤ width)
    (most : width ≤ 64) (signed : Bool) :
    sizedValue digits signed width base =
      if digits.all (digitValue · < base.radix) ∧ denoted base.radix digits < 2 ^ 64 then
        some (intText (wrap signed width (denoted base.radix digits))) else none := by
  rw [sizedValue.eq_2 digits signed width base (by rintro r rfl; exact bare rfl), ofDigits?_eq ne]
  by_cases all : digits.all (digitValue · < base.radix) = true
  · rw [if_pos all, Option.bind_some]
    by_cases fits : denoted base.radix digits < 2 ^ 64
    · have whole : fitsWord (denoted base.radix digits) := decide_eq_true fits
      rw [whole, if_pos (And.intro all fits), if_neg (Nat.ne_of_gt least),
        cutInWords?_eq least most]
      rfl
    · have long : fitsWord (denoted base.radix digits) = false := decide_eq_false fits
      rw [long, if_neg (mt And.right fits)]
      rfl
  · rw [if_neg all, if_neg (mt And.left all)]
    rfl

/-- Digits without a sign have no value of a width exactly where one of them is no digit of the base
or they denote a number that does not fit 64 bits. Otherwise their value is the one number of that
width that is congruent to what they denote, and it is found with words of 64 and 128 bits, no shift
and no difference leaving its word. -/
theorem sized_value_is_exact (letter : Char) {digits : Text} (filled : digits ≠ [])
    (bare : digits.head? ≠ some '+') {width : Nat} (least : 1 ≤ width) (most : width ≤ 64)
    (signed : Bool) :
    let radix :=
      if letter = 'b' then 2 else if letter = 'o' then 8 else if letter = 'h' then 16 else 10
    let value := sizedValue digits signed width (.ofLetter letter)
    (value = none ↔ (∃ c ∈ digits, radix ≤ digitValue c) ∨ 2 ^ 64 ≤ denoted radix digits) ∧
      (value ≠ none → ∃ n : Int, value = some (intText n) ∧
        cutInWords? (denoted radix digits) signed width = some n ∧
        n ≡ denoted radix digits [ZMOD 2 ^ width] ∧
        if signed then -2 ^ (width - 1) ≤ n ∧ n < 2 ^ (width - 1) else 0 ≤ n ∧ n < 2 ^ width) := by
  intro radix value
  have same : radix = (Base.ofLetter letter).radix := by
    unfold radix Base.ofLetter
    split_ifs <;> rfl
  have values := @sizedValue_eq (.ofLetter letter) digits width filled bare least most signed
  rw [← same] at values
  constructor
  · have missed : value = none ↔
        ¬((∀ c ∈ digits, digitValue c < radix) ∧ denoted radix digits < 2 ^ 64) := by
      rw [show value = _ from values]
      simp
    rw [missed, not_and_or, not_forall₂]
    simp only [Nat.not_lt, exists_prop]
  · intro read
    refine ⟨wrap signed width (denoted radix digits), ?_, cutInWords?_eq least most _ signed,
      wrap_spec least _⟩
    refine values.trans (if_pos (Classical.byContradiction fun other => read ?_))
    exact values.trans (if_neg other)

/-- The largest word in sixteen digits, read as a signed number of 64 bits. -/
theorem sized_value_is_exact_word : ∃ n : Int,
    sizedValue "FFFFFFFFFFFFFFFF".toList true 64 (.ofLetter 'h') = some (intText n) ∧
      n ≡ 2 ^ 64 - 1 [ZMOD 2 ^ 64] ∧ -2 ^ 63 ≤ n ∧ n < 2 ^ 63 := by
  obtain ⟨-, reads⟩ := @sized_value_is_exact 'h' "FFFFFFFFFFFFFFFF".toList (by decide) (by decide)
    64 (by decide) (by decide) true
  obtain ⟨n, value, -, congruent, low, high⟩ := reads (by decide +kernel)
  exact ⟨n, value, congruent, low, high⟩

end Numeral

namespace Expression

open Regex Numeral

variable {width : Nat}

theorem sizedLiteral_signed (n : Int) (width : Nat) :
    sizedLiteral n true width .decimal =
      '#' :: (intText n ++ ':' :: (signMark true ++ (ofNat width ++ ['d']))) := by
  simp [sizedLiteral, signMark, Base.letter]

theorem isMatch_of_minus {t : Text} (sole : '#' ∉ t) :
    sizedPattern.isMatch ('#' :: '-' :: t) = false := by
  rw [isMatch, Option.isSome_eq_false_iff, Option.isNone_iff_eq_none]
  refine find?_eq_none fun pre after stop fin whole hm => ?_
  obtain ⟨-, r, rfl, rfl, digits⟩ := (spans_char '#').seq.mp hm
  obtain ⟨read, v, rfl, ⟨filled, hexadecimal⟩, -⟩ := (spans_many true _).captureSeq.mp digits
  obtain ⟨c, read, rfl⟩ := exists_cons_of_ne_nil filled
  cases pre with
  | nil =>
    cases whole
    exact absurd (hexadecimal '-' mem_cons_self) (by decide)
  | cons d pre =>
    have mem : '#' ∈ '-' :: t := by
      rw [(cons.inj whole).2]
      simp
    exact sole ((mem_cons.mp mem).resolve_left (by decide))

/-- A signed decimal literal is read back as the one number of its width that is congruent to the
integer part it was written for, if that is not negative. A negative one is written with its own
sign, and such a text is no literal and stays as it is. -/
theorem signed_decimal_reads_back (width : Nat) (least : 1 ≤ width) (most : width ≤ 64) (x : Float)
    (q : ℚ) (value : (Binary64.ofFloat x).value? = some q) (low : -2 ^ 63 ≤ towardZero q)
    (high : towardZero q < 2 ^ 63) :
    let literal := sizedLiteral (Binary64.toInt64 x) true width .decimal
    (0 ≤ towardZero q → ∃ n : Int, normalizeSized literal = (intText n, []) ∧
      n ≡ towardZero q [ZMOD 2 ^ width] ∧ -2 ^ (width - 1) ≤ n ∧ n < 2 ^ (width - 1)) ∧
    (towardZero q < 0 → normalizeSized literal = (literal, [])) := by
  intro literal
  have written : literal = '#' :: (intText (towardZero q) ++
      ':' :: (signMark true ++ (ofNat width ++ ['d']))) := by
    rw [← toInt64_eq value low high]
    exact sizedLiteral_signed _ width
  constructor
  · intro nonneg
    obtain ⟨m, whole⟩ := Int.eq_ofNat_of_zero_le nonneg
    have digits : intText (towardZero q) = toDigits .decimal m := by
      rw [whole, toDigits_decimal]
      rfl
    have fits : fitsWord m := decide_eq_true (by omega)
    have spec := @wrap_spec true width least (towardZero q)
    refine ⟨wrap true width (towardZero q), ?_, spec.1, spec.2⟩
    rw [written, digits, whole]
    exact normalizeSized_of_digits least most (toDigits_ne_nil _ m)
      (fun _ => contains_of_mem_toDigits) (ofDigits?_replicate_zero .decimal 0 m) fits true
  · intro negative
    have sign : intText (towardZero q) = '-' :: ofNat (towardZero q).natAbs := if_pos negative
    have sole :
        '#' ∉ ofNat (towardZero q).natAbs ++ ':' :: (signMark true ++ (ofNat width ++ ['d'])) := by
      have digits (n : Nat) : '#' ∉ ofNat n := fun mem => absurd (isDigit_ofNat '#' mem) (by decide)
      simp [signMark, digits]
    rw [written, sign, normalizeSized, replaceCollecting, cons_append, isMatch_of_minus sole]
    rfl

/-- The number 200 does not fit eight signed bits. -/
theorem signed_decimal_reads_back_wrapped : ∃ n : Int,
    normalizeSized (sizedLiteral (Binary64.toInt64 (Float.ofBits 0x4069000000000000))
      true 8 .decimal) = (intText n, []) ∧ n ≡ 200 [ZMOD 2 ^ 8] ∧ -2 ^ 7 ≤ n ∧ n < 2 ^ 7 := by
  have value : (Binary64.ofFloat (Float.ofBits 0x4069000000000000)).value? = some 200 := by
    have parts : Binary64.ofFloat (Float.ofBits 0x4069000000000000) =
        .finite false 7036874417766400 (-45) := by decide
    rw [parts, Binary64.value?]
    norm_num
  have whole : towardZero 200 = 200 := by norm_num [towardZero]
  simpa [whole] using (signed_decimal_reads_back 8 (by decide) (by decide) _ _ value
    (by decide) (by decide)).1 (by decide)

/-- The literal for -5 in eight signed bits is not read. -/
theorem negative_decimal_stays :
    sizedLiteral (Binary64.toInt64 (Float.ofBits 0xC014000000000000)) true 8 .decimal =
        "#-5:-8d".toList ∧ normalizeSized "#-5:-8d".toList = ("#-5:-8d".toList, []) := by
  decide +kernel

end Expression

end PrimePlus
