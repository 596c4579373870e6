import Mathlib.Data.Int.ModEq
import Mathlib.Data.Nat.Bitwise
import Mathlib.Data.Rat.Floor
import PrimePlus.Expression.Fold
import PrimePlus.Proofs.FlatMatches

/-!
Sized literals written and read.
-/

namespace PrimePlus

open List hiding all any
open Text (ofNat)
open Unicode (isDecimal isWordChar)

variable {gs : Groups}

namespace Numeral

section Digits

theorem forall_of_isDigit {p : Char → Prop} (digits : ∀ d < 10, p (Char.ofNat (48 + d))) (c : Char)
    (isDigit : c.isDigit) : p c := by
  simp only [Char.isDigit, Bool.and_eq_true, decide_eq_true_eq, UInt32.le_iff_toNat_le] at isDigit
  obtain ⟨low, high⟩ := isDigit
  obtain ⟨d, eq⟩ := Nat.exists_eq_add_of_le low
  have small : d < 10 := by
    rw [eq] at high
    exact Nat.lt_succ_of_le (Nat.le_of_add_le_add_left high)
  have char : c = Char.ofNat (48 + d) := by
    rw [← Char.ofNat_toNat c]
    exact congrArg Char.ofNat eq
  rw [char]
  exact digits d small

variable (base : Base)

theorem Base.one_lt_radix : 1 < base.radix := by
  cases base <;> decide

theorem Base.radix_le : base.radix ≤ 16 := by
  cases base <;> decide

theorem Base.ofLetter_letter : ofLetter base.letter = base := by
  cases base <;> rfl

theorem toDigits_eq (n : Nat) :
    toDigits base n = (if n < base.radix then [] else toDigits base (n / base.radix)) ++
      [(Nat.digitChar (n % base.radix)).toUpper] := by
  unfold toDigits
  rw [Nat.toDigits_eq_if base.one_lt_radix]
  split
  · next small => rw [Nat.mod_eq_of_lt small]; rfl
  · rw [map_append, map_singleton]

theorem digitValue_digitChar : ∀ d < 16, digitValue (Nat.digitChar d).toUpper = d := by
  decide

/-- What the digits of a number are read as, behind digits that were read as `m`. -/
def readDigits (base : Base) (m : Nat) (digits : Text) : Nat :=
  digits.foldl (fun n c => base.radix * n + digitValue c) m

theorem readDigits_toDigits (n : Nat) : readDigits base 0 (toDigits base n) = n := by
  induction n using Nat.strongRecOn with
  | _ n ih =>
    have last : digitValue (Nat.digitChar (n % base.radix)).toUpper = n % base.radix :=
      digitValue_digitChar _
        ((Nat.mod_lt n (Nat.zero_lt_of_lt base.one_lt_radix)).trans_le base.radix_le)
    rw [toDigits_eq, readDigits, foldl_append, foldl_cons, foldl_nil, last]
    split
    · next small => rw [foldl_nil, Nat.mul_zero, Nat.zero_add, Nat.mod_eq_of_lt small]
    · next large =>
      have shorter : n / base.radix < n :=
        Nat.div_lt_self (by have := base.one_lt_radix; omega) base.one_lt_radix
      have hu := ih (n / base.radix) shorter
      rw [readDigits] at hu
      rw [hu, Nat.div_add_mod]

theorem readDigits_replicate_zero (k : Nat) (digits : Text) :
    readDigits base 0 (replicate k '0' ++ digits) = readDigits base 0 digits := by
  induction k with
  | zero => rfl
  | succ k ih =>
    exact ih

theorem exists_of_mem_toDigits {base} {n : Nat} {c : Char} (mem : c ∈ toDigits base n) :
    ∃ d < base.radix, c = (Nat.digitChar d).toUpper := by
  have pos : 0 < base.radix := Nat.zero_lt_of_lt base.one_lt_radix
  induction n using Nat.strongRecOn with
  | _ n ih =>
    rw [toDigits_eq, mem_append, mem_singleton] at mem
    rcases mem with mem | rfl
    · split at mem
      · cases mem
      · next large =>
        exact ih (n / base.radix) (Nat.div_lt_self (by omega) base.one_lt_radix) mem
    · exact ⟨n % base.radix, Nat.mod_lt n pos, rfl⟩

theorem toDigits_ne_nil (n : Nat) : toDigits base n ≠ [] := by
  rw [toDigits_eq]
  simp

theorem ofDigits?_replicate_zero (k n : Nat) :
    ofDigits? base (replicate k '0' ++ toDigits base n) = some n := by
  have fits : ((replicate k '0' ++ toDigits base n).all fun c =>
      digitValue c < base.radix) := by
    refine all_eq_true.mpr fun c mem => ?_
    rw [decide_eq_true_eq]
    rcases mem_append.mp mem with zero | mem
    · rw [eq_of_mem_replicate zero]
      exact Nat.zero_lt_of_lt base.one_lt_radix
    · obtain ⟨d, small, rfl⟩ := exists_of_mem_toDigits mem
      rw [digitValue_digitChar d (small.trans_le base.radix_le)]
      exact small
  have ne : (replicate k '0' ++ toDigits base n).isEmpty = false := by
    simp [toDigits_ne_nil]
  have value := readDigits_replicate_zero base k (toDigits base n)
  rw [readDigits_toDigits, readDigits] at value
  rw [ofDigits?, ne, fits, value]
  rfl

theorem isDigit_ofNat {n : Nat} : ∀ c ∈ ofNat n, c.isDigit :=
  fun _ mem => Nat.isDigit_of_mem_toDigits (by decide) (by decide) mem

theorem toNat?_ofNat (n : Nat) : Text.toNat? (ofNat n) = some n := by
  have all : (ofNat n).all Char.isDigit := all_eq_true.mpr isDigit_ofNat
  have ne : (ofNat n).isEmpty = false := by
    simp [ofNat]
  have value : Text.toNat (ofNat n) = n := Nat.ofDigitChars_ten_toDigits
  rw [Text.toNat?, ne, all, value]
  rfl

end Digits

section Width

variable {signed : Bool} {width : Nat}

/-- The number of a width that an integer is cut to. -/
def wrap (signed : Bool) (width : Nat) (n : Int) : Int :=
  let bits := n % pow2 width
  if signed && pow2 (width - 1) ≤ bits then bits - pow2 width else bits

theorem wrap_spec (ne : 1 ≤ width) (n : Int) :
    wrap signed width n ≡ n [ZMOD 2 ^ width] ∧
      if signed then -2 ^ (width - 1) ≤ wrap signed width n ∧ wrap signed width n < 2 ^ (width - 1)
      else 0 ≤ wrap signed width n ∧ wrap signed width n < 2 ^ width := by
  have double : (2 : Int) ^ width = 2 * 2 ^ (width - 1) := by
    rw [← pow_succ', Nat.sub_add_cancel ne]
  have half : ((pow2 (width - 1) : Nat) : Int) = 2 ^ (width - 1) := by simp [pow2]
  have whole : ((pow2 width : Nat) : Int) = 2 ^ width := by simp [pow2]
  have low := Int.emod_nonneg n (show (2 : Int) ^ width ≠ 0 by positivity)
  have high := Int.emod_lt_of_pos n (show (0 : Int) < 2 ^ width by positivity)
  have eq := Int.mod_modEq n (2 ^ width)
  unfold wrap
  rw [whole]
  cases signed with
  | false => simpa using ⟨eq, low, high⟩
  | true =>
    simp only [Bool.true_and, decide_eq_true_eq]
    split
    · refine ⟨?_, by omega, by omega⟩
      exact (Int.sub_modulus_modEq_iff).mpr eq
    · exact ⟨eq, by omega, by omega⟩

theorem wrap_toNat_emod (signed : Bool) (width : Nat) (n : Int) :
    wrap signed width ((n % pow2 width).toNat : Nat) = wrap signed width n := by
  have nonneg : 0 ≤ n % (pow2 width : Nat) := Int.emod_nonneg n (by simp [pow2])
  unfold wrap
  rw [Int.toNat_of_nonneg nonneg, Int.emod_emod_of_dvd n (dvd_refl _)]

theorem mask?_eq (most : width ≤ 64) : mask? width = some (2 ^ width - 1) := by
  unfold mask?
  split
  · next least =>
    rw [Nat.le_antisymm most least]
    rfl
  · next less => simp [bit?, Nat.lt_of_not_le less]

theorem and_top_eq_zero_iff {bits : Nat} (ne : 1 ≤ width) (small : bits < 2 ^ width) :
    bits &&& 2 ^ (width - 1) = 0 ↔ bits < 2 ^ (width - 1) := by
  obtain ⟨k, rfl⟩ := Nat.exists_eq_add_of_le' ne
  rw [Nat.and_two_pow]
  rw [pow_succ] at small
  have pos : 0 < 2 ^ k := Nat.two_pow_pos k
  rcases Nat.lt_or_ge bits (2 ^ k) with less | more
  · simp [Nat.testBit_lt_two_pow less, less]
  · have top : bits / 2 ^ k = 1 := by
      rw [Nat.div_eq_iff pos]
      omega
    simp [Nat.testBit_eq_decide_div_mod_eq, top, more]

theorem cutInWords?_eq (ne : 1 ≤ width) (most : width ≤ 64) (raw : Nat) (signed : Bool) :
    cutInWords? raw signed width = some (wrap signed width raw) := by
  have small : raw % 2 ^ width < 2 ^ width := Nat.mod_lt raw (Nat.two_pow_pos width)
  have cut : ((raw : Int) % (pow2 width : Nat)) = ((raw % 2 ^ width : Nat) : Int) := rfl
  unfold cutInWords? wrap
  rw [mask?_eq most, Option.bind_some, Nat.and_two_pow_sub_one_eq_mod, cut]
  generalize raw % 2 ^ width = bits at small
  have half : ((pow2 (width - 1) : Nat) : Int) = ((2 ^ (width - 1) : Nat) : Int) := rfl
  rw [half]
  cases signed with
  | false => simp
  | true =>
    simp only [Bool.true_and, decide_eq_true_eq, Nat.cast_le]
    rcases Nat.lt_or_ge width 64 with less | least
    · have room : (2 : Nat) ^ width ≤ 2 ^ 63 := Nat.pow_le_pow_right (by decide) (by omega)
      have within : -(pow2 127 : Int) ≤ (bits : Int) - (2 ^ width : Nat) := by
        rw [show ((pow2 127 : Nat) : Int) = 2 ^ 127 from rfl]
        omega
      have top : bit? 64 (width - 1) = some (2 ^ (width - 1)) := if_pos (by omega)
      have wide : bit? 128 width = some (2 ^ width) := if_pos (by omega)
      rw [if_pos less, if_pos ne, top, wide, Option.bind_some, Option.bind_some]
      simp only [and_top_eq_zero_iff ne small, ← Nat.not_lt, if_pos within]
      split <;> rfl
    · obtain rfl : width = 64 := Nat.le_antisymm most least
      rw [if_neg (by decide), if_pos rfl]
      simp only [← Nat.not_lt, ite_not]
      rfl

end Width

section Truncation

def Binary64.value? : Binary64 → Option ℚ
  | .finite negative mantissa exponent =>
    some ((if negative then -1 else 1) * (mantissa * 2 ^ exponent))
  | .infinite _ | .undefined => none

def towardZero (q : ℚ) : Int :=
  if q < 0 then ⌈q⌉ else ⌊q⌋

theorem floor_mantissa (m : Nat) (e : Int) :
    ⌊(m : ℚ) * 2 ^ e⌋ = ((Binary64.fraction m e).1 / (Binary64.fraction m e).2 : Int) := by
  have split : (m : ℚ) * 2 ^ e =
      ((Binary64.fraction m e).1 : ℚ) / ((Binary64.fraction m e).2 : ℚ) := by
    unfold Binary64.fraction
    rcases Int.le_total 0 e with nonneg | nonpos
    · obtain ⟨k, rfl⟩ := Int.eq_ofNat_of_zero_le nonneg
      simp [pow2]
    · obtain ⟨k, whole⟩ := Int.eq_ofNat_of_zero_le (Int.neg_nonneg.mpr nonpos)
      obtain rfl : e = -(k : Int) := by omega
      simp [div_eq_mul_inv]
  rw [split, Rat.floor_natCast_div_natCast]

theorem toInt64_eq {x : Float} {q : ℚ} (value : (Binary64.ofFloat x).value? = some q)
    (low : -2 ^ 63 ≤ towardZero q) (high : towardZero q < 2 ^ 63) :
    Binary64.toInt64 x = towardZero q := by
  have bound : ((pow2 63 : Nat) : Int) = 2 ^ 63 := by norm_num [pow2]
  unfold Binary64.toInt64
  cases parts : Binary64.ofFloat x with
  | infinite negative | undefined =>
    rw [parts] at value
    cases value
  | finite negative m e =>
    rw [parts, Binary64.value?, Option.some_inj] at value
    have magnitude : (0 : ℚ) ≤ m * 2 ^ e :=
      mul_nonneg (Nat.cast_nonneg m) (zpow_nonneg (by norm_num) e)
    have floor := floor_mantissa m e
    dsimp only
    rw [bound, ← floor]
    generalize (m : ℚ) * 2 ^ e = size at *
    subst value
    cases negative with
    | false =>
      have whole : towardZero ((if false then -1 else 1) * size) = ⌊size⌋ := by
        simp [towardZero, magnitude]
      rw [whole] at high ⊢
      rw [if_neg (by decide), min_eq_left (by omega)]
    | true =>
      have whole : towardZero ((if true then -1 else 1) * size) = -⌊size⌋ := by
        rcases magnitude.lt_or_eq with pos | zero
        · simp [towardZero, pos, Int.ceil_neg]
        · simp [towardZero, ← zero]
      rw [whole] at low ⊢
      rw [if_pos rfl, max_eq_left low]

end Truncation

end Numeral

namespace Regex

open Cursor (between)

section Whole

variable {α : Type} {next : Continuation α}

theorem run_char_seq (c : Char) (r : Regex) (pre after : Text) (gs : Groups) :
    (seq (char c) r).run (between pre (c :: after)) gs next =
      r.run (between (pre ++ [c]) after) gs next := by
  rw [run, char, run_one_between, if_pos (beq_self_eq_true c)]

theorem run_capture_plus_seq {accepts : Char → Bool} {index : Nat} {r : Regex}
    {pre read after : Text} {result : α} (ne : read ≠ []) (all : ∀ c ∈ read, accepts c)
    (stops : after.head?.any accepts = false)
    (goes : r.run (between (pre ++ read) after)
      (⟨index, between pre (read ++ after), between (pre ++ read) after⟩ :: gs) next =
        some result) :
    (seq (.capture index (plus (.one accepts))) r).run (between pre (read ++ after))
      gs next = some result := by
  exact run_plus_of_longest ne all stops goes

theorem run_opt_of_some {r : Regex} {cur : Cursor} {result : α}
    (goes : r.run cur gs next = some result) : (opt r).run cur gs next = some result := by
  rw [run_opt, goes, Option.some_or]

end Whole

end Regex

namespace Expression

open Regex Numeral
open Cursor (between)

section Literals

variable {digits width : Text} {signed : Bool} {letter : Char}

def signMark (signed : Bool) : Text :=
  if signed then ['-'] else []

structure Reads (found : Match) (digits : Text) (signed : Bool) (width : Text) (letter : Char) :
    Prop where
  digits : found.group 1 = digits
  signed : (found.group? 2).isSome = signed
  width : found.group? 3 = some width
  base : found.group 4 = [letter]

def signGroups (before : Text) (signed : Bool) (after : Text) : Groups :=
  if signed then [⟨2, between before ('-' :: after), between (before ++ ['-']) after⟩] else []

variable {α : Type} {next : Continuation α}

variable {result : α}

theorem run_sign_seq {r : Regex} {pre after : Text} (other : after.head? ≠ some '-')
    (goes : r.run (between (pre ++ signMark signed) after) (signGroups pre signed after
      ++ gs) next = some result) :
    (seq (opt (.capture 2 (char '-'))) r).run (between pre (signMark signed ++ after))
      gs next = some result := by
  cases signed with
  | true =>
    apply run_opt_of_some
    show (capture 2 (char '-')).run (between pre ('-' :: after)) gs _ = some result
    rw [run, char, run_one_between]
    exact goes
  | false =>
    have missed (next : Continuation α) :
        (capture 2 (char '-')).run (between pre after) gs next = none := by
      rw [run, char]
      cases after with
      | nil => rfl
      | cons c after => rw [run_one_between, if_neg (by simpa using other)]
    show (opt (.capture 2 (char '-'))).run (between pre after) gs _ = some result
    rw [run_opt, missed]
    simpa [signMark, signGroups] using goes

theorem run_letter (known : "bodh".toList.contains letter)
    (isWord : isWordChar letter) (pre : Text) (gs : Groups)
    (goes : next (between (pre ++ [letter]) []) (⟨4, between pre [letter], between (pre
      ++ [letter]) []⟩ :: gs) = some result) :
    (all [opt (.capture 4 (oneOf "bodh")), edge]).run (between pre [letter]) gs next =
      some result := by
  refine run_opt_of_some ?_
  rw [run, oneOf, run_one_between, if_pos known]
  have ha : (between (pre ++ [letter]) []).atEdge isWordChar := by
    simp [Cursor.atEdge_between, isWord]
  exact (run_edge ha .empty).trans goes

theorem run_width {pre after : Text} (someWidth : width ≠ []) (decimal : ∀ c ∈ width, isDecimal c)
    (stops : after.head?.any isDecimal = false)
    (goes : next (between (pre ++ [':'] ++ signMark signed ++ width) after) (⟨3, between
      (pre ++ [':'] ++ signMark signed) (width ++ after), between (pre ++ [':'] ++ signMark
      signed ++ width) after⟩ :: (signGroups (pre ++ [':']) signed (width ++ after) ++ gs))
      = some result) :
    (opt (all [char ':', opt (.capture 2 (char '-')), .capture 3 (plus digit)])).run
      (between pre (':' :: (signMark signed ++ (width ++ after)))) gs next = some result := by
  have unsigned : (width ++ after).head? ≠ some '-' := by
    obtain ⟨c, r, rfl⟩ := exists_cons_of_ne_nil someWidth
    intro eq
    cases eq
    exact absurd (decimal '-' mem_cons_self) (by decide)
  apply run_opt_of_some
  show (seq (char ':') _).run _ gs next = some result
  rw [run_char_seq]
  exact run_sign_seq unsigned (run_capture_plus_seq someWidth decimal stops goes)

theorem matchAt_sizedPattern (ne : digits ≠ [])
    (hexadecimal : ∀ c ∈ digits, "0123456789ABCDEF".toList.contains c)
    (someWidth : width ≠ []) (decimal : ∀ c ∈ width, isDecimal c)
    (known : "bodh".toList.contains letter) (isWord : isWordChar letter)
    (other : isDecimal letter = false) :
    ∃ hit, sizedPattern.matchAt
        (.start ('#' :: (digits ++ ':' :: (signMark signed ++ (width ++ [letter]))))) = some hit ∧
      hit.stop.after = [] ∧ Reads hit digits signed width letter := by
  -- the places behind the digits, behind the sign and behind the width
  let number := '#' :: digits
  let sign := number ++ [':'] ++ signMark signed
  let front := sign ++ width
  let gs : Groups := ⟨4, between front [letter], between (front ++ [letter]) []⟩ ::
    ⟨3, between sign (width ++ [letter]), between front [letter]⟩ ::
    (signGroups (number ++ [':']) signed (width ++ [letter]) ++
      [⟨1, between ['#'] (digits ++ ':' :: (signMark signed ++ (width ++ [letter]))),
        between number (':' :: (signMark signed ++ (width ++ [letter])))⟩])
  let start := Cursor.start ('#' :: (digits ++ ':' :: (signMark signed ++ (width ++ [letter]))))
  refine ⟨⟨start, between (front ++ [letter]) [], gs⟩, ?_, rfl, ?_⟩
  · show (seq (char '#') _).run (between [] _) [] _ = _
    rw [run_char_seq]
    have stops : "0123456789ABCDEF".toList.contains ':' = false := by decide
    refine run_capture_plus_seq ne hexadecimal stops ?_
    refine run_width someWidth decimal (by simpa using other) ?_
    exact run_letter known isWord _ _ rfl
  · have spanDigits := Cursor.spanTo_between ['#'] digits
      (':' :: (signMark signed ++ (width ++ [letter])))
    have spanWidth := Cursor.spanTo_between sign width [letter]
    have spanLetter := Cursor.spanTo_between front [letter] []
    refine ⟨?_, ?_, congrArg some spanWidth, spanLetter⟩
    · cases signed <;> exact spanDigits
    · cases signed <;> rfl

end Literals

section RoundTrip

variable {width : Nat} {base : Base} {signed : Bool}

theorem contains_of_mem_toDigits {n : Nat} {c : Char} (mem : c ∈ toDigits base n) :
    "0123456789ABCDEF".toList.contains c := by
  have digits : ∀ d < 16, "0123456789ABCDEF".toList.contains (Nat.digitChar d).toUpper := by decide
  obtain ⟨d, small, rfl⟩ := exists_of_mem_toDigits mem
  exact digits d (small.trans_le base.radix_le)

theorem contains_letter (base : Base) : "bodh".toList.contains base.letter ∧
    isWordChar base.letter ∧ isDecimal base.letter = false := by
  cases base <;> decide

theorem sizedLiteral_eq (hp : base = .decimal → signed = false) (n : Int) (width : Nat) :
    ∃ zeros, sizedLiteral n signed width base =
      '#' :: (replicate zeros '0' ++ toDigits base (n % pow2 width).toNat ++
        ':' :: (signMark signed ++ (ofNat width ++ [base.letter]))) := by
  cases base with
  | hexadecimal =>
    let digits := toDigits .hexadecimal (n % pow2 width).toNat
    exact ⟨(width + 3) / 4 - digits.length, by simp [sizedLiteral, signMark, digits]⟩
  | decimal => exact ⟨0, by simp [sizedLiteral, signMark, hp rfl]⟩
  | binary | octal => exact ⟨0, by simp [sizedLiteral, signMark]⟩

section

variable (ne : 1 ≤ width) (most : width ≤ 64)

include most

theorem fitsWord_emod (n : Int) : fitsWord (n % pow2 width).toNat := by
  have pos : (0 : Int) < (pow2 width : Nat) := by simp [pow2]
  have small := Int.emod_lt_of_pos n pos
  have power : pow2 width ≤ 0x10000000000000000 := Nat.pow_le_pow_right (by decide) most
  rw [fitsWord, decide_eq_true_eq]
  omega

include ne

theorem literalWidth?_ofNat : literalWidth? (ofNat width) = some width := by
  rw [literalWidth?, toNat?_ofNat]
  simp [ne, most]

theorem sizedValue_of_digits {digits : Text} {raw : Nat} (unsigned : '+' ∉ digits)
    (denotes : ofDigits? base digits = some raw) (fits : fitsWord raw) (signed : Bool) :
    sizedValue digits signed width base = some (intText (wrap signed width raw)) := by
  have bare (r : Text) : digits = '+' :: r → False := by
    rintro rfl
    exact unsigned mem_cons_self
  rw [sizedValue.eq_2 digits signed width base bare, denotes, Option.bind_some, fits,
    if_neg (Nat.ne_of_gt ne), cutInWords?_eq ne most]
  rfl

theorem sizedImage_of_reads {hit : Match} {digits : Text}
    (reads : Reads hit digits signed (ofNat width) base.letter) {value : Text}
    (denotes : sizedValue digits signed width base = some value) :
      sizedImage hit = (value, []) := by
  have letter : Base.ofLetter ((hit.group 4).head?.getD 'd') = base := by
    rw [reads.base]
    exact base.ofLetter_letter
  rw [sizedImage, reads.width]
  dsimp only
  rw [literalWidth?_ofNat ne most, letter, reads.digits, reads.signed]
  dsimp only
  rw [denotes]
  rfl

theorem normalizeSized_of_digits {digits : Text} {raw : Nat} (filled : digits ≠ [])
    (hexadecimal : ∀ c ∈ digits, "0123456789ABCDEF".toList.contains c)
    (denotes : ofDigits? base digits = some raw) (fits : fitsWord raw) (signed : Bool) :
    normalizeSized ('#' :: (digits ++ ':' :: (signMark signed ++ (ofNat width ++ [base.letter])))) =
      (intText (wrap signed width raw), []) := by
  obtain ⟨known, isWord, o⟩ := contains_letter base
  have decimal : ∀ c : Char, c.isDigit → isDecimal c := forall_of_isDigit (by decide)
  obtain ⟨hit, hm, whole, reads⟩ := @matchAt_sizedPattern _ _ signed _ filled hexadecimal
    (by simp [ofNat]) (fun c mem => decimal c (isDigit_ofNat c mem)) known isWord o
  have unsigned : '+' ∉ digits := fun mem => absurd (hexadecimal '+' mem) (by decide)
  have image := sizedImage_of_reads ne most reads
    (sizedValue_of_digits ne most unsigned denotes fits signed)
  have first := @find?_of_first hit sizedPattern [] _ hm (by simp [Misses])
  rw [nil_append] at first
  rw [normalizeSized, replaceCollecting, if_pos (by rw [isMatch, first]; rfl),
    pieces_of_whole (cons_ne_nil _ _) hm whole, assembleCollecting, image]
  simp [assembleCollecting]

theorem normalizeSized_sizedLiteral (hp : base = .decimal → signed = false) (n : Int) :
    normalizeSized (sizedLiteral n signed width base) = (intText (wrap signed width n), []) := by
  obtain ⟨zeros, written⟩ := sizedLiteral_eq hp n width
  have hexadecimal : ∀ c ∈ replicate zeros '0' ++ toDigits base (n % pow2 width).toNat,
      "0123456789ABCDEF".toList.contains c := by
    intro c mem
    rcases mem_append.mp mem with zero | mem
    · rw [eq_of_mem_replicate zero]
      decide
    · exact contains_of_mem_toDigits mem
  rw [written, ← wrap_toNat_emod]
  exact normalizeSized_of_digits ne most (by simp [toDigits_ne_nil]) hexadecimal
    (ofDigits?_replicate_zero base zeros _) (fitsWord_emod most n) signed

end

/-- A number that is written as a literal of a width, with or without a sign in base two, eight and
sixteen and without one in base ten, is read back without a fault as the one number of that width
that is congruent to its integer part. -/
theorem rendered_literal_reads_back (width : Nat) (filled : 1 ≤ width) (most : width ≤ 64)
    (base : Base) (signed : Bool) (plain : base = .decimal → signed = false) (x : Float) (q : ℚ)
    (value : (Binary64.ofFloat x).value? = some q) (low : -2 ^ 63 ≤ towardZero q)
    (high : towardZero q < 2 ^ 63) :
    ∃ n : Int, normalizeSized (sizedLiteral (Binary64.toInt64 x) signed width base) =
        (intText n, []) ∧
      n ≡ towardZero q [ZMOD 2 ^ width] ∧
      if signed then -2 ^ (width - 1) ≤ n ∧ n < 2 ^ (width - 1) else 0 ≤ n ∧ n < 2 ^ width := by
  refine ⟨wrap signed width (towardZero q), ?_, wrap_spec filled _⟩
  rw [toInt64_eq value low high, normalizeSized_sizedLiteral filled most plain]

/-- The number -130.5 in eight signed bits. -/
theorem rendered_literal_reads_back_signed :
    ∃ n : Int,
      normalizeSized (sizedLiteral (Binary64.toInt64 (Float.ofBits 0xC060500000000000)) true 8
        .hexadecimal) = (intText n, []) ∧
      n ≡ towardZero (-(261 / 2)) [ZMOD 2 ^ 8] ∧ -2 ^ 7 ≤ n ∧ n < 2 ^ 7 := by
  have value : (Binary64.ofFloat (Float.ofBits 0xC060500000000000)).value? = some (-(261 / 2)) := by
    have parts : Binary64.ofFloat (Float.ofBits 0xC060500000000000) =
        .finite true 4591560557592576 (-45) := by decide
    rw [parts, Binary64.value?]
    norm_num
  have whole : towardZero (-(261 / 2)) = -130 := by
    norm_num [towardZero]
  simpa using rendered_literal_reads_back 8 (by decide) (by decide) .hexadecimal true
    (by decide) _ _ value (by rw [whole]; decide) (by rw [whole]; decide)

end RoundTrip

end Expression

end PrimePlus
