import Mathlib.Data.List.DropRight
import PrimePlus.Program.Minify
import PrimePlus.Proofs.LiteralArithmetic

/-!
A small program writes every decimal numeral in one form, the shortest of those with its value.
-/

namespace PrimePlus.Program

open List hiding all any
open Numeral (denoted digitValue)

variable {w p w' p' n : Text}

section Parts

/-- The digits in front of the point of a numeral and those behind it. -/
def cutPoint (t : Text) : Text × Text :=
  (Text.cutAt? ['.'] t).getD (t, [])

/-- What is written for digits behind the point; without any there is no point. -/
def pointed (p : Text) : Text :=
  if p.isEmpty then [] else '.' :: p

def whole (w : Text) : Text :=
  if w.isEmpty then ['0'] else w

def significant (w : Text) : Text :=
  w.dropWhile (· == '0')

def shortened (p : Text) : Text :=
  p.rdropWhile (· == '0')

theorem trimNumeral_eq (t : Text) :
    trimNumeral t = whole (significant (cutPoint t).1) ++ pointed (shortened (cutPoint t).2) :=
  rfl

theorem cutPoint_cons {c : Char} (other : c ≠ '.') (t : Text) :
    cutPoint (c :: t) = (c :: (cutPoint t).1, (cutPoint t).2) := by
  have missed : ¬(['.'].isPrefixOf (c :: t)) := by simp [other.symm]
  rw [cutPoint, Text.cutAt?, if_neg missed]
  exact Option.getD_map (fun cut : Text × Text => (c :: cut.1, cut.2)) (t, []) (Text.cutAt? ['.'] t)

theorem cutPoint_pointed (apart : '.' ∉ w) (p : Text) : cutPoint (w ++ pointed p) = (w, p) := by
  induction w with
  | nil => cases p <;> rfl
  | cons c w ih =>
    obtain ⟨other, apart⟩ := not_or.mp (mt mem_cons.mpr apart)
    rw [cons_append, cutPoint_cons (Ne.symm other), ih apart]

theorem point_notMem_cutPoint (t : Text) : '.' ∉ (cutPoint t).1 := by
  induction t with
  | nil => simp [cutPoint, Text.cutAt?]
  | cons c t ih =>
    by_cases point : c = '.'
    · simp [point, cutPoint, Text.cutAt?]
    · simpa [cutPoint_cons point, Ne.symm point] using ih

theorem cutPoint_whole (apart : '.' ∉ w) (p : Text) :
    cutPoint (whole w ++ pointed p) = (whole w, p) := by
  refine cutPoint_pointed ?_ p
  cases w with
  | nil => decide
  | cons c w => exact apart

theorem significant_whole (w : Text) : significant (whole w) = significant w := by
  cases w <;> rfl

theorem cutPoint_trimNumeral (t : Text) : cutPoint (trimNumeral t) =
    (whole (significant (cutPoint t).1), shortened (cutPoint t).2) :=
  cutPoint_whole (fun mem => point_notMem_cutPoint t ((dropWhile_sublist _).subset mem)) _

theorem trimNumeral_trimNumeral (t : Text) : trimNumeral (trimNumeral t) = trimNumeral t := by
  rw [trimNumeral_eq (trimNumeral t), cutPoint_trimNumeral, significant_whole,
    significant, significant, shortened, shortened, dropWhile_idempotent, rdropWhile_idempotent]
  rfl

end Parts

section Digits

theorem digitChar_digitValue :
    ∀ c : Char, c.isDigit → digitValue c < 10 ∧ Nat.digitChar (digitValue c) = c :=
  Numeral.forall_of_isDigit (by decide)

theorem eq_of_denoted_eq {a b : Text} (all : a.all Char.isDigit) (all' : b.all Char.isDigit)
    (length : a.length = b.length) (eq : denoted 10 a = denoted 10 b) : a = b := by
  have digit {t : Text} (all : t.all Char.isDigit) (c : Char) (mem : c ∈ t.reverse) :=
    digitChar_digitValue c (all_eq_true.mp all c (mem_reverse.mp mem))
  have small {t : Text} (all : t.all Char.isDigit) : ∀ d ∈ t.reverse.map digitValue, d < 10 :=
    forall_mem_map.mpr fun c mem => (digit all c mem).1
  have text {t : Text} (all : t.all Char.isDigit) :
      (t.reverse.map digitValue).map Nat.digitChar = t.reverse := by
    rw [map_map]
    exact (map_congr_left fun c mem => (digit all c mem).2).trans (map_id _)
  have same :=
    Nat.ofDigits_inj_of_len_eq (by decide) (by simpa using length) (small all) (small all') eq
  rw [← reverse_inj, ← text all, same, text all']

theorem denoted_append (radix : Nat) (a b : Text) :
    denoted radix (a ++ b) = denoted radix a * radix ^ b.length + denoted radix b := by
  rw [denoted, reverse_append, map_append, Nat.ofDigits_append, length_map, length_reverse,
    Nat.add_comm, Nat.mul_comm]
  rfl

theorem denoted_zeros (radix k : Nat) : denoted radix (replicate k '0') = 0 := by
  induction k with
  | zero => rfl
  | succ k ih =>
    rw [replicate_succ', denoted_append, ih]
    simp [denoted, digitValue]

/-- Digits in front of a point and behind it, with zeros at both ends. -/
theorem denoted_padded (k l : Nat) (w p : Text) :
    denoted 10 ((replicate k '0' ++ w) ++ (p ++ replicate l '0')) =
      denoted 10 (w ++ p) * 10 ^ l := by
  rw [append_assoc, ← append_assoc w, denoted_append, denoted_zeros, denoted_append, denoted_zeros,
    zero_mul, zero_add, add_zero, length_replicate]

end Digits

section Values

/-- The number that all digits denote, divided by ten once for each digit behind the point. -/
def quotient (w p : Text) : ℚ :=
  denoted 10 (w ++ p) / 10 ^ p.length

def rational (numeral : Text) : ℚ :=
  quotient (cutPoint numeral).1 (cutPoint numeral).2

/-- One or more digits, and possibly a point with one or more digits behind it. -/
def IsNumeral (t : Text) : Prop :=
  ∃ w p, w ≠ [] ∧ (w ++ p).all Char.isDigit ∧ t = w ++ pointed p

/-- Nothing of a numeral can be left out: digits in front of the point that start with a zero are
that zero alone, no zero is the last digit behind the point, and no point is the end. -/
structure IsTrimmed (numeral : Text) : Prop where
  front : (cutPoint numeral).1.head? = some '0' → (cutPoint numeral).1 = ['0']
  back : (cutPoint numeral).2.getLast? ≠ some '0'
  point : numeral.getLast? ≠ some '.'

theorem exists_zeros (w : Text) : ∃ k, w = replicate k '0' ++ significant w := by
  have zero : ∀ c ∈ w.takeWhile (· == '0'), c = '0' := fun c mem => by
    simpa using mem_takeWhile_imp mem
  have split := takeWhile_append_dropWhile (p := (· == '0')) (l := w)
  rw [eq_replicate_of_mem zero] at split
  exact ⟨_, split.symm⟩

theorem shortened_eq (p : Text) : shortened p = (significant p.reverse).reverse :=
  rfl

theorem exists_zeros_behind (p : Text) : ∃ k, p = shortened p ++ replicate k '0' := by
  obtain ⟨k, eq⟩ := exists_zeros p.reverse
  refine ⟨k, ?_⟩
  rw [shortened_eq, ← reverse_replicate, ← reverse_append, ← eq, reverse_reverse]

theorem quotient_trimmed (w p : Text) : quotient (significant w) (shortened p) = quotient w p := by
  obtain ⟨k, front⟩ := exists_zeros w
  obtain ⟨l, back⟩ := exists_zeros_behind p
  conv_rhs => rw [front, back, quotient, denoted_padded, length_append, length_replicate]
  rw [quotient, Nat.cast_mul, Nat.cast_pow, Nat.cast_ofNat, pow_add,
    mul_div_mul_right _ _ (pow_ne_zero l (by decide))]

theorem rational_trimNumeral (t : Text) : rational (trimNumeral t) = rational t := by
  rw [rational, cutPoint_trimNumeral, ← quotient_trimmed, significant_whole, quotient_trimmed,
    quotient_trimmed]
  rfl

theorem significant_zeros (k : Nat) (w : Text) :
    significant (replicate k '0' ++ w) = significant w :=
  dropWhile_append_of_pos fun c mem => by simp [eq_of_mem_replicate mem]

theorem shortened_zeros (k : Nat) (p : Text) : shortened (p ++ replicate k '0') = shortened p := by
  rw [shortened_eq, reverse_append, reverse_replicate, significant_zeros]
  rfl

/-- With zeros at both ends two numerals of one value get as many digits before and behind the
point, and then they are one text. -/
theorem trimmed_eq_of_quotient_eq (all : (w ++ p).all Char.isDigit)
    (all' : (w' ++ p').all Char.isDigit) (eq : quotient w p = quotient w' p') :
    significant w = significant w' ∧ shortened p = shortened p' := by
  have scaled : denoted 10 (w ++ p) * 10 ^ p'.length = denoted 10 (w' ++ p') * 10 ^ p.length := by
    rw [quotient, quotient, div_eq_div_iff (by positivity) (by positivity)] at eq
    exact_mod_cast eq
  have same : (replicate w'.length '0' ++ w) ++ (p ++ replicate p'.length '0') =
      (replicate w.length '0' ++ w') ++ (p' ++ replicate p.length '0') := by
    rw [all_append, Bool.and_eq_true] at all all'
    apply eq_of_denoted_eq
    · simp [all]
    · simp [all']
    · simp only [length_append, length_replicate]
      omega
    · rw [denoted_padded, denoted_padded, scaled]
  obtain ⟨front, back⟩ := append_inj same (by simp [Nat.add_comm])
  rw [← significant_zeros w'.length w, front, significant_zeros,
    ← shortened_zeros p'.length p, back, shortened_zeros]
  exact ⟨rfl, rfl⟩

theorem head?_significant (w : Text) : (significant w).head? ≠ some '0' := fun zero => by
  have first := head?_dropWhile_not (· == '0') w
  rw [significant] at zero
  simp [zero] at first

theorem point_notMem_of_all (all : w.all Char.isDigit) : '.' ∉ w := fun mem =>
  absurd (all_eq_true.mp all _ mem) (by decide)

theorem isTrimmed_of_all (all : (w ++ p).all Char.isDigit) (front : w.head? ≠ some '0')
    (back : p.getLast? ≠ some '0') :
    IsNumeral (whole w ++ pointed p) ∧ IsTrimmed (whole w ++ pointed p) := by
  rw [all_append, Bool.and_eq_true] at all
  obtain ⟨ne, digits, zero⟩ : whole w ≠ [] ∧ (whole w).all Char.isDigit ∧
      ((whole w).head? = some '0' → whole w = ['0']) := by
    cases w with
    | nil => decide
    | cons c w => exact ⟨cons_ne_nil c w, all.1, fun first => absurd first front⟩
  refine ⟨⟨whole w, p, ne, by simp [digits, all], rfl⟩, ?_⟩
  have cut := cutPoint_whole (point_notMem_of_all all.1) p
  refine ⟨by rwa [cut], by rwa [cut], fun last => ?_⟩
  cases p with
  | nil =>
    rw [pointed, isEmpty_nil, if_pos rfl, append_nil] at last
    exact point_notMem_of_all digits (mem_of_getLast? last)
  | cons d p =>
    rw [pointed, isEmpty_cons, if_neg Bool.false_ne_true, getLast?_append,
      getLast?_cons_cons] at last
    exact point_notMem_of_all all.2 (mem_of_getLast? (by simpa [getLast?_cons] using last))

/-- Zeros at the ends of a numeral are no part of its value, and they are left out. What remains is
the same for two numerals exactly when they have the same value. -/
theorem trimmed_numeral_is_canonical (hn : IsNumeral n) :
    (IsNumeral (trimNumeral n) ∧ rational (trimNumeral n) = rational n ∧
      IsTrimmed (trimNumeral n)) ∧
    (∀ m, IsNumeral m → (rational m = rational n ↔ trimNumeral m = trimNumeral n)) ∧
    ∀ t, trimNumeral (trimNumeral t) = trimNumeral t := by
  obtain ⟨w, p, ne, all, rfl⟩ := hn
  have cut {w p : Text} (all : (w ++ p).all Char.isDigit) : cutPoint (w ++ pointed p) = (w, p) := by
    rw [all_append, Bool.and_eq_true] at all
    exact cutPoint_pointed (point_notMem_of_all all.1) p
  have kept : (significant w ++ shortened p).all Char.isDigit := by
    rw [all_eq_true] at all ⊢
    intro c mem
    refine all c (mem_append.mpr ((mem_append.mp mem).imp ?_ ?_))
    · exact fun mem => (dropWhile_sublist _).subset mem
    · have short : shortened p <+: p := rdropWhile_prefix _ _
      exact fun mem => short.subset mem
  have last : (shortened p).getLast? ≠ some '0' := by
    rw [shortened_eq, getLast?_reverse]
    exact head?_significant p.reverse
  have eq : trimNumeral (w ++ pointed p) = whole (significant w) ++ pointed (shortened p) := by
    rw [trimNumeral_eq, cut all]
  obtain ⟨numeral, trimmed⟩ := isTrimmed_of_all kept (head?_significant w) last
  refine ⟨⟨eq ▸ numeral, rational_trimNumeral _, eq ▸ trimmed⟩, ?_, trimNumeral_trimNumeral⟩
  rintro _ ⟨w', p', -, all', rfl⟩
  constructor
  · intro value
    rw [rational, rational, cut all, cut all'] at value
    obtain ⟨front, back⟩ := trimmed_eq_of_quotient_eq all' all value
    rw [eq, trimNumeral_eq, cut all', front, back]
  · intro same
    rw [← rational_trimNumeral, same, rational_trimNumeral]

/-- Zeros inside a numeral belong to its value. -/
theorem padded_numeral_is_trimmed :
    let small := "70.025".toList
    trimNumeral "0070.0250".toList = small ∧ rational small = rational "0070.0250".toList ∧
      IsTrimmed small ∧ rational "70.25".toList ≠ rational "0070.0250".toList := by
  have numeral (w p : Text) (ne : w ≠ []) (all : (w ++ p).all Char.isDigit) :
      IsNumeral (w ++ pointed p) := ⟨w, p, ne, all, rfl⟩
  have padded := numeral "0070".toList "0250".toList (by decide) (by decide)
  have other := numeral "70".toList "25".toList (by decide) (by decide)
  obtain ⟨⟨-, value, trimmed⟩, unique, -⟩ := trimmed_numeral_is_canonical padded
  exact ⟨by decide, value, trimmed, fun same => absurd ((unique _ other).mp same) (by decide)⟩

end Values

end PrimePlus.Program
