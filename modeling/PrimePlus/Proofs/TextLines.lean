import Mathlib.Data.List.TakeWhile
import PrimePlus.Text.Basic

/-!
Texts that are made of lines.
-/

namespace PrimePlus.Unicode

def blankPoints : List Nat :=
  [0x9, 0xA, 0xB, 0xC, 0xD, 0x20, 0x85, 0xA0, 0x1680, 0x2000, 0x2001, 0x2002, 0x2003, 0x2004,
    0x2005, 0x2006, 0x2007, 0x2008, 0x2009, 0x200A, 0x2028, 0x2029, 0x202F, 0x205F, 0x3000]

variable {c : Char}

theorem eq_false_of_isBlank {accepts : Char → Bool}
    (missed : ∀ n ∈ blankPoints, accepts (Char.ofNat n) = false) (hb : isBlank c) :
    accepts c = false := by
  have mem := missed c.toNat (by
    simp only [isBlank, Bool.or_eq_true, Bool.and_eq_true, decide_eq_true_eq, beq_iff_eq] at hb
    simp only [blankPoints, List.mem_cons]
    omega)
  rwa [Char.ofNat_toNat] at mem

theorem not_isBlank_of {accepts : Char → Bool}
    (missed : ∀ n ∈ blankPoints, accepts (Char.ofNat n) = false) (acc : accepts c) :
    isBlank c = false :=
  Bool.eq_false_iff.mpr fun hb =>
    Bool.false_ne_true ((eq_false_of_isBlank missed hb).symm.trans acc)

theorem not_isNameChar_of_isBlank (hb : isBlank c) : isNameChar c = false :=
  eq_false_of_isBlank (by decide +kernel) hb

theorem not_isWordChar_of_isBlank (hb : isBlank c) : isWordChar c = false :=
  eq_false_of_isBlank (by decide +kernel) hb

theorem not_isBlank_of_isWordChar (letter : isWordChar c) : isBlank c = false :=
  not_isBlank_of (by decide +kernel) letter

theorem toNat_lt_of_isAlphanum (ascii : c.isAlphanum) : c.toNat < 0x80 := by
  have bounds : (65 ≤ c.val ∧ c.val ≤ 90 ∨ 97 ≤ c.val ∧ c.val ≤ 122) ∨ 48 ≤ c.val ∧ c.val ≤ 57 := by
    unfold Char.isAlphanum Char.isAlpha Char.isUpper Char.isLower Char.isDigit at ascii
    simpa using ascii
  have within : (65 ≤ c.toNat ∧ c.toNat ≤ 90 ∨ 97 ≤ c.toNat ∧ c.toNat ≤ 122) ∨
    48 ≤ c.toNat ∧ c.toNat ≤ 57 := bounds
  omega

theorem isWordChar_of_isAlphanum (ascii : c.isAlphanum) : isWordChar c := by
  simp [isWordChar, toNat_lt_of_isAlphanum ascii, ascii]

theorem isNameChar_of_isAlphanum (ascii : c.isAlphanum) : isNameChar c := by
  have small := toNat_lt_of_isAlphanum ascii
  simpa [isNameChar, isAlphanumeric, isAlphabetic, isNumeric, small] using
    .inl (Bool.or_eq_true_iff.mp ascii)

end PrimePlus.Unicode

namespace PrimePlus.Text

open List

open Unicode (isBlank isWordChar)

variable {right : Text}

theorem isBlank_newline : isBlank '\n' := by decide

theorem isBlank_space : isBlank ' ' := by decide

theorem isBlank_return : isBlank '\r' := by decide

def ofLines (list : List Text) : Text :=
  list.flatMap fun line => line ++ ['\n']

@[simp] theorem ofLines_nil : ofLines [] = [] :=
  rfl

@[simp] theorem ofLines_cons (line : Text) (rest : List Text) :
    ofLines (line :: rest) = line ++ '\n' :: ofLines rest := by
  simp [ofLines]

@[simp] theorem ofLines_append (left right : List Text) :
    ofLines (left ++ right) = ofLines left ++ ofLines right :=
  flatMap_append

def EndsLine (t : Text) : Prop :=
  t = [] ∨ t.getLast? = some '\n'

theorem EndsLine.append {left : Text} (first : EndsLine left) (second : EndsLine right) :
    EndsLine (left ++ right) := by
  rcases second with rfl | last
  · rwa [append_nil]
  · right
    rw [getLast?_append, last]
    rfl

theorem endsLine_concat (t : Text) : EndsLine (t ++ ['\n']) :=
  .inr (by simp)

theorem endsLine_ofLines (xs : List Text) : EndsLine (ofLines xs) := by
  induction xs with
  | nil => exact .inl rfl
  | cons line r ih =>
    exact (endsLine_concat line).append ih

/-- Whether a text can be a line: it has no line feed, and no carriage return at its end. -/
def IsLine (t : Text) : Prop :=
  '\n' ∉ t ∧ t.getLast? ≠ some '\r'

instance (t : Text) : Decidable (IsLine t) :=
  inferInstanceAs (Decidable (_ ∧ _))

theorem lines_cons {c : Char} {r : Text} (noFeed : c ≠ '\n')
    (noReturn : c = '\r' → r.head? ≠ some '\n') :
    lines (c :: r) =
      match lines r with
      | [] => [[c]]
      | line :: more => (c :: line) :: more := by
  have noPair : ∀ more, c = '\r' → r = '\n' :: more → False := by
    rintro more rfl rfl
    exact noReturn rfl rfl
  exact lines.eq_4 c r noFeed noPair

variable {t line : Text}

theorem lines_ne_nil (ne : t ≠ []) : lines t ≠ [] := by
  unfold lines
  split
  · exact absurd rfl ne
  · simp
  · simp
  · split <;> simp

theorem lines_newline (rest : Text) : lines ('\n' :: rest) = [] :: lines rest := by
  rw [lines]

theorem IsLine.lines_append (isLine : IsLine line) (rest : Text) :
    lines (line ++ '\n' :: rest) = line :: lines rest := by
  induction line with
  | nil => exact lines_newline rest
  | cons c line ih =>
    obtain ⟨noFeed, noReturn⟩ := isLine
    have inner : IsLine line := by
      refine ⟨mt (mem_cons_of_mem c) noFeed, ?_⟩
      cases line with
      | nil => simp
      | cons d line => simpa [getLast?_cons_cons] using noReturn
    have first : c ≠ '\n' := fun same => noFeed (by simp [same])
    rw [cons_append, lines_cons first, ih inner]
    rintro rfl
    cases line with
    | nil => simp at noReturn
    | cons d line =>
      intro head
      cases head
      exact noFeed (by simp)

theorem lines_append_newline (t rest : Text) :
    lines (t ++ '\n' :: rest) = lines (t ++ ['\n']) ++ lines rest := by
  induction t with
  | nil =>
    rfl
  | cons c t ih =>
    by_cases feed : c = '\n'
    · rw [feed, cons_append, lines_newline, ih]
      rfl
    · by_cases pair : c = '\r' ∧ (t ++ ['\n']).head? = some '\n'
      · obtain ⟨rfl, head⟩ := pair
        cases t with
        | nil => simp [lines]
        | cons d t =>
          cases head
          simp only [cons_append, lines_newline] at ih
          simp only [cons_append, lines, ih]
      · have ha (tail : Text) : c = '\r' → (t ++ '\n' :: tail).head? ≠ some '\n' := by
          intro same head
          apply pair
          refine ⟨same, ?_⟩
          cases t with
          | nil => rfl
          | cons d t => exact head
        rw [cons_append, cons_append, lines_cons feed (ha rest), lines_cons feed (ha []), ih]
        cases firsts : lines (t ++ ['\n']) with
        | nil => exact absurd firsts (lines_ne_nil (by simp))
        | cons line more => rfl

theorem EndsLine.lines_append (ends : EndsLine t) (rest : Text) :
    lines (t ++ rest) = lines t ++ lines rest := by
  rcases ends with rfl | last
  · rfl
  · obtain ⟨lead, rfl⟩ := getLast?_eq_some_iff.mp last
    rw [append_assoc, singleton_append, lines_append_newline]

theorem lines_ofLines_append {xs : List Text} (isLine : ∀ line ∈ xs, IsLine line)
    (rest : Text) : lines (ofLines xs ++ rest) = xs ++ lines rest := by
  induction xs with
  | nil => rfl
  | cons line more ih =>
    obtain ⟨first, others⟩ := forall_mem_cons.mp isLine
    rw [ofLines_cons, append_assoc, cons_append, first.lines_append, ih others, cons_append]

theorem of_mem_lines (mem : line ∈ lines t) : '\n' ∉ line ∧ line ⊆ t := by
  induction t using lines.induct generalizing line with
  | case1 => simp [lines] at mem
  | case2 r ih =>
    rcases mem_cons.mp mem with rfl | inner
    · simp
    · exact (ih inner).imp_right (subset_cons_of_subset _)
  | case3 r ih =>
    rcases mem_cons.mp mem with rfl | inner
    · simp
    · exact (ih inner).imp_right fun part =>
        subset_cons_of_subset _ (subset_cons_of_subset _ part)
  | case4 c r noFeed noReturn missed ih =>
    rw [lines.eq_4 c r noFeed noReturn, missed] at mem
    rw [mem_singleton.mp mem]
    simpa using Ne.symm noFeed
  | case5 c r noFeed noReturn first more ne ih =>
    rw [lines.eq_4 c r noFeed noReturn, ne] at mem
    rcases mem_cons.mp mem with rfl | inner
    · obtain ⟨clean, part⟩ := ih (ne ▸ mem_cons_self)
      exact ⟨by simpa [clean] using Ne.symm noFeed, cons_subset_cons c part⟩
    · exact (ih (ne ▸ mem_cons_of_mem first inner)).imp_right (subset_cons_of_subset _)

theorem newline_notMem_of_mem_lines (mem : line ∈ lines t) : '\n' ∉ line :=
  (of_mem_lines mem).1

theorem subset_of_mem_lines (mem : line ∈ lines t) : line ⊆ t :=
  (of_mem_lines mem).2

section Trim

theorem any_head?_of_isBlankText {b : Text} (blanks : isBlankText b) :
    b.head?.any isWordChar = false := by
  cases b with
  | nil => rfl
  | cons c b =>
    exact Unicode.not_isWordChar_of_isBlank (all_eq_true.mp blanks c mem_cons_self)

theorem any_getLast?_of_isBlankText {b : Text} (blanks : isBlankText b) :
    b.getLast?.any isWordChar = false := by
  rw [← head?_reverse]
  exact any_head?_of_isBlankText (by rwa [isBlankText, all_reverse])

theorem trimEnd_append (hs : isBlankText right = false) (left : Text) :
    trimEnd (left ++ right) = left ++ trimEnd right := by
  have kept : (right.reverse.dropWhile isBlank).isEmpty = false := by
    cases r : right.reverse.dropWhile isBlank with
    | cons c r => rfl
    | nil =>
      rw [dropWhile_eq_nil_iff] at r
      have hb : isBlankText right := all_eq_true.mpr fun c mem => r c (mem_reverse.mpr mem)
      rw [hs] at hb
      cases hb
  rw [trimEnd, reverse_append, dropWhile_append, kept]
  simp [trimEnd]

theorem trimEnd_append_of_isBlankText (hb : isBlankText right) (left : Text) :
    trimEnd (left ++ right) = trimEnd left := by
  have gone : right.reverse.dropWhile isBlank = [] := by
    rw [dropWhile_eq_nil_iff]
    exact fun c mem => all_eq_true.mp hb c (mem_reverse.mp mem)
  rw [trimEnd, reverse_append, dropWhile_append, gone]
  rfl

theorem trim_append {lead tail : Text} (hb : isBlankText lead)
    (blank' : isBlankText tail) (t : Text) : trim (lead ++ (t ++ tail)) = trim t := by
  have hu : trimStart (lead ++ (t ++ tail)) = trimStart (t ++ tail) := by
    rw [trimStart, dropWhile_append_of_pos (all_eq_true.mp hb)]
    rfl
  rw [trim, hu, trim, trimStart, dropWhile_append]
  split
  · next gone =>
    have missed : tail.dropWhile isBlank = [] := dropWhile_eq_nil_iff.mpr (all_eq_true.mp blank')
    rw [missed, trimStart, isEmpty_iff.mp gone]
  · exact trimEnd_append_of_isBlankText blank' _

theorem trim_eq_self {t : Text} (vis : ∀ c ∈ t, isBlank c = false) : trim t = t := by
  have start : trimStart t = t := trimStart_eq_self fun c first => vis c (mem_of_mem_head? first)
  have finish : t.reverse.dropWhile isBlank = t.reverse :=
    trimStart_eq_self fun c first => vis c (mem_reverse.mp (mem_of_mem_head? first))
  rw [trim, start, trimEnd, finish, reverse_reverse]

theorem exists_blanks_trimEnd (t : Text) :
    ∃ tail, (∀ c ∈ tail, isBlank c) ∧ t = trimEnd t ++ tail := by
  refine ⟨(t.reverse.takeWhile isBlank).reverse, fun c mem => ?_, ?_⟩
  · exact mem_takeWhile_imp (mem_reverse.mp mem)
  · rw [trimEnd, ← reverse_append, takeWhile_append_dropWhile, reverse_reverse]

theorem exists_append_trimEnd (t : Text) : ∃ tail, t = trimEnd t ++ tail := by
  obtain ⟨tail, -, whole⟩ := exists_blanks_trimEnd t
  exact ⟨tail, whole⟩

theorem mem_of_mem_trimEnd {t : Text} {c : Char} (mem : c ∈ trimEnd t) : c ∈ t := by
  obtain ⟨tail, whole⟩ := exists_append_trimEnd t
  rw [whole]
  exact mem_append_left tail mem

theorem not_isBlank_getLast_trimEnd (t : Text) : ∀ c ∈ (trimEnd t).getLast?, isBlank c = false := by
  intro c last
  rw [trimEnd, getLast?_reverse] at last
  exact not_isBlank_head_trimStart t.reverse c last

theorem isLine_trimEnd {t : Text} (noFeed : '\n' ∉ t) : IsLine (trimEnd t) := by
  refine ⟨fun mem => noFeed (mem_of_mem_trimEnd mem), fun last => ?_⟩
  cases not_isBlank_getLast_trimEnd t '\r' last

theorem isBlankText_append (left right : Text) :
    isBlankText (left ++ right) = (isBlankText left && isBlankText right) :=
  all_append

theorem join_append_newline {list : List Text} (ne : list ≠ []) :
    join ['\n'] list ++ ['\n'] = ofLines list := by
  induction list with
  | nil => exact absurd rfl ne
  | cons line rest ih =>
    cases rest with
    | nil => simp [join]
    | cons o rest =>
      have more := ih (by simp)
      rw [ofLines_cons, ← more]
      simp [join]

theorem trimEnd_join (list : List Text) : trimEnd (join ['\n'] list) = trimEnd (ofLines list) := by
  cases list with
  | nil => rfl
  | cons line r =>
    rw [← join_append_newline (by simp : line :: r ≠ []), trimEnd_append_of_isBlankText (by decide)]

theorem isBlankText_ofLines {xs : List Text} (hb : ∀ line ∈ xs, isBlankText line) :
    isBlankText (ofLines xs) := by
  rw [isBlankText, ofLines, all_flatMap, all_eq_true]
  intro line mem
  exact all_append.trans (Bool.and_eq_true_iff.mpr ⟨hb line mem, rfl⟩)

theorem trimEnd_ofLines {last : Text} (hs : isBlankText last = false) {blanks : List Text}
    (hb : ∀ line ∈ blanks, isBlankText line) (front : List Text) :
    trimEnd (ofLines (front ++ last :: blanks)) ++ ['\n'] = ofLines (front ++ [trimEnd last]) := by
  have behind : isBlankText ('\n' :: ofLines blanks) :=
    @isBlankText_ofLines ([] :: blanks) (forall_mem_cons.mpr ⟨rfl, hb⟩)
  rw [ofLines_append, ofLines_cons, ← append_assoc, trimEnd_append_of_isBlankText behind,
    trimEnd_append hs]
  simp

theorem blank_or_exists_last (xs : List Text) : (∀ line ∈ xs, isBlankText line) ∨
    ∃ u last blanks, xs = u ++ last :: blanks ∧ isBlankText last = false ∧
      ∀ line ∈ blanks, isBlankText line := by
  induction xs with
  | nil => exact .inl (by simp)
  | cons line r ih =>
    rcases ih with all | ⟨u, last, blanks, rfl, hs, hb⟩
    · cases first : isBlankText line with
      | true => exact .inl (forall_mem_cons.mpr ⟨first, all⟩)
      | false => exact .inr ⟨[], line, r, rfl, first, all⟩
    · exact .inr ⟨line :: u, last, blanks, rfl, hs, hb⟩

end Trim

end PrimePlus.Text
