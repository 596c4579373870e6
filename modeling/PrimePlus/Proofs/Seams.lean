import Mathlib.Data.List.TakeWhile
import PrimePlus.Lexical.Bracket
import PrimePlus.Lexical.Comment
import PrimePlus.Text.Words

/-!
Where a text may be cut: beside plain characters, where no placeholder reaches over (`Seamed`).
-/

namespace PrimePlus.Lexical

open List Unicode Text

variable {t : Text}

/-- The private-use characters that placeholders are made of. -/
def isMarked (c : Char) : Bool :=
  0xE000 ≤ c.toNat && c.toNat ≤ 0xE01F

/-- The characters that occur in no placeholder. -/
def isPlain (c : Char) : Bool :=
  c != '"' && !isMarked c

def Unmarked (t : Text) : Prop :=
  ∀ c ∈ t, isMarked c = false

instance (t : Text) : Decidable (Unmarked t) :=
  decidableBAll _ t

def IsPlainText (t : Text) : Prop :=
  ∀ c ∈ t, isPlain c = true

instance (t : Text) : Decidable (IsPlainText t) :=
  decidableBAll _ t

/-- Whether two texts meet beside a plain character or at an end of the whole text. -/
def IsSeam (left right : Text) : Prop :=
  left.getLast?.all isPlain = true ∨ right.head?.all isPlain = true

/-- A property that holds of plain texts, is kept where texts are put together, and passes to the
parts of a text that is cut at a seam. -/
structure Seamed (holds : Text → Prop) : Prop where
  plain : ∀ t, IsPlainText t → holds t
  append : ∀ left right, holds left → holds right → holds (left ++ right)
  cut : ∀ left right, holds (left ++ right) → IsSeam left right → holds left ∧ holds right

section Plain

variable {c : Char}

theorem not_isMarked_of_isPlain (hp : isPlain c) : isMarked c = false := by
  simpa using (Bool.and_eq_true_iff.mp hp).2

theorem IsPlainText.unmarked (hp : IsPlainText t) : Unmarked t :=
  fun c mem => not_isMarked_of_isPlain (hp c mem)

theorem isPlainText_append {left right : Text} (first : IsPlainText left)
    (second : IsPlainText right) : IsPlainText (left ++ right) :=
  forall_mem_append.mpr ⟨first, second⟩

theorem isPlainText_cons (first : isPlain c) (hr : IsPlainText t) : IsPlainText (c :: t) :=
  forall_mem_cons.mpr ⟨first, hr⟩

variable {s l inside rest : Text}

theorem IsPlainText.subset (hp : IsPlainText t) (part : s ⊆ t) : IsPlainText s :=
  fun c mem => hp c (part mem)

theorem isPlainText_replicate (hp : isPlain c) (n : Nat) : IsPlainText (replicate n c) :=
  fun _ mem => (mem_replicate.mp mem).2 ▸ hp

def isPlainClass (accepts : Char → Bool) : Bool :=
  !accepts '"' && (range 32).all fun d => !accepts (Char.ofNat (0xE000 + d))

theorem exists_of_isMarked (marked : isMarked c) : ∃ d < 32, c = Char.ofNat (0xE000 + d) := by
  simp only [isMarked, Bool.and_eq_true, decide_eq_true_eq] at marked
  refine ⟨c.toNat - 0xE000, by omega, ?_⟩
  rw [Nat.add_sub_cancel' marked.1, Char.ofNat_toNat]

theorem isPlain_of_isPlainClass {accepts : Char → Bool} (hp : isPlainClass accepts)
    (acc : accepts c) : isPlain c := by
  simp only [isPlainClass, Bool.and_eq_true, Bool.not_eq_true', all_eq_true, mem_range] at hp
  cases marked : isMarked c with
  | true =>
    obtain ⟨d, small, rfl⟩ := exists_of_isMarked marked
    rw [hp.2 d small] at acc
    cases acc
  | false =>
    have ho : c ≠ '"' := by
      rintro rfl
      rw [hp.1] at acc
      cases acc
    simp [isPlain, marked, ho]

theorem isPlain_of_holds {ranges : Ranges} (wide : ¬c.toNat < 0x80)
    (ha : ranges.all (fun range => range.2 < 0xE000 || 0xE01F < range.1))
    (held : ranges.holds c.toNat) : isPlain c := by
  obtain ⟨range, mem, hi⟩ := any_eq_true.mp held
  have outside := all_eq_true.mp ha range mem
  simp only [Bool.and_eq_true, Bool.or_eq_true, decide_eq_true_eq] at hi outside
  have hu : isMarked c = false := by
    simp only [isMarked, Bool.and_eq_false_iff, decide_eq_false_iff_not]
    omega
  have ho : c ≠ '"' := by
    rintro rfl
    exact wide (by decide)
  simp [isPlain, hu, ho]

theorem isPlain_of_isBlank (hb : isBlank c) : isPlain c :=
  isPlain_of_isPlainClass (by decide) hb

theorem isPlain_of_isAlpha (letter : c.isAlpha) : isPlain c :=
  isPlain_of_isPlainClass (by decide) letter

theorem isPlain_of_isDigit (digit : c.isDigit) : isPlain c :=
  isPlain_of_isPlainClass (by decide) digit

theorem isPlainText_toDigits (base n : Nat) : IsPlainText (Nat.toDigits base n) := by
  have digit (d : Nat) : isPlain (Nat.digitChar d) := by
    have small : ∀ d < 16, isPlain (Nat.digitChar d) := by decide
    rcases Nat.lt_or_ge d 16 with less | more
    · exact small d less
    · have ho : Nat.digitChar d = '*' := by
        unfold Nat.digitChar
        repeat rw [if_neg (by omega)]
      rw [ho]
      decide
  have digits (fuel n : Nat) (wr : Text) (hp : IsPlainText wr) :
      IsPlainText (Nat.toDigitsCore base fuel n wr) := by
    induction fuel generalizing n wr with
    | zero => exact hp
    | succ fuel ih =>
      have more : IsPlainText (Nat.digitChar (n % base) :: wr) := isPlainText_cons (digit _) hp
      unfold Nat.toDigitsCore
      dsimp only
      split
      · exact more
      · exact ih _ _ more
  exact digits _ n [] (by simp [IsPlainText])

theorem isPlain_of_isNameChar (hn : isNameChar c) : isPlain c := by
  simp only [isNameChar, isAlphanumeric, isAlphabetic, isNumeric, Bool.or_eq_true, beq_iff_eq] at hn
  rcases hn with (letter | digit) | rfl
  · split at letter
    · exact isPlain_of_isAlpha letter
    · next wide => exact isPlain_of_holds wide (by decide +kernel) letter
  · split at digit
    · exact isPlain_of_isDigit digit
    · next wide =>
      rcases Bool.or_eq_true_iff.mp digit with decimal | other
      · exact isPlain_of_holds wide (by decide +kernel) decimal
      · exact isPlain_of_holds wide (by decide +kernel) other
  · decide

theorem isPlain_of_isWordChar (inWord : isWordChar c) : isPlain c := by
  unfold isWordChar at inWord
  split at inWord
  · have ascii : isPlainClass (fun c => c.isAlphanum || c == '_') := by decide
    exact isPlain_of_isPlainClass ascii inWord
  · next wide =>
    cases usual : alphabeticRanges.holds c.toNat || decimalRanges.holds c.toNat with
    | true =>
      rcases Bool.or_eq_true_iff.mp usual with letter | decimal
      · exact isPlain_of_holds wide (by decide +kernel) letter
      · exact isPlain_of_holds wide (by decide +kernel) decimal
    | false =>
      rw [usual, Bool.false_bne] at inWord
      exact isPlain_of_holds wide (by decide +kernel) inWord

theorem isPlain_of_isDecimal (digit : isDecimal c) : isPlain c := by
  unfold isDecimal at digit
  split at digit
  · exact isPlain_of_isDigit digit
  · next wide => exact isPlain_of_holds wide (by decide +kernel) digit

theorem isPlain_toUpper (hp : isPlain c) : isPlain c.toUpper := by
  unfold Char.toUpper
  split
  · next small =>
    apply isPlain_of_isAlpha
    have offset : ('A'.val - 'a'.val).toNat = 4294967264 := by decide
    have ends : 'a'.val.toNat = 97 ∧ 'z'.val.toNat = 122 ∧ 'A'.val.toNat = 65 ∧
        'Z'.val.toNat = 90 := by
      decide
    unfold Char.isAlpha Char.isUpper
    simp only [Bool.or_eq_true, decide_eq_true_eq, UInt32.le_iff_toNat_le,
      UInt32.toNat_add] at small ⊢
    omega
  · exact hp

theorem toUpper_of_not_isPlain (ho : isPlain c = false) : c.toUpper = c := by
  have changed : isPlainClass (fun c => c.toUpper != c) := by decide
  by_cases eq : c.toUpper = c
  · exact eq
  · rw [isPlain_of_isPlainClass changed (by simpa using eq)] at ho
    cases ho

end Plain

section Unmarked

theorem unmarked_append {left right : Text} :
    Unmarked (left ++ right) ↔ Unmarked left ∧ Unmarked right :=
  forall_mem_append

theorem seamed_unmarked : Seamed Unmarked where
  plain _ plain := plain.unmarked
  append _ _ left right := unmarked_append.mpr ⟨left, right⟩
  cut _ _ whole _ := unmarked_append.mp whole

theorem Unmarked.subset {s : Text} (hu : Unmarked t) (part : s ⊆ t) : Unmarked s :=
  fun c mem => hu c (part mem)

theorem eq_of_cutComment {inString : Bool} {prev : Char} {l code comment : Text}
    (cut : cutComment inString prev l = some (code, comment)) :
    l = code ++ comment ∧ ∃ more, comment = '/' :: '/' :: more := by
  induction l generalizing inString prev code with
  | nil => cases cut
  | cons c r ih =>
    unfold cutComment at cut
    split at cut
    · next both =>
      cases cut
      simp only [Bool.and_eq_true, beq_iff_eq] at both
      obtain ⟨⟨-, rfl⟩, next⟩ := both
      obtain ⟨more, rfl⟩ := head?_eq_some_iff.mp next
      exact ⟨rfl, more, rfl⟩
    · obtain ⟨⟨inner, v⟩, later, eq⟩ := Option.map_eq_some_iff.mp cut
      cases eq
      obtain ⟨whole, slashes⟩ := ih later
      exact ⟨by rw [whole, cons_append], slashes⟩

end Unmarked

section Split

theorem splitTopFrom_ne_nil (sep : Char) (d : Int) (t : Text) : splitTopFrom sep d t ≠ [] := by
  cases t with
  | nil => simp [splitTopFrom]
  | cons c r =>
    unfold splitTopFrom consHead
    split
    · simp
    · split <;> simp

theorem join_splitTopFrom (sep : Char) (d : Int) (t : Text) :
    join [sep] (splitTopFrom sep d t) = t := by
  induction t generalizing d with
  | nil => rfl
  | cons c r ih =>
    unfold splitTopFrom
    split
    · next divides =>
      have eq : c = sep := by simpa using (Bool.and_eq_true_iff.mp divides).1
      have more := ih d
      obtain ⟨part, parts, shape⟩ := exists_cons_of_ne_nil (splitTopFrom_ne_nil sep d r)
      rw [shape] at more ⊢
      simpa [join, eq] using more
    · have more := ih (d + bracketStep c)
      obtain ⟨part, parts, shape⟩ := exists_cons_of_ne_nil
        (splitTopFrom_ne_nil sep (d + bracketStep c) r)
      rw [shape] at more ⊢
      cases parts <;> simpa [join, consHead] using more

theorem infix_of_mem_join {sep part : Text} {parts : List Text} (mem : part ∈ parts) :
    part <:+: join sep parts := by
  induction parts with
  | nil => cases mem
  | cons a r ih =>
    cases r with
    | nil => simp_all [join]
    | cons next r =>
      rcases mem_cons.mp mem with rfl | later
      · exact (prefix_append ..).isInfix
      · exact (ih later).trans ((suffix_append ..).trans (suffix_append ..)).isInfix

theorem infix_of_mem_splitTopFrom {sep : Char} {d : Int} {part : Text}
    (mem : part ∈ splitTopFrom sep d t) : part <:+: t := by
  have hi : part <:+: join [sep] (splitTopFrom sep d t) := infix_of_mem_join mem
  rwa [join_splitTopFrom] at hi

theorem foldl_consHead (current part : Text) (parts : List Text) :
    current.foldl (fun parts c => consHead c parts) (part :: parts) =
      (current.reverse ++ part) :: parts := by
  induction current generalizing part with
  | nil => rfl
  | cons c current ih =>
    rw [foldl_cons, consHead, ih, reverse_cons, append_assoc]
    rfl

theorem argumentsFrom_eq (depth : Int) (current t : Text) : argumentsFrom depth current t =
    current.foldl (fun parts c => consHead c parts) (splitTopFrom ',' depth t) := by
  induction t generalizing depth current with
  | nil => rw [argumentsFrom, splitTopFrom, foldl_consHead, append_nil]
  | cons c cs ih =>
    unfold argumentsFrom
    split
    · next opens =>
      have step : c ≠ ',' ∧ bracketStep c = 1 := by
        simp only [contains_cons, Bool.or_eq_true, beq_iff_eq] at opens
        obtain rfl | rfl | rfl | none := opens <;> first | decide | cases none
      rw [ih, splitTopFrom, if_neg (by simp [step.1]), step.2, foldl_cons]
    · split
      · next closes =>
        have step : c ≠ ',' ∧ bracketStep c = -1 := by
          simp only [contains_cons, Bool.or_eq_true, beq_iff_eq] at closes
          obtain rfl | rfl | rfl | none := closes <;> first | decide | cases none
        rw [ih, splitTopFrom, if_neg (by simp [step.1]), step.2, foldl_cons, Int.sub_eq_add_neg]
      · next unopened unclosed =>
        have flat : bracketStep c = 0 := by simp_all [bracketStep]
        rw [splitTopFrom]
        split
        · rw [ih, foldl_consHead, append_nil]
          rfl
        · rw [ih, flat, Int.add_zero, foldl_cons]

theorem splitArguments_eq (t : Text) :
    splitArguments t = if Text.isBlankText t then [] else splitTop ',' t := by
  rw [splitArguments, argumentsFrom_eq]
  rfl

theorem eq_of_closingOffset? {d : Nat} {n : Nat} (hit : closingOffset? d t = some n) :
    t = t.take n ++ ')' :: t.drop (n + 1) := by
  induction t generalizing d n with
  | nil => cases hit
  | cons c r ih =>
    have further {d : Nat} (hit : (closingOffset? d r).map (· + 1) = some n) :
        c :: r = (c :: r).take n ++ ')' :: (c :: r).drop (n + 1) := by
      obtain ⟨m, inner, rfl⟩ := Option.map_eq_some_iff.mp hit
      simpa using ih inner
    unfold closingOffset? at hit
    split at hit
    · exact further hit
    · split at hit
      · next close =>
        split at hit
        · cases hit
        · cases hit
          simp [close]
        · exact further hit
      · exact further hit

theorem eq_of_cutParens? {inside rest : Text}
    (cut : cutParens? ('(' :: t) = some (inside, rest)) :
    t = inside ++ ')' :: rest := by
  obtain ⟨n, hit, parts⟩ := Option.map_eq_some_iff.mp cut
  have whole := eq_of_closingOffset? hit
  rw [Prod.mk.injEq] at parts
  cases n with
  | zero => cases whole
  | succ n =>
    simp only [take_succ_cons, cons_append, cons.injEq, true_and] at whole parts
    rw [← parts.1, ← parts.2]
    exact whole

end Split

namespace Seamed

variable {holds : Text → Prop} (hs : Seamed holds)

section Cut

variable {left right t : Text} {c : Char}

include hs

theorem nil : holds [] :=
  hs.plain [] (by simp [IsPlainText])

theorem singleton (hp : isPlain c) : holds [c] :=
  hs.plain [c] (by simpa [IsPlainText] using hp)

theorem cut_front (hp : isPlain c) (whole : holds (left ++ c :: right)) :
    holds left ∧ holds (c :: right) :=
  hs.cut left (c :: right) whole (.inr (by simpa using hp))

theorem cut_around (hp : isPlain c) (whole : holds (left ++ c :: right)) :
    holds left ∧ holds right := by
  obtain ⟨first, r⟩ := hs.cut_front hp whole
  have parts := hs.cut [c] right r (.inl (by simpa using hp))
  exact ⟨first, parts.2⟩

theorem cut_text {middle : Text} (hp : IsPlainText middle) (ne : middle ≠ [])
    (whole : holds (left ++ middle ++ right)) : holds left ∧ holds right := by
  obtain ⟨c, r, rfl⟩ := exists_cons_of_ne_nil ne
  rw [append_assoc] at whole
  obtain ⟨first, more⟩ := hs.cut_around (hp c mem_cons_self) whole
  refine ⟨first, ?_⟩
  cases r with
  | nil => exact more
  | cons d r =>
    refine (hs.cut (d :: r) right more (.inl ?_)).2
    cases last : (d :: r).getLast? with
    | none => rfl
    | some e =>
      exact hp e (mem_cons_of_mem c (mem_of_getLast? last))

theorem drop_left (hp : IsPlainText left) (whole : holds (left ++ right)) : holds right := by
  cases left with
  | nil => exact whole
  | cons c r =>
    rw [← nil_append (c :: r)] at whole
    exact (hs.cut_text hp (by simp) whole).2

theorem drop_right (hp : IsPlainText right) (whole : holds (left ++ right)) : holds left := by
  cases right with
  | nil => rwa [append_nil] at whole
  | cons c r =>
    rw [← append_nil (left ++ c :: r)] at whole
    exact (hs.cut_text hp (by simp) whole).1

theorem append₃ {middle : Text} (first : holds left) (second : holds middle) (third : holds right) :
    holds (left ++ middle ++ right) :=
  hs.append _ _ (hs.append _ _ first second) third

theorem cons (hp : isPlain c) (r : holds t) : holds (c :: t) :=
  hs.append [c] t (hs.singleton hp) r

end Cut

section Blanks

include hs

theorem trimStart (whole : holds t) : holds (trimStart t) := by
  have parts := takeWhile_append_dropWhile (p := isBlank) (l := t)
  rw [← parts] at whole
  exact hs.drop_left (fun c mem => isPlain_of_isBlank (mem_takeWhile_imp mem)) whole

theorem trimEnd (whole : holds t) : holds (trimEnd t) := by
  have parts := takeWhile_append_dropWhile (p := isBlank) (l := t.reverse)
  rw [← t.reverse_reverse, ← parts, reverse_append] at whole
  refine hs.drop_right (fun c mem => ?_) whole
  exact isPlain_of_isBlank (mem_takeWhile_imp (mem_reverse.mp mem))

theorem trim (whole : holds t) : holds (trim t) :=
  hs.trimEnd (hs.trimStart whole)

end Blanks

section Parts

variable {sep : Char} {parts : List Text}

include hs

theorem join {b : Text} (gap : holds b) (all : ∀ part ∈ parts, holds part) :
    holds (Text.join b parts) := by
  induction parts with
  | nil => exact hs.nil
  | cons part r ih =>
    obtain ⟨first, others⟩ := forall_mem_cons.mp all
    cases r with
    | nil => simpa [Text.join, intercalate] using first
    | cons o r =>
      have shape : Text.join b (part :: o :: r) = part ++ b ++ Text.join b (o :: r) := by
        simp [Text.join]
      rw [shape]
      exact hs.append₃ first gap (ih others)

theorem of_join (hp : isPlain sep) (whole : holds (Text.join [sep] parts)) :
    ∀ part ∈ parts, holds part := by
  induction parts with
  | nil => simp
  | cons part r ih =>
    cases r with
    | nil =>
      have shape : Text.join [sep] [part] = part := by simp [Text.join]
      rw [shape] at whole
      simpa using whole
    | cons o r =>
      obtain ⟨first, more⟩ := hs.cut_around hp whole
      exact forall_mem_cons.mpr ⟨first, ih more⟩

theorem splitOn (sep : Char) (hp : isPlain sep) (whole : holds t) :
    ∀ part ∈ Text.splitOn sep t, holds part :=
  hs.of_join hp (by rwa [join_splitOn])

theorem splitTop (sep : Char) (hp : isPlain sep) (whole : holds t) :
    ∀ part ∈ splitTop sep t, holds part :=
  hs.of_join hp (by rwa [Lexical.splitTop, join_splitTopFrom])

theorem cutParens? {inside rest : Text}
    (cut : cutParens? ('(' :: t) = some (inside, rest)) (whole : holds t) :
    holds inside ∧ holds rest :=
  hs.cut_around (by decide) (eq_of_cutParens? cut ▸ whole)

end Parts

section Scan

/-- A rewriting that goes through a text character by character. It may keep a character, write
something else for a plain one, and write something in front of a character behind a plain one;
`free` tells the states behind a plain character. -/
structure Scans (holds : Text → Prop) {σ : Type} (f : σ → Text → Text) (inv : σ → Text → Prop)
    (free : σ → Bool) : Prop where
  finish : ∀ s, inv s [] → holds (f s [])
  step : ∀ s c rest, inv s (c :: rest) → ∃ next out, f s (c :: rest) = out ++ f next rest ∧
    inv next rest ∧ (free next = true → isPlain c = true) ∧
    (out = [c] ∨ (isPlain c = true ∧ holds out) ∨
      (free s = true ∧ ∃ gap, holds gap ∧ out = gap ++ [c]))

include hs

/-- A rewriting that goes through a text character by character, with the text written so far in
front. -/
theorem scan {σ : Type} {f : σ → Text → Text} {inv : σ → Text → Prop} {free : σ → Bool}
    (scans : Scans holds f inv free) (s : σ) (start : inv s t) (wr : Text)
    (whole : holds (wr ++ t)) (ha : free s → holds wr ∧ holds t) : holds (wr ++ f s t) := by
  induction t generalizing s wr with
  | nil =>
    rw [append_nil] at whole
    exact hs.append _ _ whole (scans.finish s start)
  | cons c r ih =>
    obtain ⟨next, out, equation, invariant, hp, kinds⟩ := scans.step s c r start
    rw [equation, ← append_assoc]
    -- what is written and what is ahead may be put together again after each step
    have joined : holds (wr ++ out ++ r) := by
      rcases kinds with rfl | ⟨hsh, image⟩ | ⟨isFree, gap, hb, rfl⟩
      · simpa using whole
      · obtain ⟨done, ahead⟩ := hs.cut_around hsh whole
        exact hs.append₃ done image ahead
      · obtain ⟨done, ahead⟩ := ha isFree
        simpa using hs.append₃ done hb ahead
    refine ih next invariant (wr ++ out) joined fun isFree => ?_
    have hsh := hp isFree
    rcases kinds with rfl | ⟨-, image⟩ | ⟨free, gap, hb, rfl⟩
    · exact hs.cut (wr ++ [c]) r joined (.inl (by simpa using hsh))
    · obtain ⟨done, ahead⟩ := hs.cut_around hsh whole
      exact ⟨hs.append _ _ done image, ahead⟩
    · exact hs.cut _ r joined (.inl (by simpa using hsh))

theorem scans_collapse :
    Scans holds (fun s : Bool × Bool => collapseFrom s.1 s.2) (fun _ _ => True) Prod.snd := by
  refine ⟨fun _ _ => hs.nil, ?_⟩
  rintro ⟨fresh, pending⟩ c r -
  by_cases hb : (isBlank c && c != '\n')
  · have hp := isPlain_of_isBlank (Bool.and_eq_true_iff.mp hb).1
    refine ⟨(fresh, true), [], ?_, trivial, fun _ => hp, .inr (.inl ⟨hp, hs.nil⟩)⟩
    simp [collapseFrom, hb]
  · refine ⟨(c == '\n', false), (if pending && !fresh then [' '] else []) ++ [c], ?_, trivial,
      by simp, ?_⟩
    · simp [collapseFrom, hb]
    · cases pending with
      | false => exact .inl rfl
      | true =>
        refine .inr (.inr ⟨rfl, _, ?_, rfl⟩)
        exact hs.plain _ (by split <;> decide)

theorem collapseBlanks (whole : holds t) : holds (collapseBlanks t) :=
  hs.scan hs.scans_collapse (true, false) trivial [] whole (by simp)

theorem map {f : Char → Char} (hp : ∀ c, isPlain c → isPlain (f c))
    (keeps : ∀ c, isPlain c = false → f c = c) (whole : holds t) : holds (t.map f) := by
  have scans : Scans holds (fun (_ : Unit) t => t.map f) (fun _ _ => True) fun _ => false := by
    refine ⟨fun _ _ => hs.nil, fun _ c r _ => ⟨(), [f c], rfl, trivial, by simp, ?_⟩⟩
    cases hsh : isPlain c with
    | false => exact .inl (by rw [keeps c hsh])
    | true => exact .inr (.inl ⟨rfl, hs.singleton (hp c hsh)⟩)
  exact hs.scan scans () trivial [] whole (by simp)

theorem map_toUpper (whole : holds t) : holds (t.map Char.toUpper) :=
  hs.map (fun _ => isPlain_toUpper) (fun _ => toUpper_of_not_isPlain) whole

theorem scans_replace {old new : Text} (hp : IsPlainText old) (ne : old ≠ []) (image : holds new) :
    Scans holds (replaceGo old new) (fun skip r => IsPlainText (r.take skip)) fun _ => false := by
  refine ⟨fun skip _ => by cases skip <;> exact hs.nil, fun skip c r passed => ?_⟩
  cases skip with
  | succ skip =>
    obtain ⟨first, others⟩ := forall_mem_cons.mp passed
    exact ⟨skip, [], rfl, others, by simp, .inr (.inl ⟨first, hs.nil⟩)⟩
  | zero =>
    by_cases hit : old.isPrefixOf (c :: r)
    · obtain ⟨ha, shape⟩ := isPrefixOf_iff_prefix.mp hit
      obtain ⟨d, old', rfl⟩ := exists_cons_of_ne_nil ne
      obtain ⟨rfl, rfl⟩ := cons.inj shape
      refine ⟨old'.length, new, ?_, ?_, by simp, .inr (.inl ⟨hp d mem_cons_self, image⟩)⟩
      · rw [replaceGo]
        simp
      · rw [append_eq, take_left]
        exact (forall_mem_cons.mp hp).2
    · refine ⟨0, [c], ?_, by simp [IsPlainText], by simp, .inl rfl⟩
      rw [replaceGo, if_neg hit]
      rfl

theorem replace {old new : Text} (hp : IsPlainText old) (ne : old ≠ []) (image : holds new)
    (whole : holds t) : holds (replace t old new) :=
  hs.scan (hs.scans_replace hp ne image) 0 (by simp [IsPlainText]) [] whole (by simp)

variable {image : Text → Text}

theorem scans_mapWords (images : ∀ w, IsPlainText w → w ≠ [] → holds (image w)) :
    Scans holds (mapWordsFrom image) (fun w _ => IsPlainText w) fun w => !w.isEmpty := by
  have flushed (w : Text) (hp : IsPlainText w) :
      holds (if w.isEmpty then [] else image w.reverse) := by
    cases w with
    | nil => exact hs.nil
    | cons d w =>
      exact images _ (fun c mem => hp c (mem_reverse.mp mem)) (by simp)
  refine ⟨flushed, fun w c r hp => ?_⟩
  by_cases hn : isNameChar c
  · have hsh := isPlain_of_isNameChar hn
    refine ⟨c :: w, [], ?_, isPlainText_cons hsh hp, fun _ => hsh, .inr (.inl ⟨hsh, hs.nil⟩)⟩
    simp [mapWordsFrom, hn]
  · refine ⟨[], (if w.isEmpty then [] else image w.reverse) ++ [c], ?_, by simp [IsPlainText],
      by simp, ?_⟩
    · simp [mapWordsFrom, hn]
    · cases w with
      | nil => exact .inl rfl
      | cons d w => exact .inr (.inr ⟨rfl, _, flushed _ hp, rfl⟩)

theorem mapWords (images : ∀ w, IsPlainText w → w ≠ [] → holds (image w))
    (whole : holds t) : holds (mapWords image t) :=
  hs.scan (hs.scans_mapWords images) [] (by simp [IsPlainText]) [] whole (by simp)

end Scan

end Seamed

theorem unmarked_splitComment {l : Text} (hu : Unmarked l) :
    Unmarked (splitComment l).1 ∧ ∀ comment ∈ (splitComment l).2, Unmarked comment := by
  unfold splitComment
  split
  · next code comment cut =>
    obtain ⟨first, second⟩ := unmarked_append.mp ((eq_of_cutComment cut).1 ▸ hu)
    exact ⟨seamed_unmarked.trimEnd first, by rintro _ ⟨⟩; exact second⟩
  · exact ⟨hu, by simp⟩

end PrimePlus.Lexical
