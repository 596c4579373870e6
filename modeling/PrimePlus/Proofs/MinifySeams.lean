import PrimePlus.Program.Minify
import PrimePlus.Proofs.BlockBalance
import PrimePlus.Proofs.LayoutSeams
import PrimePlus.Proofs.LoweredSeams

/-!
A program that is made small has no marked character.
-/

namespace PrimePlus

open List Text

open Regex
open Lexical
open Lexical.Seamed (Scans)

namespace Lexical

section BlockWords

variable {t : Text}

def SeamAt (t : Text) (n : Nat) : Prop :=
  IsSeam (t.take n) (t.drop n)

variable {n passed : Nat} {tokens : List BlockToken}

theorem SeamAt.cut {P : Text → Prop} (hs : Seamed P) (seam : SeamAt t n)
    (whole : P (t.drop passed)) :
    P ((t.drop passed).take (n - passed)) ∧ P ((t.drop passed).drop (n - passed)) := by
  by_cases pre : n ≤ passed
  · rw [Nat.sub_eq_zero_of_le pre]
    exact ⟨by simpa using hs.nil, by simpa using whole⟩
  · have sum : passed + (n - passed) = n := by omega
    apply hs.cut
    · rwa [take_append_drop]
    · rw [drop_drop, sum]
      have hu : t.take n = t.take passed ++ (t.drop passed).take (n - passed) := by
        rw [← take_add, sum]
      rw [SeamAt, hu] at seam
      exact seam.of_append

/-- Block words stand in a text at the places they name, in order. -/
inductive TokensAt (t : Text) : Nat → List BlockToken → Prop
  | nil {passed : Nat} : TokensAt t passed []
  | cons {passed : Nat} {token : BlockToken} {rest : List BlockToken}
      (ordered : passed ≤ token.start) (ends : token.stop = token.start + token.word.length)
      (spelt : t.drop token.start = token.word ++ t.drop token.stop)
      (filled : token.word ≠ []) (plain : IsPlainText token.word)
      (more : TokensAt t token.stop rest) : TokensAt t passed (token :: rest)

theorem TokensAt.mono {earlier : Nat} (le : earlier ≤ passed)
    (tokensAt : TokensAt t passed tokens) : TokensAt t earlier tokens := by
  cases tokensAt with
  | nil => exact .nil
  | cons ordered ends spelt ne hp more =>
    exact .cons (Nat.le_trans le ordered) ends spelt ne hp more

structure OpenWord.EndsAt (t : Text) (n : Nat) (word : OpenWord) : Prop where
  spelt : t.drop word.start = word.chars.reverse ++ t.drop n
  ends : n = word.start + word.chars.length
  filled : word.chars ≠ []
  plain : IsPlainText word.chars

theorem tokensAt_of_endsAt {w : OpenWord} {tl : List BlockToken} (endsAt : w.EndsAt t n)
    (more : TokensAt t n tl) : TokensAt t w.start (w.token?.toList ++ tl) := by
  have le : w.start ≤ n := by
    have ends := endsAt.ends
    omega
  unfold OpenWord.token?
  split
  · exact more.mono le
  · cases known : BlockWord.ofWord? w.chars.reverse with
    | none => simpa [known] using more.mono le
    | some effect =>
      have stop : w.start + w.chars.reverse.length = n := by
        rw [length_reverse, endsAt.ends]
      simp only [known, Option.map_some, Option.toList_some, singleton_append]
      refine .cons (Nat.le_refl _) rfl ?_ (by simpa using endsAt.filled) ?_ ?_
      · simpa only [stop] using endsAt.spelt
      · exact fun c mem => endsAt.plain c (mem_reverse.mp mem)
      · simpa only [stop] using more

theorem tokensAt_blockTokensFrom {rest : Text} (ha : t.drop n = rest) (prev : Option Char) :
    TokensAt t n (blockTokensFrom n prev none rest) ∧
      ∀ w : OpenWord, w.EndsAt t n → TokensAt t w.start (blockTokensFrom n prev (some w) rest) := by
  -- a character begins or ends a word, so each of the two statements needs the other
  induction rest generalizing n prev with
  | nil =>
    refine ⟨.nil, fun w endsAt => ?_⟩
    have tokens := tokensAt_of_endsAt endsAt .nil
    rwa [append_nil] at tokens
  | cons c rest ih =>
    have next : t.drop (n + 1) = rest := by
      rw [← drop_drop, ha]
      rfl
    obtain ⟨fresh, further⟩ := ih next (some c)
    refine ⟨?_, fun w endsAt => ?_⟩
    · unfold blockTokensFrom
      split
      · next hn =>
        refine further ⟨n, prev, [c]⟩ ⟨?_, rfl, by simp, ?_⟩
        · rw [ha, next]
          rfl
        · simpa [IsPlainText] using isPlain_of_isNameChar hn
      · exact fresh.mono (Nat.le_succ n)
    · unfold blockTokensFrom
      split
      · next hn =>
        refine further { w with chars := c :: w.chars } ⟨?_, ?_, by simp, ?_⟩
        · rw [next, endsAt.spelt, ha]
          simp
        · rw [endsAt.ends, length_cons, Nat.add_assoc]
        · exact isPlainText_cons (isPlain_of_isNameChar hn) endsAt.plain
      · exact tokensAt_of_endsAt endsAt (fresh.mono (Nat.le_succ n))

theorem tokensAt_blockTokens (t : Text) : TokensAt t 0 (blockTokens t) :=
  (tokensAt_blockTokensFrom drop_zero none).1

inductive BlocksAt (t : Text) : Nat → List (Nat × Nat) → Prop
  | nil {passed : Nat} : BlocksAt t passed []
  | cons {passed start stop : Nat} {rest : List (Nat × Nat)} (ordered : passed ≤ start)
      (inside : start ≤ stop) (opens : SeamAt t start) (closes : SeamAt t stop)
      (more : BlocksAt t stop rest) : BlocksAt t passed ((start, stop) :: rest)

theorem BlocksAt.mono {earlier : Nat} {blocks : List (Nat × Nat)} (le : earlier ≤ passed)
    (blocksAt : BlocksAt t passed blocks) : BlocksAt t earlier blocks := by
  cases blocksAt with
  | nil => exact .nil
  | cons ordered hi opens closes more =>
    exact .cons (Nat.le_trans le ordered) hi opens closes more

section Token

variable {t : Text} {token : BlockToken}

theorem seamAt_of_spelled (ends : token.stop = token.start + token.word.length)
    (spelt : t.drop token.start = token.word ++ t.drop token.stop) (ne : token.word ≠ [])
    (hp : IsPlainText token.word) : SeamAt t token.start ∧ SeamAt t token.stop := by
  obtain ⟨c, w, shape⟩ := exists_cons_of_ne_nil ne
  constructor
  · refine .inr ?_
    rw [spelt, shape]
    exact hp c (by simp [shape])
  · refine .inl ?_
    rw [ends, take_add, spelt, take_left, getLast?_append]
    cases last : token.word.getLast? with
    | none => exact absurd (getLast?_eq_none_iff.mp last) ne
    | some d => exact hp d (mem_of_getLast? last)

end Token

theorem blocksAt_outerBlocksFrom (tokensAt : TokensAt t passed tokens) :
    BlocksAt t passed (outerBlocksFrom none tokens) ∧
      ∀ start inner, start ≤ passed → SeamAt t start →
        BlocksAt t start (outerBlocksFrom (some (start, inner)) tokens) := by
  induction tokensAt with
  | nil => exact ⟨.nil, fun _ _ _ _ => .nil⟩
  | @cons passed token tl ordered ends spelt ne hp more ih =>
    obtain ⟨outside, within⟩ := ih
    obtain ⟨opens, closes⟩ := seamAt_of_spelled ends spelt ne hp
    have forward : token.start ≤ token.stop := by omega
    refine ⟨?_, fun start inner pre seam => ?_⟩
    · unfold outerBlocksFrom
      split
      · exact (within token.start 0 forward opens).mono ordered
      · exact outside.mono (Nat.le_trans ordered forward)
    · have later := Nat.le_trans pre (Nat.le_trans ordered forward)
      unfold outerBlocksFrom
      split
      · exact within start _ later seam
      · exact .cons (Nat.le_refl _) later seam closes outside
      · exact within start _ later seam
      · exact within start _ later seam

theorem blocksAt_outerBlocks (t : Text) : BlocksAt t 0 (outerBlocks t) :=
  (blocksAt_outerBlocksFrom (tokensAt_blockTokens t)).1

end BlockWords

end Lexical

namespace Regex

@[simp] def ReadsPlain : Regex → Prop
  | .empty | .assert _ => True
  | .one accepts => PlainClass accepts
  | .seq first second | .alt first second => first.ReadsPlain ∧ second.ReadsPlain
  | .many _ body | .capture _ body => body.ReadsPlain

@[simp] def IsBare : Regex → Prop
  | .empty | .assert _ | .one _ => True
  | .seq first second | .alt first second => first.IsBare ∧ second.IsBare
  | .many _ body => body.IsBare
  | .capture _ _ => False

variable {r : Regex} {start stop : Cursor} {groups fin : Groups} {t : Text}

theorem ReadsPlain.readsOnly (reads : r.ReadsPlain) : r.ReadsOnly isPlain := by
  induction r with
  | empty | assert => trivial
  | one => exact reads
  | seq _ _ ih ih' | alt _ _ ih ih' => exact ⟨ih reads.1, ih' reads.2⟩
  | many _ _ ih | capture _ _ ih => exact ih reads

section

variable (hm : Matches r start groups stop fin)

include hm

theorem Matches.groups_eq (bare : r.IsBare) : fin = groups := by
  induction hm with
  | empty | assert | one => rfl
  | seq _ _ ihLeft ihRight => exact (ihRight bare.2).trans (ihLeft bare.1)
  | more _ _ ihRound ihRest => exact (ihRest bare).trans (ihRound bare)
  | altLeft _ ih => exact ih bare.1
  | altRight _ ih => exact ih bare.2
  | once _ ih => exact ih bare
  | capture => exact bare.elim

theorem Matches.isPlainText_spanTo (reads : r.ReadsPlain) (hi : start.IsIn t) :
    IsPlainText (start.spanTo stop) :=
  all_eq_true.mp ((hm.spanTo_reads hi).1 isPlain reads.readsOnly)

theorem Matches.isPlainText_captures (reads : r.ReadsPlain) (hi : start.IsIn t)
    (pre : ∀ capture ∈ groups, IsPlainText (capture.start.spanTo capture.stop)) :
    ∀ capture ∈ fin, IsPlainText (capture.start.spanTo capture.stop) := by
  induction hm with
  | empty | assert | one => exact pre
  | seq left _ ihLeft ihRight =>
    exact ihRight reads.2 (left.isIn hi).1 (ihLeft reads.1 hi pre)
  | more round _ ihRound ihRest =>
    exact ihRest reads (round.isIn hi).1 (ihRound reads hi pre)
  | altLeft _ ih => exact ih reads.1 hi pre
  | altRight _ ih => exact ih reads.2 hi pre
  | once _ ih => exact ih reads hi pre
  | capture inner ih =>
    exact forall_mem_cons.mpr ⟨inner.isPlainText_spanTo reads hi, ih reads hi pre⟩

end

end Regex

namespace Program

variable {P : Text → Prop} (hs : Seamed P) {t : Text}

section Renaming

variable {renamings : List (Text × Text)}

theorem forall_mem_renamingsFrom {p : Text → Prop} {keeps : Text → Bool} {numbered : Nat → Text}
    (new' : ∀ n, p (numbered n)) {used : List Text} {last : Nat}
    (pre : ∀ e ∈ renamings, p e.2) {names : List Text} :
    ∀ e ∈ renamingsFrom keeps numbered used last renamings names, p e.2 := by
  induction names generalizing last renamings with
  | nil => exact pre
  | cons name tl ih =>
    unfold renamingsFrom
    split
    · exact ih pre
    · refine ih fun e mem => ?_
      rcases mem_append.mp mem with old | new
      · exact pre e old
      · rw [mem_singleton.mp new]
        exact new' _

theorem of_renamed {p : Text → Prop} (all : ∀ e ∈ renamings, p e.2) {w : Text}
    (hp : p w) : p (renamed renamings w) := by
  unfold renamed
  cases hit : renamings.find? fun e => e.1 == w with
  | none => exact hp
  | some e => exact all e (mem_of_find?_eq_some hit)

theorem isPlainText_variableRenamings (block : Text) :
    ∀ e ∈ variableRenamings block, IsPlainText e.2 :=
  forall_mem_renamingsFrom (fun n => isPlainText_cons (by decide)
    (isPlainText_toDigits 10 n)) (by simp)

theorem forall_mem_functionRenamings {p : Char → Prop} (letters : p 'f' ∧ p 'n')
    (digits : ∀ d < 32, p (Numeral.base32Digit d)) (code : List Text) :
    ∀ e ∈ functionRenamings code, ∀ c ∈ e.2, p c := by
  refine forall_mem_renamingsFrom (p := fun t => ∀ c ∈ t, p c) (fun n c mem => ?_) (by simp)
  rcases mem_append.mp mem with letter | digit
  · exact forall_mem_cons.mpr ⟨letters.1, forall_mem_singleton.mpr letters.2⟩ c letter
  · exact forall_mem_base32 digits (n - 1) c digit

include hs

theorem holds_renamed (all : ∀ e ∈ renamings, IsPlainText e.2) (whole : P t) :
    P (mapWords (renamed renamings) t) :=
  hs.mapWords (fun _ hp _ => hs.plain _ (of_renamed all hp)) whole

theorem holds_shortenBlock (whole : P t) : P (shortenBlock t) :=
  holds_renamed hs (isPlainText_variableRenamings t) whole

theorem holds_shortenFrom {passed : Nat} {blocks : List (Nat × Nat)}
    (blocksAt : BlocksAt t passed blocks) (whole : P (t.drop passed)) :
    P (shortenFrom passed (t.drop passed) blocks) := by
  induction blocksAt with
  | nil => exact whole
  | @cons passed start stop tl ordered hi opens closes _ ih =>
    obtain ⟨hu, hv⟩ := opens.cut hs whole
    have toStart : passed + (start - passed) = start := by omega
    have toStop : passed + (stop - passed) = stop := by omega
    have onward : start + (stop - start) = stop := by omega
    rw [drop_drop, toStart] at hv
    obtain ⟨block, after⟩ := closes.cut hs hv
    rw [drop_drop, onward] at after
    have length : stop - passed - (start - passed) = stop - start := by omega
    rw [shortenFrom, drop_take, drop_drop, toStart, length, drop_drop, toStop]
    exact hs.append₃ hu (holds_shortenBlock hs block) (ih after)

theorem holds_shortenVariables (whole : P t) : P (shortenVariables t) :=
  holds_shortenFrom hs (blocksAt_outerBlocks t) whole

end Renaming

section Blanks

theorem setMinusFrom_skip (skip : Nat) (t : Text) :
    setMinusFrom skip t = setMinus (t.drop skip) := by
  induction skip generalizing t with
  | zero => rfl
  | succ skip ih =>
    cases t with
    | nil => rfl
    | cons c t => exact ih t

/-- A blank may be written in front of a minus sign, and blanks behind one may be dropped. -/
theorem setMinus_induction {R : Text → Text → Prop} (nil : R [] [])
    (keeps : ∀ c t t', R t t' → R (c :: t) (c :: t'))
    (parts : ∀ c t t', Unicode.isNameChar c = false → R t t' →
      R (c :: '-' :: t) (c :: ' ' :: '-' :: t'))
    (closes : ∀ gap t t', (∀ d ∈ gap, d = ' ') → R t t' → R ('-' :: (gap ++ t)) ('-' :: t'))
    (t : Text) : R t (setMinus t) := by
  induction size : t.length using Nat.strongRecOn generalizing t with
  | ind n ih =>
    cases t with
    | nil => exact nil
    | cons c t =>
      rw [length_cons] at size
      rw [setMinus, setMinusFrom, setMinusFrom_skip, setMinusFrom_skip]
      split
      · next sign =>
        simp only [Bool.and_eq_true, beq_iff_eq] at sign
        obtain ⟨rest, rfl⟩ := head?_eq_some_iff.mp sign.1.2
        have signs : "-+*/".toList.all fun d => !Unicode.isNameChar d := by decide
        have apart : Unicode.isNameChar c = false := by
          simpa using all_eq_true.mp signs c (contains_iff_mem.mp sign.1.1)
        rw [length_cons] at size
        exact parts c rest _ apart (ih _ (by omega) rest rfl)
      · split
        · next minus =>
          simp only [Bool.and_eq_true, decide_eq_true_eq] at minus
          have spaces : ∀ d ∈ t.takeWhile (· == ' '), d = ' ' :=
            fun d mem => by simpa using mem_takeWhile_imp mem
          have shape : t.takeWhile (· == ' ') ++ t.dropWhile (· == ' ') = t :=
            takeWhile_append_dropWhile
          rw [minus.1.1]
          generalize t.takeWhile (· == ' ') = gap at spaces shape ⊢
          rw [← shape, length_append] at size
          rw [← shape, drop_left]
          exact closes gap _ _ spaces (ih _ (by omega) _ rfl)
        · exact keeps c t _ (ih _ (by omega) t rfl)

include hs

theorem scans_squeeze :
    Scans P (fun s : Option Char × Bool => squeezeFrom s.1 s.2) (fun _ _ => True) Prod.snd := by
  refine ⟨fun _ _ => hs.nil, ?_⟩
  rintro ⟨last, pending⟩ c tl -
  by_cases hb : (Unicode.isBlank c && c != '\n')
  · have hp := isPlain_of_isBlank (Bool.and_eq_true_iff.mp hb).1
    refine ⟨(last, true), [], ?_, trivial, fun _ => hp, .inr (.inl ⟨hp, hs.nil⟩)⟩
    simp [squeezeFrom, hb]
  · refine ⟨(some c, false), (if pending && (Unicode.isNameChar c || c == '(') &&
      last.any Unicode.isNameChar then [' '] else []) ++ [c], ?_, trivial, by simp, ?_⟩
    · simp [squeezeFrom, hb]
    · cases pending with
      | false => exact .inl rfl
      | true =>
        refine .inr (.inr ⟨rfl, _, ?_, rfl⟩)
        exact hs.plain _ (by split <;> decide)

theorem holds_squeeze (whole : P t) : P (squeeze t) :=
  hs.scan (scans_squeeze hs) (none, false) trivial [] whole (by simp)

theorem holds_setMinus (whole : P t) : P (setMinus t) := by
  refine setMinus_induction (R := fun t t' => ∀ u, P (u ++ t) → P (u ++ t')) ?_ ?_ ?_ ?_ t [] whole
  · exact fun _ => id
  · intro c t t' kept u whole
    simpa using kept (u ++ [c]) (by simpa using whole)
  · intro c t t' _ kept u whole
    obtain ⟨front, back⟩ :=
      @Seamed.cut_around P hs (u ++ [c]) t '-' (by decide) (by simpa using whole)
    simpa using hs.append₃ front (hs.plain " -".toList (by decide)) (kept [] back)
  · intro gap t t' spaces kept u whole
    have hp : IsPlainText ('-' :: gap) := by
      refine isPlainText_cons (by decide) fun d mem => ?_
      rw [spaces d mem]
      decide
    obtain ⟨front, back⟩ := hs.cut_text hp (by simp) (by simpa using whole)
    simpa using hs.append₃ front (hs.singleton (c := '-') (by decide)) (kept [] back)

end Blanks

section Numerals

theorem numeral_parts {cur : Cursor} {hit : Match}
    (hm : numeralPattern.matchAt cur = some hit) (hi : cur.IsIn t) :
    cur.after = hit.group 1 ++ hit.group 2 ++ hit.stop.after ∧
      IsPlainText (hit.group 2) ∧ hit.group 2 ≠ [] := by
  obtain ⟨stop, fin, matches', ends⟩ := exists_of_run _ cur [] _ _ hm
  cases ends
  cases matches' with
  | @seq _ _ _ middle _ _ hb _ left right =>
  cases left with
  | @capture _ _ _ _ _ pre u =>
  cases right with
  | @seq _ _ _ last _ _ captured _ numeral tl =>
  cases tl with
  | seq ending nothing =>
  cases ending
  cases nothing
  cases numeral with
  | @capture _ _ _ _ _ after digits =>
    -- the groups are those of the two captures, and the digits are read in front of the end
    have missed : pre = [] := by
      cases u with
      | altLeft first => cases first; rfl
      | altRight first => cases first; rfl
    have reads : ReadsPlain (.seq (plus digit) (opt (.seq (char '.') (plus digit)))) := by
      simp +decide [vocabulary]
    have eq := digits.groups_eq (by simp [vocabulary])
    subst missed eq
    obtain ⟨middleIn, -⟩ := u.isIn hi
    obtain ⟨stopIn, forward⟩ := digits.isIn middleIn
    have first := (hi.after_eq middleIn (u.isIn hi).2).1
    have second := (middleIn.after_eq stopIn forward).1
    refine ⟨?_, digits.isPlainText_spanTo reads middleIn,
      (digits.spanTo_reads middleIn).2 (by simp [vocabulary, ReadsSome])⟩
    rw [second, ← append_assoc] at first
    exact first

theorem isPlainText_trimNumeral {numeral : Text} (hp : IsPlainText numeral) :
    IsPlainText (trimNumeral numeral) := by
  have parts : IsPlainText ((cutAt? ['.'] numeral).getD (numeral, [])).1 ∧
      IsPlainText ((cutAt? ['.'] numeral).getD (numeral, [])).2 := by
    cases cut : cutAt? ['.'] numeral with
    | none => exact ⟨hp, by simp [IsPlainText]⟩
    | some cutAt =>
      have shape := eq_of_cutAt? cut
      exact ⟨fun c mem => hp c (by rw [shape]; simp [show c ∈ cutAt.1 from mem]),
        fun c mem => hp c (by rw [shape]; simp [show c ∈ cutAt.2 from mem])⟩
  unfold trimNumeral
  generalize (cutAt? ['.'] numeral).getD (numeral, []) = cut at parts ⊢
  intro c mem
  rcases mem_append.mp mem with first | second
  · split at first
    · rw [mem_singleton.mp first]
      decide
    · exact parts.1 c ((dropWhile_sublist _).subset first)
  · split at second
    · cases second
    · rcases mem_cons.mp second with rfl | digit
      · decide
      · exact parts.2 c (mem_reverse.mp ((dropWhile_sublist _).subset (mem_reverse.mp digit)))

include hs

theorem holds_trimNumerals (whole : P t) : P (trimNumerals t) := by
  rw [trimNumerals, replaceAll_eq_assemble]
  refine pieces_induction (fun cur pieces => ∀ written, P (written ++ cur.after) →
    P (written ++ assemble (fun hit => hit.group 1 ++ trimNumeral (hit.group 2)) pieces))
    ?_ ?_ ?_ [] whole
  · intro cur ends written joined
    simpa [ends, assemble] using joined
  · intro cur c tl pieces _ ha ih written joined
    have joined' : P (written ++ [c] ++ tl) := by simpa [ha] using joined
    simpa [assemble] using ih (written ++ [c]) joined'
  · intro hit pieces here isIn ih written joined
    obtain ⟨shape, hp, ne⟩ := numeral_parts here isIn.start
    rw [shape, ← append_assoc, ← append_assoc] at joined
    obtain ⟨hu, hv⟩ := hs.cut_text hp ne joined
    have numeral := hs.plain _ (isPlainText_trimNumeral hp)
    simpa [assemble] using hs.append₃ hu numeral (ih [] hv)

end Numerals

section Minify

theorem guarded_semicolonPattern : semicolonPattern.Guarded :=
  guarded (by simp +decide [semicolonPattern, vocabulary])

theorem guarded_newlinesPattern : newlinesPattern.Guarded :=
  guarded (by simp +decide [newlinesPattern, vocabulary])

def bareCode (code : Text) : Text :=
  join ['\n'] ((lines code).map fun line => (splitComment line).1)

def smallText (t : Text) : Text :=
  newlinesPattern.replaceAllWith (semicolonPattern.replaceAllWith (trimNumerals (setMinus (squeeze
    (mapWords (renamed [("FROM".toList, ":=".toList)]) (shortenVariables t))))) ";") "\n"

theorem minifyCode_eq (code : Text) : minifyCode code =
    restore (protect [] (bareCode code)).2 (smallText (protect [] (bareCode code)).1) :=
  rfl

theorem holds_smallText (hs : Seamed P) (whole : P t) : P (smallText t) := by
  apply guarded_newlinesPattern.replaceAllWith hs (by decide)
  apply guarded_semicolonPattern.replaceAllWith hs (by decide)
  apply holds_trimNumerals hs
  apply holds_setMinus hs
  apply holds_squeeze hs
  apply holds_renamed hs (by decide)
  exact holds_shortenVariables hs whole

theorem unmarked_minifyCode (hu : Unmarked t) : Unmarked (minifyCode t) := by
  have bare : Unmarked (bareCode t) := by
    refine seamed_unmarked.join (by decide) fun part mem => ?_
    obtain ⟨l, hi, rfl⟩ := mem_map.mp mem
    exact (unmarked_splitComment (unmarked_lines hu l hi)).1
  obtain ⟨intact, stored⟩ := intact_protect bare
  exact Intact.unmarked_restore (holds_smallText (seamed_intact _) intact) stored

theorem unmarked_shortenFunctions {segments : List Segment}
    (all : ∀ segment ∈ segments, Unmarked segment.held) :
    ∀ segment ∈ shortenFunctions segments, Unmarked segment.held := by
  intro segment mem
  obtain ⟨original, hi, rfl⟩ := mem_map.mp mem
  have hu := all original hi
  cases original with
  | verbatim l => exact hu
  | code t =>
    exact holds_renamed seamed_unmarked (forall_mem_functionRenamings (by decide) (by decide) _) hu

theorem unmarked_segmentText {segment : Segment} (hu : Unmarked segment.held) :
    Unmarked (segmentText segment) := by
  have feed : Unmarked ['\n'] := by decide
  cases segment with
  | verbatim l => exact unmarked_append.mpr ⟨hu, feed⟩
  | code t =>
    unfold segmentText
    dsimp only
    split
    · simp [Unmarked]
    · refine unmarked_append.mpr ⟨hu.subset fun c mem => ?_, feed⟩
      have inner := (dropWhile_sublist _).subset (mem_reverse.mp mem)
      exact (dropWhile_sublist _).subset (mem_reverse.mp inner)

theorem unmarked_minify (hu : Unmarked t) : Unmarked (minify t) := by
  intro c mem
  obtain ⟨segment, hi, written⟩ := mem_flatMap.mp mem
  refine unmarked_segmentText (unmarked_shortenFunctions (fun small among => ?_) segment hi) c
    written
  obtain ⟨original, pre, rfl⟩ := mem_map.mp among
  have first := unmarked_segments hu original pre
  cases original with
  | verbatim l => exact first
  | code t =>
    dsimp only [Segment.held] at first ⊢
    exact unmarked_minifyCode first

end Minify

end Program

end PrimePlus
