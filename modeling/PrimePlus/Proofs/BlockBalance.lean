import PrimePlus.Layout
import PrimePlus.Proofs.MatchSeams
import PrimePlus.Proofs.TextLines

/-!
The block words of a line are those of its statements (`Layout.effects_statements`).
-/

namespace PrimePlus

open List Text
open Lexical

variable {t : Text}

namespace Lexical

open Unicode (isBlank isNameChar)

def effects (t : Text) : List BlockWord :=
  (blockTokens t).map BlockToken.effect

/-- What the word that is being read does at its end: whether it follows a number sign, and its
characters with the last one first. -/
def wordEffect : Option (Bool × Text) → List BlockWord
  | some (false, chars) => (BlockWord.ofWord? chars.reverse).toList
  | _ => []

/-- What the block words of the rest of a text do, given whether a number sign stands in front of it
and the word that is being read. -/
def effectsFrom : Bool → Option (Bool × Text) → Text → List BlockWord
  | _, word, [] => wordEffect word
  | marked, word, c :: cs =>
    if isNameChar c then
      effectsFrom (c == '#')
        (some ((word.map Prod.fst).getD marked, c :: (word.map Prod.snd).getD [])) cs
    else wordEffect word ++ effectsFrom (c == '#') none cs

theorem map_effect_token? (w : Option OpenWord) :
    (w.bind OpenWord.token?).toList.map BlockToken.effect =
      wordEffect (w.map fun w => (w.prev == some '#', w.chars)) := by
  cases w with
  | none => rfl
  | some w =>
    by_cases marked : w.prev = some '#'
    · simp [OpenWord.token?, wordEffect, marked]
    · have hu : (w.prev == some '#') = false := by simpa using marked
      rw [Option.map_some, hu, wordEffect, Option.bind_some, OpenWord.token?, if_neg marked]
      dsimp only
      cases BlockWord.ofWord? w.chars.reverse <;> rfl

theorem map_effect_blockTokensFrom (i : Nat) (prev : Option Char) (w : Option OpenWord) (t : Text) :
    (blockTokensFrom i prev w t).map BlockToken.effect =
      effectsFrom (prev == some '#') (w.map fun w => (w.prev == some '#', w.chars)) t := by
  induction t generalizing i prev w with
  | nil => exact map_effect_token? w
  | cons c cs ih =>
    unfold blockTokensFrom effectsFrom
    split
    · rw [ih]
      cases w <;> rfl
    · rw [map_append, map_effect_token?, ih]
      rfl

theorem effects_eq (t : Text) : effects t = effectsFrom false none t :=
  map_effect_blockTokensFrom 0 none none t

def isNeutral (c : Char) : Bool :=
  !isNameChar c && c != '#'

variable {c : Char} {run : Text}

theorem isNeutral_of_isBlank (hb : isBlank c) : isNeutral c := by
  have ho : c ≠ '#' := by
    rintro rfl
    cases hb
  simp [isNeutral, Unicode.not_isNameChar_of_isBlank hb, ho]

theorem effectsFrom_append_neutral (neutral : isNeutral c) (marked : Bool)
    (w : Option (Bool × Text)) (left right : Text) :
    effectsFrom marked w (left ++ c :: right) = effectsFrom marked w left ++ effects right := by
  obtain ⟨nameless, unsigned⟩ := Bool.and_eq_true_iff.mp neutral
  have nameless : isNameChar c = false := by simpa using nameless
  have unsigned : (c == '#') = false := by simpa using unsigned
  induction left generalizing marked w with
  | nil => simp [effectsFrom, nameless, unsigned, effects_eq]
  | cons d left ih =>
    rw [cons_append, effectsFrom, effectsFrom]
    split
    · exact ih _ _
    · rw [ih, append_assoc]

theorem effects_append_neutral (neutral : isNeutral c) (left right : Text) :
    effects (left ++ c :: right) = effects left ++ effects right := by
  rw [effects_eq, effectsFrom_append_neutral neutral, ← effects_eq]

theorem effects_append_of_neutral (neutral : run.all isNeutral) (t : Text) :
    effects (run ++ t) = effects t := by
  induction run with
  | nil => rfl
  | cons c run ih =>
    obtain ⟨first, others⟩ := Bool.and_eq_true_iff.mp (all_cons ▸ neutral)
    have parted := effects_append_neutral first [] (run ++ t)
    rw [nil_append] at parted
    rw [cons_append, parted, ih others]
    rfl

theorem effects_append_neutrals (neutral : run.all isNeutral) (t : Text) :
    effects (t ++ run) = effects t := by
  cases run with
  | nil => rw [append_nil]
  | cons c run =>
    obtain ⟨first, others⟩ := Bool.and_eq_true_iff.mp (all_cons ▸ neutral)
    have tl := effects_append_of_neutral others []
    rw [append_nil] at tl
    rw [effects_append_neutral first, tl]
    exact append_nil _

theorem effects_append_run (ne : run ≠ []) (neutral : run.all isNeutral)
    (left right : Text) : effects (left ++ run ++ right) = effects left ++ effects right := by
  cases run with
  | nil => exact absurd rfl ne
  | cons c run =>
    obtain ⟨first, others⟩ := Bool.and_eq_true_iff.mp (all_cons ▸ neutral)
    rw [append_assoc, cons_append, effects_append_neutral first, effects_append_of_neutral others]

theorem effects_join {sep : Char} (neutral : isNeutral sep) (parts : List Text) :
    effects (join [sep] parts) = parts.flatMap effects := by
  induction parts with
  | nil => rfl
  | cons part tl ih =>
    cases tl with
    | nil => simp [join]
    | cons next tl =>
      rw [join, intercalate_cons_cons, append_assoc, singleton_append,
        effects_append_neutral neutral]
      exact congrArg (effects part ++ ·) ih

theorem all_isNeutral_of_isBlankText (hb : isBlankText t) : t.all isNeutral := by
  rw [all_eq_true]
  intro c mem
  exact isNeutral_of_isBlank (all_eq_true.mp hb c mem)

theorem effects_of_isBlankText (hb : isBlankText t) : effects t = [] := by
  have missed := effects_append_of_neutral (all_isNeutral_of_isBlankText hb) []
  rwa [append_nil] at missed

theorem effects_trim (t : Text) : effects (trim t) = effects t := by
  have start (t : Text) : effects (trimStart t) = effects t := by
    have cut : t.takeWhile isBlank ++ trimStart t = t := takeWhile_append_dropWhile
    have hb : isBlankText (t.takeWhile isBlank) := all_takeWhile
    rw [← effects_append_of_neutral (all_isNeutral_of_isBlankText hb), cut]
  have finish (t : Text) : effects (trimEnd t) = effects t := by
    have cut : trimEnd t ++ (t.reverse.takeWhile isBlank).reverse = t := by
      rw [trimEnd, ← reverse_append, takeWhile_append_dropWhile, reverse_reverse]
    have hb : isBlankText (t.reverse.takeWhile isBlank).reverse := by
      rw [isBlankText, all_reverse]
      exact all_takeWhile
    rw [← effects_append_neutrals (all_isNeutral_of_isBlankText hb), cut]
  rw [trim, finish, start]

end Lexical

namespace Regex

def ReadsOnly (accepted : Char → Bool) : Regex → Prop
  | .empty | .assert _ => True
  | .one accepts => ∀ c, accepts c = true → accepted c = true
  | .seq first second | .alt first second =>
    first.ReadsOnly accepted ∧ second.ReadsOnly accepted
  | .many _ body | .capture _ body => body.ReadsOnly accepted

def ReadsSome : Regex → Prop
  | .empty | .assert _ => False
  | .one _ => True
  | .seq first second => first.ReadsSome ∨ second.ReadsSome
  | .alt first second => first.ReadsSome ∧ second.ReadsSome
  | .many _ body | .capture _ body => body.ReadsSome

variable {r : Regex}

variable {start stop : Cursor} {fin gs : Groups}

theorem Matches.exists_read (hm : Matches r start gs stop fin) :
    ∃ read, start.after = read ++ stop.after ∧
      (∀ acc, r.ReadsOnly acc → read.all acc) ∧ (r.ReadsSome → read ≠ []) := by
  induction hm with
  | empty | assert => exact ⟨[], rfl, fun _ _ => rfl, False.elim⟩
  | @one accepts cur gs c tl ha acc =>
    exact ⟨[c], ha, fun _ only => by simp [only c acc], fun _ => by simp⟩
  | @seq first second start middle stop gs hb fin left right ihLeft ihRight =>
    obtain ⟨read, ha, only, ne⟩ := ihLeft
    obtain ⟨read', ahead', only', some''⟩ := ihRight
    refine ⟨read ++ read', by rw [ha, ahead', append_assoc], fun acc both => ?_, ?_⟩
    · rw [all_append, only acc both.1, only' acc both.2]
      rfl
    · rintro (reads | reads) empty
      · exact ne reads (append_eq_nil_iff.mp empty).1
      · exact some'' reads (append_eq_nil_iff.mp empty).2
  | @more greedy b start middle stop gs hb fin left right ihLeft ihRight =>
    obtain ⟨read, ha, only, ne⟩ := ihLeft
    obtain ⟨read', ahead', only', -⟩ := ihRight
    refine ⟨read ++ read', by rw [ha, ahead', append_assoc], fun acc each => ?_, ?_⟩
    · rw [all_append, only acc each, only' acc each]
      rfl
    · intro reads empty
      exact ne reads (append_eq_nil_iff.mp empty).1
  | altLeft _ ih =>
    obtain ⟨read, ha, only, ne⟩ := ih
    exact ⟨read, ha, fun acc both => only acc both.1, fun both => ne both.1⟩
  | altRight _ ih =>
    obtain ⟨read, ha, only, ne⟩ := ih
    exact ⟨read, ha, fun acc both => only acc both.2, fun both => ne both.2⟩
  | once _ ih | capture _ ih => exact ih

theorem Matches.spanTo_reads (hm : Matches r start gs stop fin) (hi : start.IsIn t) :
    (∀ acc, r.ReadsOnly acc → (start.spanTo stop).all acc) ∧
      (r.ReadsSome → start.spanTo stop ≠ []) := by
  obtain ⟨read, ha, reads⟩ := hm.exists_read
  obtain ⟨reached, ordered⟩ := hm.isIn hi
  have eq := (hi.after_eq reached ordered).1
  rw [ha, append_cancel_right_eq] at eq
  exact eq ▸ reads

theorem neutral_of_matchAt (only : r.ReadsOnly isNeutral) (reads : r.ReadsSome) {cur : Cursor}
    {hit : Match} (hi : cur.IsIn t) (hm : r.matchAt cur = some hit) :
    cur.after = hit.text ++ hit.stop.after ∧ hit.text ≠ [] ∧ hit.text.all isNeutral := by
  obtain ⟨stop, fin, matches', ends⟩ := exists_of_run r cur [] _ _ hm
  cases ends
  obtain ⟨reached, ordered⟩ := matches'.isIn hi
  obtain ⟨neutral, ne⟩ := matches'.spanTo_reads hi
  exact ⟨(hi.after_eq reached ordered).1, ne reads, neutral isNeutral only⟩

theorem effects_replaceAll (only : r.ReadsOnly isNeutral) (reads : r.ReadsSome)
    {image : Match → Text}
    (images : ∀ cur hit, r.matchAt cur = some hit → image hit ≠ [] ∧ (image hit).all
      isNeutral) (t : Text) : effects (r.replaceAll t image) = effects t := by
  rw [replaceAll_eq_assemble]
  -- a word may reach over a gap, so the text since the last match is carried along
  refine pieces_induction (fun cur pieces => ∀ lead,
    effects (lead ++ assemble image pieces) = effects (lead ++ cur.after)) ?_ ?_ ?_ []
  · intro cur ends lead
    rw [ends, assemble]
  · intro cur c tl pieces _ ha ih lead
    have later := ih (lead ++ [c])
    rw [ha, assemble]
    simpa [Cursor.step] using later
  · intro hit pieces here isIn ih lead
    obtain ⟨ha, ne, neutral⟩ := neutral_of_matchAt only reads isIn.start here
    obtain ⟨some'', neutral'⟩ := images hit.start hit here
    have later := ih []
    rw [nil_append, nil_append] at later
    rw [assemble, ha, ← append_assoc, ← append_assoc,
      effects_append_run some'' neutral', effects_append_run ne neutral, later]

end Regex

namespace Layout

open Regex

theorem neutral_group_beforeSeparator {cur : Cursor} {hit : Match}
    (hm : beforeSeparatorPattern.matchAt cur = some hit) :
    hit.group 1 ≠ [] ∧ (hit.group 1).all isNeutral := by
  obtain ⟨stop, fin, matches', ends⟩ := exists_of_run _ cur [] _ _ hm
  cases ends
  cases matches' with
  | seq left right =>
    cases right with
    | capture inner =>
      cases inner with
      | @one _ _ _ c tl ha acc =>
        have separators : ";,)".toList.all isNeutral := by decide +kernel
        have neutral := all_eq_true.mp separators c (by simpa using acc)
        simp [Match.group, Match.group?, Cursor.spanTo, Cursor.step, ha, neutral]

theorem effects_tidy (line : Text) : effects (tidy line) = effects line := by
  have hb : ∀ c, Unicode.isBlank c → isNeutral c := fun _ => isNeutral_of_isBlank
  have signs : isNeutral ':' ∧ isNeutral '=' ∧ isNeutral ';' ∧
      isNeutral ',' ∧ isNeutral ')' ∧ isNeutral '(' := by decide +kernel
  have assignments (t : Text) : effects (assignmentPattern.replaceAllWith t " := ") =
      effects t := by
    refine effects_replaceAll ?_ ?_ (fun _ _ _ => ⟨by decide, by decide +kernel⟩) t
    · simpa [assignmentPattern, vocabulary, ReadsOnly, signs] using hb
    · simp [assignmentPattern, vocabulary, ReadsSome]
  have separators (t : Text) :
      effects (beforeSeparatorPattern.replaceAll t fun hit => hit.group 1) = effects t := by
    refine effects_replaceAll ?_ ?_ (fun _ _ => neutral_group_beforeSeparator) t
    · simpa [beforeSeparatorPattern, vocabulary, ReadsOnly, signs] using hb
    · simp [beforeSeparatorPattern, vocabulary, ReadsSome]
  have openings (t : Text) : effects (afterOpeningPattern.replaceAllWith t "(") = effects t := by
    refine effects_replaceAll ?_ ?_ (fun _ _ _ => ⟨by decide, by decide +kernel⟩) t
    · simpa [afterOpeningPattern, vocabulary, ReadsOnly, signs] using hb
    · simp [afterOpeningPattern, vocabulary, ReadsSome]
  rw [tidy, effects_trim, openings, separators, assignments]

theorem effects_statementsOfParts (parts : List Text) :
    (statementsOfParts parts).flatMap effects = parts.flatMap effects := by
  induction parts with
  | nil => rfl
  | cons part tl ih =>
    cases tl with
    | nil =>
      rw [statementsOfParts]
      split
      · next hb => simp [effects_of_isBlankText hb]
      · simp [effects_trim]
    | cons next tl =>
      rw [statementsOfParts, flatMap_cons]
      · split
        · next hb => rw [ih, effects_of_isBlankText hb, nil_append]
        · rw [flatMap_cons, ih, effects_append_neutrals (by decide +kernel), effects_trim]
      · simp

theorem effects_statements (line : Text) : (statements line).flatMap effects = effects line := by
  have semicolon : isNeutral ';' := by decide +kernel
  have newline : isNeutral '\n' := by decide +kernel
  have row (t : Text) :
      (statementsOfParts (splitTop ';' (tidy t))).flatMap effects = effects t := by
    have joined := effects_join semicolon (splitTop ';' (tidy t))
    rw [splitTop, join_splitTopFrom] at joined
    rw [effects_statementsOfParts, splitTop, ← joined, effects_tidy]
  have rows := effects_join newline (Text.splitOn '\n' line)
  rw [join_splitOn] at rows
  rw [statements, flatMap_assoc, rows]
  simp only [row]

end Layout

namespace Lexical

open Unicode (isBlank isNameChar)

variable {line : Text}

/-- The number of open blocks after block words, unless one of them closes a block where none is
open. -/
def walk : Nat → List BlockWord → Option Nat
  | depth, [] => some depth
  | depth, .opens :: rest => walk (depth + 1) rest
  | 0, .closes :: _ => none
  | depth + 1, .closes :: rest => walk depth rest
  | depth, .divides :: rest => walk depth rest

theorem walk_append (d : Nat) (left right : List BlockWord) :
    walk d (left ++ right) = (walk d left).bind fun d => walk d right := by
  induction left generalizing d with
  | nil => rfl
  | cons w left ih =>
    cases w with
    | opens => exact ih (d + 1)
    | divides => exact ih d
    | closes =>
      cases d with
      | zero => rfl
      | succ d => exact ih d

def balance (words : List BlockWord) : Int :=
  (words.count .opens : Int) - words.count .closes

@[simp] theorem balance_nil : balance [] = 0 :=
  rfl

@[simp] theorem balance_append (left right : List BlockWord) :
    balance (left ++ right) = balance left + balance right := by
  simp only [balance, count_append]
  omega

theorem walk_eq_balance {d after : Nat} {words : List BlockWord}
    (walked : walk d words = some after) : (after : Int) = d + balance words := by
  induction words generalizing d with
  | nil =>
    cases walked
    simp
  | cons w words ih =>
    have split := balance_append [w] words
    rw [singleton_append] at split
    cases w with
    | opens =>
      have one : balance [.opens] = 1 := rfl
      have tl := ih walked
      omega
    | divides =>
      have missed : balance [.divides] = 0 := rfl
      have tl := @ih d walked
      omega
    | closes =>
      have one : balance [.closes] = -1 := rfl
      cases d with
      | zero => cases walked
      | succ d =>
        have tl := @ih d walked
        omega

namespace Nesting

theorem opens_ofLine (line : Text) : (ofLine line).opens = (effects line).count .opens := by
  rw [effects, count, countP_map]
  rfl

theorem closes_ofLine (line : Text) : (ofLine line).closes = (effects line).count .closes := by
  rw [effects, count, countP_map]
  rfl

/-- The number of open blocks after a line is found one word after another, where no word closes a
block too many. -/
theorem depthAfter_eq {d after : Nat} (walked : walk d (effects line) = some after) :
    (ofLine line).depthAfter d = after := by
  have counted := walk_eq_balance walked
  rw [depthAfter, opens_ofLine, closes_ofLine]
  rw [balance] at counted
  omega

end Nesting

/-- Whether a statement starts with a word that stands one level further out. -/
def isOutdented (statement : Text) : Bool :=
  ["END", "UNTIL", "ELSE"].any fun word => word.toList == statement.takeWhile isNameChar

theorem le_start_of_mem_blockTokensFrom {i : Nat} {prev : Option Char} {w : Option OpenWord}
    {token : BlockToken} (mem : token ∈ blockTokensFrom i prev w t) {least : Nat}
    (ha : least ≤ i) (within : ∀ opened ∈ w, least ≤ opened.start) : least ≤ token.start := by
  have flushed {w : Option OpenWord} (within : ∀ opened ∈ w, least ≤ opened.start)
      (mem : token ∈ (w.bind OpenWord.token?).toList) : least ≤ token.start := by
    rw [Option.mem_toList] at mem
    obtain ⟨opened, hit, made⟩ := Option.bind_eq_some_iff.mp mem
    unfold OpenWord.token? at made
    split at made
    · cases made
    · obtain ⟨effect, -, rfl⟩ := Option.map_eq_some_iff.mp made
      exact within opened hit
  induction t generalizing i prev w with
  | nil => exact flushed within mem
  | cons c cs ih =>
    unfold blockTokensFrom at mem
    split at mem
    · refine ih mem (Nat.le_succ_of_le ha) ?_
      cases w with
      | none => simpa using ha
      | some opened => simpa using within opened rfl
    · rcases mem_append.mp mem with first | later
      · exact flushed within first
      · exact ih later (Nat.le_succ_of_le ha) (by simp)

/-- The word that is being read ends with the name characters ahead, and what follows it starts
further on. -/
theorem blockTokensFrom_word (i : Nat) (prev : Option Char) (w : OpenWord) (t : Text) :
    ∃ tl, blockTokensFrom i prev (some w) t =
        (OpenWord.token? { w with
          chars := (t.takeWhile isNameChar).reverse ++ w.chars }).toList ++ tl ∧
      ∀ token ∈ tl, i ≤ token.start := by
  induction t generalizing i prev w with
  | nil => exact ⟨[], by simp [blockTokensFrom], by simp⟩
  | cons c cs ih =>
    unfold blockTokensFrom
    by_cases hn : isNameChar c
    · obtain ⟨tl, shape, later⟩ := ih (i + 1) (some c) { w with chars := c :: w.chars }
      refine ⟨tl, ?_, fun token mem => Nat.le_of_succ_le (later token mem)⟩
      rw [if_pos hn, takeWhile_cons_of_pos hn]
      simpa using shape
    · refine ⟨blockTokensFrom (i + 1) (some c) none cs, ?_, fun token mem => ?_⟩
      · rw [if_neg hn, takeWhile_cons_of_neg hn]
        rfl
      · exact le_start_of_mem_blockTokensFrom mem (Nat.le_succ i) (by simp)

namespace Nesting

theorem leading_ofLine (hs : ∀ c ∈ line.head?, isBlank c = false) :
    (ofLine line).leading = BlockWord.ofWord? (line.takeWhile isNameChar) := by
  have nothing : BlockWord.ofWord? [] = none := by decide
  -- a word that starts further on does not lead the line
  have missed {tokens : List BlockToken} (later : ∀ token ∈ tokens, 1 ≤ token.start) :
      (tokens.head?.filter fun token => token.start == 0).map BlockToken.effect = none := by
    cases tokens with
    | nil => rfl
    | cons token tl =>
      have positive := later token mem_cons_self
      have away : token.start ≠ 0 := by omega
      simp [away]
  cases line with
  | nil => exact nothing.symm
  | cons c cs =>
    have flush : ((c :: cs).takeWhile isBlank).length = 0 := by
      rw [takeWhile_cons_of_neg (by simp [hs c rfl])]
      rfl
    unfold ofLine
    rw [flush, blockTokens, blockTokensFrom]
    by_cases hn : isNameChar c
    · obtain ⟨tl, shape, later⟩ := blockTokensFrom_word 1 (some c) ⟨0, none, [c]⟩ cs
      rw [if_pos hn, takeWhile_cons_of_pos hn]
      rw [shape, OpenWord.token?]
      dsimp only
      rw [reverse_append, reverse_reverse, reverse_singleton, singleton_append]
      cases BlockWord.ofWord? (c :: cs.takeWhile isNameChar) with
      | none => exact missed later
      | some effect => rfl
    · rw [if_neg hn, takeWhile_cons_of_neg hn, nothing]
      exact missed fun token mem => le_start_of_mem_blockTokensFrom mem (Nat.le_refl 1) (by simp)

theorem indentLevel_eq (hs : ∀ c ∈ line.head?, isBlank c = false) (depth : Nat) :
    (ofLine line).indentLevel depth = if isOutdented line then depth - 1 else depth := by
  rw [indentLevel, leading_ofLine hs, isOutdented]
  generalize line.takeWhile isNameChar = w
  by_cases outer : w = "END".toList ∨ w = "UNTIL".toList ∨ w = "ELSE".toList
  · rcases outer with rfl | rfl | rfl <;> rfl
  · obtain ⟨notEnd, notUntil, notElse⟩ : w ≠ "END".toList ∧ w ≠ "UNTIL".toList ∧
        w ≠ "ELSE".toList := by simpa only [not_or] using outer
    have ha {keyword : String} (o : w ≠ keyword.toList) : (keyword.toList == w) = false :=
      beq_eq_false_iff_ne.mpr o.symm
    simp only [any_cons, ha notEnd, ha notUntil, ha notElse, BlockWord.ofWord?]
    split
    · next closes =>
      split at closes <;> cases closes
    · next divides =>
      split at divides <;> cases divides
    · rfl

end Nesting

end Lexical

end PrimePlus
