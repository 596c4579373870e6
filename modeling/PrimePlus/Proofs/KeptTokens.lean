import PrimePlus.Proofs.FlatMatches
import PrimePlus.Proofs.MinifySeams
import PrimePlus.Proofs.TextWords

/-!
The passes that change the blanks of a program keep its tokens, which are its words and its other
characters but blanks.
-/

namespace PrimePlus

open List

open Unicode (isBlank isNameChar not_isNameChar_of_isBlank)

namespace Text

variable {w t gap : Text} {c : Char}

/-- The word that has been read, given with its last character first, if there is one. -/
def ended (word : Text) : List Text :=
  if word.isEmpty then [] else [word.reverse]

/-- The tokens of a text behind characters of a word, which are given with the last one first. -/
def tokensFrom : Text → Text → List Text
  | word, [] => ended word
  | word, c :: cs =>
    if isNameChar c then tokensFrom (c :: word) cs
    else ended word ++ ((if isBlank c then [] else [[c]]) ++ tokensFrom [] cs)

theorem wordsFrom_eq_filter (named : ∀ c ∈ w, isNameChar c) (t : Text) :
    wordsFrom w t = (tokensFrom w t).filter (·.all isNameChar) := by
  have kept {w : Text} (named : ∀ c ∈ w, isNameChar c) :
      (ended w).filter (·.all isNameChar) = ended w := by
    refine filter_eq_self.mpr fun word mem => ?_
    unfold ended at mem
    split at mem
    · cases mem
    · rw [mem_singleton.mp mem, all_reverse, all_eq_true]
      exact named
  induction t generalizing w with
  | nil => exact (kept named).symm
  | cons c t ih =>
    unfold wordsFrom tokensFrom
    by_cases hn : isNameChar c
    · rw [if_pos hn, if_pos hn]
      exact ih (forall_mem_cons.mpr ⟨hn, named⟩)
    · have sign : (if isBlank c then [] else [[c]] : List Text).filter (·.all isNameChar) = [] := by
        split <;> simp [hn]
      rw [if_neg hn, if_neg hn, filter_append, kept named, filter_append, sign, ← ih (by simp)]
      cases w <;> rfl

theorem flatten_tokensFrom (w t : Text) :
    (tokensFrom w t).flatten = w.reverse ++ t.filter fun c => !isBlank c := by
  have read (w : Text) : (ended w).flatten = w.reverse := by cases w <;> simp [ended]
  induction t generalizing w with
  | nil => rw [tokensFrom, read, filter_nil, append_nil]
  | cons c t ih =>
    unfold tokensFrom
    by_cases hn : isNameChar c
    · have visible : isBlank c = false := by
        rw [Bool.eq_false_iff]
        intro blank
        exact absurd hn (by simp [not_isNameChar_of_isBlank blank])
      rw [if_pos hn, ih, filter_cons_of_pos (by simp [visible])]
      simp
    · rw [if_neg hn, flatten_append, read, flatten_append, ih]
      cases blank : isBlank c <;> simp [blank]

/-- The words of a text and its other characters but blanks, in order. -/
def tokens (t : Text) : List Text :=
  tokensFrom [] t

theorem words_eq_filter (t : Text) : words t = (tokens t).filter (·.all isNameChar) :=
  wordsFrom_eq_filter (by simp) t

theorem flatten_tokens (t : Text) : (tokens t).flatten = t.filter fun c => !isBlank c :=
  flatten_tokensFrom [] t

theorem tokensFrom_sign (sign : isNameChar c = false) (w t : Text) :
    tokensFrom w (c :: t) = ended w ++ tokensFrom [] (c :: t) := by
  simp [tokensFrom, sign, ended]

theorem tokensFrom_blank (blank : isBlank c) (w t : Text) :
    tokensFrom w (c :: t) = ended w ++ tokensFrom [] t := by
  simp [tokensFrom, blank, not_isNameChar_of_isBlank blank]

theorem tokensFrom_blanks (blank : ∀ c ∈ gap, isBlank c) (t : Text) :
    tokensFrom [] (gap ++ t) = tokensFrom [] t := by
  induction gap with
  | nil => rfl
  | cons c gap ih =>
    obtain ⟨first, others⟩ := forall_mem_cons.mp blank
    rw [cons_append, tokensFrom_blank first, ih others]
    rfl

theorem tokensFrom_cons_congr {t t' : Text} (same : ∀ w, tokensFrom w t = tokensFrom w t')
    (c : Char) (w : Text) : tokensFrom w (c :: t) = tokensFrom w (c :: t') := by
  simp only [tokensFrom, same]

theorem tokensFrom_gap {t t' : Text} (sign : isNameChar c = false) (blank : ∀ d ∈ gap, isBlank d)
    (same : tokensFrom [] t = tokensFrom [] t') (w : Text) :
    tokensFrom w (c :: (gap ++ t)) = tokensFrom w (c :: t') := by
  simp only [tokensFrom, sign, tokensFrom_blanks blank, same, Bool.false_eq_true, if_false]

end Text

namespace Regex

open Text

/-- Blanks behind a character that is in no word are dropped, and nothing else is changed. -/
theorem tokensFrom_replaceAll {gaps : Regex} {mark : Char} {holds : Text → Prop}
    (sign : isNameChar mark = false) (spans : Spans holds gaps)
    (blank : ∀ gap, holds gap → ∀ c ∈ gap, isBlank c) (w t : Text) :
    tokensFrom w ((seq (char mark) gaps).replaceAll t fun _ => [mark]) = tokensFrom w t := by
  rw [replaceAll_eq_assemble]
  refine pieces_induction (fun cur pieces => ∀ w, tokensFrom w (assemble (fun _ => [mark]) pieces) =
    tokensFrom w cur.after) ?_ ?_ ?_ w
  · intro cur ends w
    rw [ends]
    rfl
  · intro cur c rest pieces _ ahead ih w
    rw [ahead]
    exact tokensFrom_cons_congr ih c w
  · intro found pieces here isIn ih w
    have place : found.start = .between found.start.before.reverse found.start.after := by
      rw [Cursor.between, length_reverse, reverse_reverse, ← isIn.start.2]
    obtain ⟨-, hm⟩ := matches_of_matchAt here
    rw [place] at hm
    obtain ⟨_, behind, ahead, rfl, hm⟩ := (spans_char mark).seq.mp hm
    obtain ⟨gap, after, rfl, held, stops, -⟩ := (spans _ _ _ _ _).mp hm
    rw [ahead]
    refine (tokensFrom_gap sign (blank gap held) ?_ w).symm
    exact ((ih []).trans (congrArg (tokensFrom [] ·.after) stops)).symm

end Regex

namespace Program

open Regex Text

variable {last : Option Char} {t : Text}

section Squeeze

theorem tokensFrom_squeezeFrom {w : Text} (behind : w.isEmpty = !last.any isNameChar)
    (pending : Bool) (t : Text) : tokensFrom w (squeezeFrom last pending t) =
      if pending then Text.ended w ++ tokensFrom [] t else tokensFrom w t := by
  induction t generalizing last w pending with
  | nil => cases pending <;> simp [squeezeFrom, tokensFrom, Text.ended]
  | cons c t ih =>
    unfold squeezeFrom
    by_cases passed : (isBlank c && c != '\n')
    · obtain ⟨blank, -⟩ := Bool.and_eq_true_iff.mp passed
      rw [if_pos passed, ih behind, tokensFrom_blank blank, tokensFrom_blank blank]
      cases pending <;> rfl
    · rw [if_neg passed]
      dsimp only
      have further (w : Text) :
          tokensFrom w (c :: squeezeFrom (some c) false t) = tokensFrom w (c :: t) := by
        rw [tokensFrom, tokensFrom]
        split
        · next hn => exact ih (by simp [hn]) false
        · next hn => rw [ih (by simp [hn]) false, if_neg Bool.false_ne_true]
      cases pending with
      | false => simpa using further w
      | true =>
        -- a gap is written where the word in front would go on, and elsewhere it changes nothing
        by_cases gap : ((isNameChar c || c == '(') && last.any isNameChar)
        · rw [Bool.true_and, if_pos gap, singleton_append, tokensFrom_blank (by decide), further]
          rfl
        · rw [Bool.true_and, if_neg gap, nil_append, further]
          cases hn : isNameChar c with
          | false => exact tokensFrom_sign hn w t
          | true =>
            have missed : last.any isNameChar = false := by simpa [hn] using gap
            rw [missed, Bool.not_false, List.isEmpty_iff] at behind
            rw [behind]
            rfl

theorem squeezeFrom_pending (behind : last.any isNameChar = false) (t : Text) :
    squeezeFrom last true t = squeezeFrom last false t := by
  cases t with
  | nil => rfl
  | cons c t => simp [squeezeFrom, behind]

theorem squeezeFrom_squeezeFrom (last : Option Char) (pending : Bool) (t : Text) :
    squeezeFrom last false (squeezeFrom last pending t) = squeezeFrom last pending t := by
  induction t generalizing last pending with
  | nil => rfl
  | cons c t ih =>
    by_cases passed : (isBlank c && c != '\n')
    · simp only [squeezeFrom, passed]
      exact ih last true
    · by_cases gap : (pending && (isNameChar c || c == '(') && last.any isNameChar)
      · have kept : ((isNameChar c || c == '(') && last.any isNameChar) = true := by
          revert gap
          cases pending <;> simp
        simp [squeezeFrom, passed, gap, kept, ih]
      · simp [squeezeFrom, passed, gap, ih]

end Squeeze

section Minus

theorem tokensFrom_setMinus (w t : Text) : tokensFrom w (setMinus t) = tokensFrom w t := by
  refine setMinus_induction (R := fun t t' => ∀ w, tokensFrom w t' = tokensFrom w t) ?_ ?_ ?_ ?_ t w
  · exact fun w => rfl
  · exact fun c t t' same => tokensFrom_cons_congr same c
  · intro c t t' sign same w
    refine @tokensFrom_gap [' '] c _ _ sign (forall_mem_singleton.mpr (by decide)) ?_ w
    exact tokensFrom_cons_congr same '-' []
  · intro gap t t' spaces same w
    refine (tokensFrom_gap (by decide) (fun d mem => ?_) (same []).symm w).symm
    rw [spaces d mem]
    decide

/-- Blanks beside a minus sign make no difference to squeezing. -/
theorem squeezeFrom_setMinus (last : Option Char) (pending : Bool) (t : Text) :
    squeezeFrom last pending (setMinus t) = squeezeFrom last pending t := by
  have minus (last : Option Char) (pending : Bool) (t : Text) :
      squeezeFrom last pending ('-' :: t) = '-' :: squeezeFrom (some '-') false t := by
    simp +decide [squeezeFrom]
  have spaces {gap : Text} (all : ∀ d ∈ gap, d = ' ') (t : Text) :
      squeezeFrom (some '-') false (gap ++ t) = squeezeFrom (some '-') false t := by
    induction gap with
    | nil => rfl
    | cons d gap ih =>
      obtain ⟨rfl, others⟩ := forall_mem_cons.mp all
      rw [← ih others]
      exact squeezeFrom_pending (by decide) _
  refine setMinus_induction (R := fun t t' => ∀ last pending,
    squeezeFrom last pending t' = squeezeFrom last pending t) ?_ ?_ ?_ ?_ t last pending
  · exact fun last pending => rfl
  · intro c t t' same last pending
    simp only [squeezeFrom, same]
  · intro c t t' _ same last pending
    have space (last : Option Char) (pending : Bool) :
        squeezeFrom last pending (' ' :: '-' :: t') = squeezeFrom last true ('-' :: t') := rfl
    simp only [squeezeFrom.eq_2, space, minus, same]
  · intro gap t t' all same last pending
    rw [minus, minus, spaces all, same]

end Minus

inductive BlankPass where
  | squeeze
  | setMinus
  | closeUp
  | joinFeeds

def BlankPass.run : BlankPass → Text → Text
  | .squeeze => Program.squeeze
  | .setMinus => Program.setMinus
  | .closeUp => fun t => semicolonPattern.replaceAllWith t ";"
  | .joinFeeds => fun t => newlinesPattern.replaceAllWith t "\n"

theorem tokens_run (pass : BlankPass) (t : Text) : tokens (pass.run t) = tokens t := by
  cases pass with
  | squeeze => exact tokensFrom_squeezeFrom rfl false t
  | setMinus => exact tokensFrom_setMinus [] t
  | closeUp =>
    exact tokensFrom_replaceAll (by decide) spans_blanks (fun _ => all_eq_true.mp) [] t
  | joinFeeds =>
    refine tokensFrom_replaceAll (by decide) (spans_many true (· == '\n')) ?_ [] t
    intro gap feeds c mem
    rw [beq_iff_eq.mp (feeds.2 c mem)]
    decide

/-- The passes keep the tokens of every text, whatever passes are run one after another. Squeezing a
text and then setting its minus signs is settled after one round. -/
theorem passes_keep_tokens (passes : List BlankPass) (t : Text) :
    let small := passes.foldl (fun t pass => pass.run t) t
    small.filter (fun c => !isBlank c) = t.filter (fun c => !isBlank c) ∧ words small = words t ∧
      setMinus (squeeze (setMinus (squeeze t))) = setMinus (squeeze t) := by
  have kept : tokens (passes.foldl (fun t pass => pass.run t) t) = tokens t :=
    foldlRecOn passes _ (motive := fun small => tokens small = tokens t) rfl fun small eq pass _ =>
      (tokens_run pass small).trans eq
  refine ⟨?_, ?_, ?_⟩
  · rw [← flatten_tokens, kept, flatten_tokens]
  · rw [words_eq_filter, kept, words_eq_filter]
  · have settled : squeeze (setMinus (squeeze t)) = squeeze t :=
      (squeezeFrom_setMinus none false _).trans (squeezeFrom_squeezeFrom none false t)
    rw [settled]

end Program

end PrimePlus
