import Mathlib.Data.List.TakeWhile
import PrimePlus.Text.Words

/-!
What replacing the words of a text does to them and to the characters between them.
-/

namespace PrimePlus.Text

open List

open Unicode (isNameChar)

/-- A property of every text follows from what a run of characters of a kind, as long as it can be,
or another character in front adds to it. -/
theorem runs_induction (kind : Char → Bool) {motive : Text → Prop} (nil : motive [])
    (run : ∀ run rest, run ≠ [] → (∀ c ∈ run, kind c) → rest.head?.any kind = false →
      motive rest → motive (run ++ rest))
    (other : ∀ c rest, kind c = false → motive rest → motive (c :: rest)) (t : Text) :
    motive t := by
  induction size : t.length using Nat.strongRecOn generalizing t with
  | ind n ih =>
    cases t with
    | nil => exact nil
    | cons c rest =>
      cases first : kind c with
      | false => exact other c rest first (ih _ (by simp [← size]) rest rfl)
      | true =>
        rw [← takeWhile_append_dropWhile (p := kind) (l := c :: rest)]
        have filled : (c :: rest).takeWhile kind ≠ [] := by simp [first]
        refine run _ _ filled (fun d => mem_takeWhile_imp) ?_ (ih _ ?_ _ rfl)
        · rw [Bool.eq_false_iff]
          intro starts
          obtain ⟨d, next, hi⟩ := (Option.any_eq_true _ _).mp starts
          have stopped := head?_dropWhile_not kind (c :: rest)
          rw [next] at stopped
          exact Bool.false_ne_true (stopped.symm.trans hi)
        · rw [← size, dropWhile_cons_of_pos first]
          exact Nat.lt_succ_of_le (length_dropWhile_le kind rest)

def IsWord (w : Text) : Prop :=
  w ≠ [] ∧ ∀ c ∈ w, isNameChar c = true

variable {image : Text → Text} {w rest : Text} {c : Char}

@[simp] theorem mapWords_nil (image : Text → Text) : mapWords image [] = [] :=
  rfl

theorem mapWords_cons (ho : isNameChar c = false) (rest : Text) :
    mapWords image (c :: rest) = c :: mapWords image rest := by
  simp [mapWords, mapWordsFrom, ho]

theorem mapWordsFrom_append (hn : ∀ c ∈ w, isNameChar c) (word rest : Text) :
    mapWordsFrom image word (w ++ rest) = mapWordsFrom image (w.reverse ++ word) rest := by
  induction w generalizing word with
  | nil => rfl
  | cons c w ih =>
    obtain ⟨first, others⟩ := forall_mem_cons.mp hn
    rw [cons_append, mapWordsFrom, if_pos first, ih others, reverse_cons, append_assoc]
    rfl

theorem mapWords_append (word : IsWord w) (stops : rest.head?.any isNameChar = false) :
    mapWords image (w ++ rest) = image w ++ mapWords image rest := by
  rw [mapWords, mapWordsFrom_append word.2]
  cases rest with
  | nil => simp [mapWordsFrom, word.1]
  | cons c rest =>
    have ho : isNameChar c = false := stops
    simp [mapWordsFrom, mapWords, word.1, ho]

section Words

variable (images : ∀ w, IsWord w → IsWord (image w)) (t : Text)

include images

end Words

end PrimePlus.Text
