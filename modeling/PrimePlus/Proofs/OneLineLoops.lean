import PrimePlus.Construct.Keyword
import PrimePlus.Proofs.LoopPairing

/-!
A loop with a step that stands on one line with its `next`: the step is lost.
-/

namespace PrimePlus.Construct

open List

open Regex
open Cursor (between)
open Unicode (isWordChar)

def endWords : List Text :=
  ["end", "endif", "wend", "next", "loop"].map String.toList

/-- What is written out before the words that end blocks. -/
def shortForms : List Regex :=
  [guardPattern, ifDoPattern, leavingIfPattern, rangePattern, all [edge, lit "try", edge],
    all [edge, lit "catch", edge]]

theorem isLettered_of_mem_endWords : ∀ word ∈ endWords, IsLettered word := by
  decide

theorem matchAt_next {front : Text} (ha : front.getLast?.any isWordChar = false) :
    endWordPattern.matchAt (between front "next;".toList) =
      some ⟨between front "next;".toList, between (front ++ "next;".toList) [], []⟩ := by
  have left : (between front "next;".toList).atEdge isWordChar := by
    rw [Cursor.atEdge_between, ha]
    rfl
  have stop : between (front ++ "next;".toList) [] =
      ⟨front.length + 5, "next;".toList.reverse ++ front.reverse, []⟩ := by
    simp [between]
  unfold matchAt endWordPattern Regex.all
  simp only [foldr_cons]
  rw [run_edge left, stop]
  rfl

theorem isSpelling_append {w word' left right : Text} (spelt : isSpelling w left)
    (spelt' : isSpelling word' right) : isSpelling (w ++ word') (left ++ right) := by
  induction w generalizing left with
  | nil =>
    cases left with
    | nil => exact spelt'
    | cons d left => cases spelt
  | cons c w ih =>
    cases left with
    | nil => cases spelt
    | cons d left =>
      simp only [isSpelling, cons_append, Bool.and_eq_true] at spelt ⊢
      exact ⟨spelt.1, ih spelt.2⟩

theorem spans_append {P holds' : Text → Prop} {r r' : Regex} (spans : Spans P r)
    (spans' : Spans holds' r') : Spans (fun read => ∃ left right, read = left ++ right ∧
      P left ∧ holds' right) (.seq r r') := by
  intro pre t gs stop fin
  rw [spans.seq]
  constructor
  · rintro ⟨left, tl, rfl, held, hm⟩
    obtain ⟨right, after, rfl, held', rfl, rfl⟩ := (spans' _ _ _ _ _).mp hm
    exact ⟨left ++ right, after, by rw [append_assoc], ⟨left, right, rfl, held, held'⟩,
      by rw [append_assoc], rfl⟩
  · rintro ⟨-, after, rfl, ⟨left, right, rfl, held, held'⟩, rfl, rfl⟩
    exact ⟨left, right ++ after, by rw [append_assoc], held,
      (spans' _ _ _ _ _).mpr ⟨right, after, rfl, held', by rw [append_assoc], rfl⟩⟩

theorem exists_endWord {pre t : Text} {gs fin : Groups} {stop : Cursor}
    (matched : Matches endWordPattern (between pre t) gs stop fin) :
    ∃ word ∈ endWords, ∃ found after, t = found ++ after ∧ isSpelling word found ∧
      pre.getLast?.any isWordChar = false ∧ after.head?.any isWordChar = false := by
  have spans :=
    (spans_append (spans_litAnyCase "end") ((spans_litAnyCase "if").alt spans_empty)).alt
    ((spans_litAnyCase "wend").alt ((spans_litAnyCase "next").alt (spans_litAnyCase "loop")))
  obtain ⟨first, matched⟩ := matches_edge_seq.mp matched
  obtain ⟨found, after, rfl, held, matched⟩ := spans.seq.mp matched
  obtain ⟨word, mem, spelt⟩ : ∃ word ∈ endWords, isSpelling word found := by
    rcases held with ⟨left, right, rfl, spelt, spelt' | rfl⟩ | spelt | spelt | spelt
    · exact ⟨"endif".toList, by decide, isSpelling_append spelt spelt'⟩
    · exact ⟨"end".toList, by decide, by rwa [append_nil]⟩
    · exact ⟨"wend".toList, by decide, spelt⟩
    · exact ⟨"next".toList, by decide, spelt⟩
    · exact ⟨"loop".toList, by decide, spelt⟩
  have lettered := isLettered_of_mem_endWords word mem
  obtain ⟨ended, -⟩ := (matches_edge_behind lettered spelt).mp matched
  rw [lettered.head? spelt] at first
  exact ⟨word, mem, found, after, rfl, spelt, by simpa using first, ended⟩

theorem replaceAllWith_next {front : Text} (ha : front.getLast?.any isWordChar = false)
    (opened : ∀ word ∈ endWords, hasWord word front = false) :
    endWordPattern.replaceAllWith (front ++ "next;".toList) "END;" = front ++ "END;".toList := by
  have here : endWordPattern.matchAt (between front ("next;".toList ++ [])) = some _ :=
    matchAt_next ha
  have only := replaceAll_of_only (by decide) here rfl ?_ ?_ fun _ => "END;".toList
  · rwa [append_nil] at only
  · intro passed c ahead stop fin hi matched
    obtain ⟨word, mem, m, after, whole, spelt, left, right⟩ := exists_endWord matched
    have there :=
      hasWord_of_begins (isLettered_of_mem_endWords word mem) hi ha whole spelt left right
    rw [opened word mem] at there
    cases there
  · intro passed r stop fin hi matched
    obtain ⟨rfl, rfl⟩ := append_eq_nil_iff.mp hi.symm
    obtain ⟨word, mem, m, after, whole, spelt, -⟩ := exists_endWord matched
    exact (isLettered_of_mem_endWords word mem).ne_nil spelt (append_eq_nil_iff.mp whole.symm).1

theorem find?_endless (u : Text) : endlessPattern.find? (u ++ "END;".toList) = none := by
  refine Regex.find?_eq_none fun pre after stop fin whole hm => ?_
  have hm := hm.matchesFrom
  simp only [endlessPattern, Regex.all, foldr_cons, from_front, from_captureSeq,
    spans_blanks.from_seq, from_lit, from_back] at hm
  obtain ⟨rfl, gap, _, rfl, -, _, rfl, gap', _, rfl, hb, rfl, -⟩ := hm
  have last : (gap ++ "do".toList ++ gap').getLast? = some ';' := by
    rw [append_assoc, ← append_nil gap', ← nil_append (gap ++ _), ← whole, getLast?_append]
    rfl
  rcases eq_nil_or_concat gap' with rfl | ⟨init, c, rfl⟩
  · rw [append_nil, getLast?_append] at last
    cases last
  · rw [concat_eq_append, ← append_assoc, getLast?_concat] at last
    cases last
    cases all_eq_true.mp hb ';' (by simp)

/-- Where no short form stands in front of a `next`, the keywords change it to the end of a block
and only spell the rest anew. -/
theorem respell_next {u : Text} {d : Nat} (hi : 0 < d) (ha : u.getLast?.any isWordChar = false)
    (hp : ∀ form ∈ shortForms, form.isMatch (u ++ "next;".toList) = false)
    (opened : ∀ w ∈ endWords, hasWord w u = false) :
    respell d (u ++ "next;".toList) = baseLiterals (capitalize (u ++ "END;".toList)) := by
  simp only [shortForms, forall_mem_cons, not_mem_nil, false_imp_iff, implies_true, and_true] at hp
  obtain ⟨guard, branch, leaving, range, attempt, rescue⟩ := hp
  have kept {r : Regex} (unmatched : r.isMatch (u ++ "next;".toList) = false)
      (image : Match → Text) : r.replaceAll (u ++ "next;".toList) image =
        u ++ "next;".toList := if_neg (ne_true_of_eq_false unmatched)
  have written : writeOut (u ++ "next;".toList) = u ++ "next;".toList := by
    have first : ifDoPattern.find? (u ++ "next;".toList) = none := by
      simpa [isMatch] using branch
    unfold writeOut
    dsimp only
    rw [kept guard, replaceFirst, first]
    rw [leaving]
    exact kept range _
  have endless : endlessPattern.replaceFirst (u ++ "END;".toList)
      (fun m => m.group 1 ++ "WHILE 1 DO".toList) = u ++ "END;".toList := by
    rw [replaceFirst, find?_endless]
  have tried : (Regex.all [edge, lit "try", edge]).replaceAllWith
      (u ++ "next;".toList) "IFERR" = u ++ "next;".toList := kept attempt _
  have caught : (Regex.all [edge, lit "catch", edge]).replaceAllWith
      (u ++ "next;".toList) "THEN" = u ++ "next;".toList := kept rescue _
  unfold respell
  rw [if_neg (by omega), if_neg (by omega), written, tried, caught,
    replaceAllWith_next ha opened, endless]

/-- The header of a loop with a step, its body and its `next` on one line. No other `do` follows the
header. -/
structure OneLine where
  header : SteppedHeader
  body : PlainLine
  apart : (header.tail ++ (body.text ++ " next;".toList)).head?.any isWordChar = false := by decide
  only : hasWord "do".toList (header.tail ++ (body.text ++ " next;".toList)) = false := by decide

def OneLine.text (line : OneLine) : Text :=
  line.header.text ++ (line.body.text ++ " next;".toList)

def OneLine.front (line : OneLine) : Text :=
  line.header.lowered ++ (line.body.text ++ [' '])

def nextLine : NextLine :=
  { lead := [], word := "next".toList, gap := [], mark := ";".toList, tail := [] }

theorem loops_oneLine (l : OneLine) {opened : List OpenLoop} {d : Nat} (hi : 0 < d) :
    loops opened d l.text =
      (some (l.front ++ "next;".toList), ⟨d + 1, l.header.step?⟩ ::
        opened.filter fun loop => loop.level ≤ d) := by
  have whole : l.text = l.header.lead ++ (l.header.word ++
      l.header.ahead (l.header.tail ++ (l.body.text ++ " next;".toList))) := by
    simp [OneLine.text, SteppedHeader.text, SteppedHeader.rest, SteppedHeader.ahead]
  rw [whole, loops_ahead l.header hi l.apart l.only]
  simp [OneLine.front, SteppedHeader.lowered]

/-- On one line the step of a loop is lost: nothing is written between the body and the last word,
and the step stays with a loop that is no longer open. Where nothing else is to be written out, the
block ends right behind the body. On lines of their own the step comes in front of the end. -/
theorem one_line_loses_step (line : OneLine) {opened : List OpenLoop} {depth : Nat} {step : Text}
    (inside : 0 < depth) (stepped : line.header.step? = some step) :
    loops opened depth line.text = (some (line.front ++ "next;".toList),
        ⟨depth + 1, some step⟩ :: opened.filter fun loop => loop.level ≤ depth) ∧
      ((∀ form ∈ shortForms, form.isMatch (line.front ++ "next;".toList) = false) →
        (∀ word ∈ endWords, hasWord word line.front = false) →
        respell depth (line.front ++ "next;".toList) =
          baseLiterals (capitalize (line.front ++ "END;".toList))) ∧
      loopsAll opened depth [.stepped line.header, .other line.body, .next nextLine] =
        [some line.header.lowered, none, some (step ++ "; END;".toList)] := by
  have apart : line.front.getLast?.any isWordChar = false := by
    rw [OneLine.front, ← append_assoc, getLast?_concat]
    decide
  refine ⟨stepped ▸ loops_oneLine line inside, respell_next inside apart, ?_⟩
  have closed (outer : List OpenLoop) : closeLoop (depth + 1)
      (filter (fun loop => decide (loop.level ≤ depth + 1)) (⟨depth + 1, some step⟩ :: outer)) =
        (step ++ "; END;".toList, filter (fun loop => decide (loop.level ≤ depth + 1)) outer) := by
    simp [closeLoop]
  simp only [loopsAll, Line.text, Line.depthAfter, loops_stepped line.header inside, stepped,
    loops_plain line.body (Nat.succ_pos depth), loops_next nextLine (Nat.succ_pos depth),
    filter_filter, Bool.and_self, closed]
  simp [nextLine]

def countedLine : OneLine where
  header :=
    { lead := [], word := "for".toList, gap := " ".toList, start := "i := 0".toList,
      condition := " i < 3".toList, step := " i := i + 1 ".toList, closer := "do".toList,
      tail := " ".toList }
  body := ⟨"x := 1;".toList, by decide, by decide⟩

theorem one_line_loses_step_counted :
    loops [] 1 countedLine.text = (some (countedLine.front ++ "next;".toList),
        [⟨2, some "i := i + 1".toList⟩]) ∧
      respell 1 (countedLine.front ++ "next;".toList) =
        baseLiterals (capitalize (countedLine.front ++ "END;".toList)) ∧
      loopsAll [] 1 [.stepped countedLine.header, .other countedLine.body, .next nextLine] =
        [some countedLine.header.lowered, none, some "i := i + 1; END;".toList] := by
  obtain ⟨lowered, ended, apart⟩ := @one_line_loses_step countedLine [] 1 _ Nat.one_pos
    (show countedLine.header.step? = some "i := i + 1".toList by decide)
  exact ⟨lowered, ended (by decide +kernel) (by decide +kernel), apart⟩

theorem one_line_without_step :
    countedLine.text = "for i := 0; i < 3; i := i + 1 do x := 1; next;".toList ∧
      (loops [] 1 countedLine.text).1.map (respell 1) =
        some "i := 0; WHILE i < 3 DO x := 1; END;".toList := by
  decide +kernel

end PrimePlus.Construct
