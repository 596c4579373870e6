import PrimePlus.Proofs.FlatMatches

/-!
Replacing matches one after another, where no match is empty.
-/

namespace PrimePlus.Regex

open List

open Cursor (between)
open Unicode (isBlank isWordChar)

variable {image : Match → Text} {lead : Text}

section Steps

variable {r : Regex} {image : Match → Text} {pre rest : Text}

def IsSolid (r : Regex) : Prop :=
  ∀ before t stop final, Matches r (between before t) [] stop final →
    ∃ read after, read ≠ [] ∧ t = read ++ after ∧ stop = between (before ++ read) after

def rewriteFrom (r : Regex) (image : Match → Text) (before t : Text) : Text :=
  assemble image (r.piecesAt true (between before t))

theorem replaceAll_eq_rewriteFrom (t : Text) : r.replaceAll t image = r.rewriteFrom image [] t :=
  replaceAll_eq_assemble ..

theorem IsSolid.length_pos (solid : r.IsSolid) {t : Text} {hit : Match}
    (here : r.matchAt (between pre t) = some hit) : 0 < hit.length := by
  obtain ⟨start, hm⟩ := matches_of_matchAt here
  obtain ⟨read, after, ne, rfl, stop⟩ := solid _ _ _ _ hm
  rw [Match.length, start, stop]
  simpa [between] using length_pos_iff.mpr ne

theorem IsSolid.matchAt_nil (solid : r.IsSolid) : r.matchAt (between pre []) = none := by
  refine matchAt_eq_none_of_not_matches fun stop fin hm => ?_
  obtain ⟨read, after, ne, split, -⟩ := solid _ _ _ _ hm
  exact ne (append_eq_nil_iff.mp split.symm).1

theorem IsSolid.piecesAt_eq (solid : r.IsSolid) (fresh : Bool) (t : Text) :
    r.piecesAt fresh (between pre t) = r.piecesAt true (between pre t) := by
  cases t with
  | nil =>
    have missed : r.matchAt ⟨pre.length, pre.reverse, []⟩ = none := solid.matchAt_nil
    unfold piecesAt between piecesFrom
    rw [missed]
    split <;> rfl
  | cons c rest =>
    unfold piecesAt between piecesFrom
    rw [matchAt_of_admits]
    cases here : r.matchAt ⟨pre.length, pre.reverse, c :: rest⟩ with
    | none => rfl
    | some hit =>
      have reads : hit.length ≠ 0 := Nat.ne_of_gt (solid.length_pos here)
      dsimp only
      rw [if_neg reads, if_neg reads]

theorem rewriteFrom_nil (solid : r.IsSolid) : r.rewriteFrom image pre [] = [] := by
  have missed : r.matchAt ⟨pre.length, pre.reverse, []⟩ = none := solid.matchAt_nil
  unfold rewriteFrom piecesAt between piecesFrom
  rw [missed]
  rfl

theorem rewriteFrom_skip (missed : r.Misses pre lead rest) :
    r.rewriteFrom image pre (lead ++ rest) = lead ++ r.rewriteFrom image (pre ++ lead) rest := by
  rw [rewriteFrom, piecesAt_append missed, assemble_append, assemble_map_gap, rewriteFrom]

theorem rewriteFrom_append (solid : r.IsSolid) {read : Text} {hit : Match} (ne : read ≠ [])
    (here : r.matchAt (between pre (read ++ rest)) = some hit)
    (stops : hit.stop = between (pre ++ read) rest) :
    r.rewriteFrom image pre (read ++ rest) =
      image hit ++ r.rewriteFrom image (pre ++ read) rest := by
  rw [rewriteFrom, piecesAt_hit true ne here stops, assemble, solid.piecesAt_eq, rewriteFrom]

end Steps

section Words

variable {names : Text → Bool} {body : Regex} {pre word rest t : Text}

/-- A body that reads words of some kind, and nothing else. -/
structure ReadsWords (names : Text → Bool) (body : Regex) : Prop where
  flat : body.IsFlat
  spans : Spans (fun read => names read = true) body
  filled : ∀ read, names read = true → read ≠ []
  worded : ∀ read, names read = true → ∀ c ∈ read, isWordChar c = true

theorem takeWhile_isWordChar (worded : ∀ c ∈ word, isWordChar c)
    (ended : rest.head?.any isWordChar = false) : (word ++ rest).takeWhile isWordChar = word := by
  rw [takeWhile_append_of_pos worded]
  cases rest with
  | nil => exact append_nil word
  | cons c rest =>
    rw [takeWhile_cons_of_neg (by simpa using ended), append_nil]

namespace ReadsWords

variable (reads : ReadsWords names body)

include reads

variable {groups fin : Groups} {stop : Cursor} {s : String}

theorem matches_iff :
    Matches (all [edge, body, edge]) (between pre t) groups stop fin ↔
      ∃ read after, t = read ++ after ∧ names read ∧
        pre.getLast?.any isWordChar = false ∧ after.head?.any isWordChar = false ∧
        stop = between (pre ++ read) after ∧ fin = groups := by
  have first {read : Text} (hn : names read) (after : Text) :
      (read ++ after).head?.any isWordChar := by
    obtain ⟨c, more, rfl⟩ := exists_cons_of_ne_nil (reads.filled read hn)
    exact reads.worded _ hn c (mem_cons_self ..)
  have last {read : Text} (hn : names read) : (pre ++ read).getLast?.any isWordChar := by
    rcases eq_nil_or_concat read with rfl | ⟨front, c, rfl⟩
    · exact absurd rfl (reads.filled _ hn)
    · rw [concat_eq_append, ← append_assoc, getLast?_concat]
      exact reads.worded _ hn c (by simp)
  unfold all
  simp only [foldr_cons]
  rw [matches_edge_seq, reads.spans.seq]
  constructor
  · rintro ⟨ha, read, after, rfl, hn, hm⟩
    obtain ⟨ended, hm⟩ := matches_edge_seq.mp hm
    obtain ⟨stop, groups⟩ := matches_empty.mp hm
    rw [first hn] at ha
    rw [last hn] at ended
    exact ⟨read, after, rfl, hn, by simpa using ha, by simpa using ended, stop, groups⟩
  · rintro ⟨read, after, rfl, hn, ha, ended, rfl, rfl⟩
    refine ⟨by rw [first hn, ha]; rfl, read, after, rfl, hn, matches_edge_seq.mpr ?_⟩
    exact ⟨by rw [last hn, ended]; rfl, matches_empty.mpr ⟨rfl, rfl⟩⟩

theorem isFlat : (all [edge, body, edge]).IsFlat := by
  simpa [all, edge] using reads.flat

theorem isSolid : (all [edge, body, edge]).IsSolid := by
  intro pre t stop fin hm
  obtain ⟨read, after, split, hn, -, -, stop, -⟩ := reads.matches_iff.mp hm
  exact ⟨read, after, reads.filled read hn, split, stop⟩

theorem rewriteFrom_other (other : ∀ c ∈ lead, isWordChar c = false) :
    (all [edge, body, edge]).rewriteFrom image pre (lead ++ rest) =
      lead ++ (all [edge, body, edge]).rewriteFrom image (pre ++ lead) rest := by
  refine rewriteFrom_skip fun passed c ha stop fin hi hm => ?_
  obtain ⟨read, after, split, hn, -⟩ := reads.matches_iff.mp hm
  obtain ⟨d, more, rfl⟩ := exists_cons_of_ne_nil (reads.filled read hn)
  have eq : c = d := (cons.inj split).1
  have inWord := reads.worded _ hn d (mem_cons_self ..)
  rw [← eq, other c (by rw [hi]; simp)] at inWord
  cases inWord

theorem rewriteFrom_word {f : Text → Text} (images : ∀ hit, image hit = f hit.text)
    (filled : word ≠ []) (worded : ∀ c ∈ word, isWordChar c)
    (ha : pre.getLast?.any isWordChar = false) (ended : rest.head?.any isWordChar = false) :
    (all [edge, body, edge]).rewriteFrom image pre (word ++ rest) =
      (if names word then f word else word) ++
        (all [edge, body, edge]).rewriteFrom image (pre ++ word) rest := by
  split
  · next hn =>
    have hm : Matches (all [edge, body, edge]) (between pre (word ++ rest)) []
        (between (pre ++ word) rest) [] :=
      reads.matches_iff.mpr ⟨word, rest, rfl, hn, ha, ended, rfl, rfl⟩
    obtain ⟨hit, here⟩ := matchAt_of_matches reads.isFlat hm
    obtain ⟨start, hm⟩ := matches_of_matchAt here
    obtain ⟨read, after, split, named', -, ended', stop, -⟩ := reads.matches_iff.mp hm
    have eq : read = word := by
      rw [← takeWhile_isWordChar (reads.worded read named') ended', ← split,
        takeWhile_isWordChar worded ended]
    subst eq
    have onward : after = rest := (append_cancel_left split).symm
    rw [onward] at stop
    rw [rewriteFrom_append reads.isSolid filled here stop, images]
    have text : hit.text = read := by
      rw [Match.text, start, stop, Cursor.spanTo_between]
    rw [text]
  · next unnamed =>
    refine rewriteFrom_skip fun passed c ahead stop fin hi hm => ?_
    obtain ⟨read, after, split, hn, apart', ended', -⟩ := reads.matches_iff.mp hm
    -- inside the word there is no edge, so the match is the word itself
    have front : passed = [] := Text.eq_nil_of_any_getLast?
      (fun d mem => worded d (by rw [hi]; simp [mem])) apart'
    subst front
    have eq : read = word := by
      rw [← takeWhile_isWordChar (reads.worded read hn) ended', ← split, ← nil_append
        (c :: ahead), ← hi, takeWhile_isWordChar worded ended]
    exact unnamed (eq ▸ hn)

theorem alt {others : Text → Bool} {more : Regex} (second : ReadsWords others more) :
    ReadsWords (fun read => names read || others read) (.alt body more) where
  flat := ⟨reads.flat, second.flat⟩
  spans := (reads.spans.alt second.spans).congr fun _ => Bool.or_eq_true_iff.symm
  filled read named := (Bool.or_eq_true_iff.mp named).elim (reads.filled read) (second.filled read)
  worded read named := (Bool.or_eq_true_iff.mp named).elim (reads.worded read) (second.worded read)

end ReadsWords

theorem isFlat_lit (s : String) : (lit s).IsFlat :=
  isFlat_text s.toList

theorem readsWords_lit {s : String} (filled : s.toList ≠ [])
    (worded : s.toList.all isWordChar) : ReadsWords (· == s.toList) (lit s) where
  flat := isFlat_lit s
  spans := (spans_lit s).congr fun _ => beq_iff_eq.symm
  filled _ named := beq_iff_eq.mp named ▸ filled
  worded _ named := beq_iff_eq.mp named ▸ all_eq_true.mp worded

theorem readsWords_anyLit {words : List String} (ne : words ≠ [])
    (hn : ∀ s ∈ words, s.toList ≠ [] ∧ s.toList.all isWordChar) :
    ReadsWords (words.map String.toList).contains (anyLit words) := by
  induction words with
  | nil => exact absurd rfl ne
  | cons s words ih =>
    obtain ⟨filled, worded⟩ := hn s mem_cons_self
    cases words with
    | nil =>
      have single : ([s].map String.toList).contains = (· == s.toList) := by
        funext read
        exact contains_cons.trans (Bool.or_false _)
      rw [single]
      exact readsWords_lit filled worded
    | cons next words =>
      have further := ih (by simp) (forall_mem_cons.mp hn).2
      exact (readsWords_lit filled worded).alt further

theorem readsWords_plus {accepts : Char → Bool} (worded : ∀ c, accepts c → isWordChar c) :
    ReadsWords (fun read => !read.isEmpty && read.all accepts) (plus (.one accepts)) where
  flat := trivial
  spans := (spans_many true accepts).congr fun read => by simp
  filled read named := by
    rintro rfl
    cases named
  worded read named c mem := by
    have each : ∀ c ∈ read, accepts c := by
      simpa using (Bool.and_eq_true_iff.mp named).2
    exact worded c (each c mem)

end Words

section Spaced

variable {sign gap space pre rest : Text} {body : Regex}

/-- A body that reads a fixed text, which starts with no blank. -/
structure ReadsSign (sign : Text) (body : Regex) : Prop where
  spans : Spans (· = sign) body
  run : ∀ (before t : Text) (groups : Groups) (next : Continuation Match),
    body.run (between before (sign ++ t)) groups next = next (between (before ++ sign) t) groups
  filled : sign ≠ []
  shown : sign.head?.any isBlank = false

namespace ReadsSign

variable (reads : ReadsSign sign body)

include reads

theorem exists_of_matches {t : Text} {groups fin : Groups} {stop : Cursor}
    (hm : Matches (all [blanks, body, blanks]) (between pre t) groups stop fin) :
    ∃ gap space after, t = gap ++ (sign ++ (space ++ after)) ∧ (∀ c ∈ gap, isBlank c) ∧
      stop = between (pre ++ (gap ++ (sign ++ space))) after := by
  obtain ⟨gap, t, rfl, hb, hm⟩ := (spans_star isBlank).seq.mp hm
  obtain ⟨_, t, rfl, rfl, hm⟩ := reads.spans.seq.mp hm
  obtain ⟨space, t, rfl, -, hm⟩ := (spans_star isBlank).seq.mp hm
  obtain ⟨stop, -⟩ := matches_empty.mp hm
  refine ⟨gap, space, t, rfl, hb, stop.trans ?_⟩
  simp only [append_assoc]

theorem isSolid : (all [blanks, body, blanks]).IsSolid := by
  intro pre t stop fin hm
  obtain ⟨gap, space, after, rfl, -, rfl⟩ := reads.exists_of_matches hm
  exact ⟨gap ++ (sign ++ space), after, by simp [reads.filled], by simp, rfl⟩

theorem rewriteFrom_hit {new : Text} (images : ∀ hit, image hit = new)
    (gap_blank : ∀ c ∈ gap, isBlank c) (space_blank : ∀ c ∈ space, isBlank c)
    (ended : rest.head?.any isBlank = false) :
    (all [blanks, body, blanks]).rewriteFrom image pre (gap ++ (sign ++ (space ++ rest))) =
      new ++ (all [blanks, body, blanks]).rewriteFrom image
        (pre ++ (gap ++ (sign ++ space))) rest := by
  have front : (sign ++ (space ++ rest)).head?.any isBlank = false := by
    have hs := reads.shown
    obtain ⟨c, more, shape⟩ := exists_cons_of_ne_nil reads.filled
    rw [shape] at hs ⊢
    exact hs
  have here : (all [blanks, body, blanks]).matchAt
      (between pre (gap ++ (sign ++ (space ++ rest)))) =
        some ⟨between pre (gap ++ (sign ++ (space ++ rest))),
          between (pre ++ gap ++ sign ++ space) rest, []⟩ := by
    unfold matchAt all
    simp only [foldr_cons, foldr_nil]
    refine run_star_of_longest gap_blank front ?_
    rw [run.eq_4, reads.run]
    refine run_star_of_longest space_blank ended ?_
    rw [run.eq_1]
  have whole : gap ++ (sign ++ (space ++ rest)) = (gap ++ (sign ++ space)) ++ rest := by
    simp only [append_assoc]
  rw [whole] at here ⊢
  rw [rewriteFrom_append reads.isSolid (by simp [reads.filled]) here (by simp), images]

theorem rewriteFrom_miss (absent : ∀ passed c a, lead = passed ++ c :: a →
      ¬sign <+: (c :: a ++ rest).dropWhile isBlank) :
    (all [blanks, body, blanks]).rewriteFrom image pre (lead ++ rest) =
      lead ++ (all [blanks, body, blanks]).rewriteFrom image (pre ++ lead) rest := by
  refine rewriteFrom_skip fun passed c a stop fin hi hm => ?_
  obtain ⟨gap, space, after, split, hb, -⟩ := reads.exists_of_matches hm
  refine absent passed c a hi ?_
  obtain ⟨d, more, shape⟩ := exists_cons_of_ne_nil reads.filled
  have hs := reads.shown
  rw [shape] at hs
  rw [split, dropWhile_append_of_pos hb, shape, cons_append,
    dropWhile_cons_of_neg (by simpa using hs)]
  exact prefix_append ..

end ReadsSign

theorem readsSign_lit {s : String} (filled : s.toList ≠ [])
    (hs : s.toList.head?.any isBlank = false) : ReadsSign s.toList (lit s) where
  spans := spans_lit s
  run _ _ _ _ := run_lit s
  filled := filled
  shown := hs

theorem readsSign_char {c : Char} (hs : isBlank c = false) : ReadsSign [c] (char c) where
  spans := spans_char c
  run pre t groups next := by
    unfold char between
    rw [run]
    simp [Cursor.step]
  filled := by simp
  shown := hs

end Spaced

end PrimePlus.Regex
