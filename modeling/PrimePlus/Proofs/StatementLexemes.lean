import PrimePlus.Program.Reformat
import PrimePlus.Proofs.FilePlaces
import PrimePlus.Proofs.Lexemes
import PrimePlus.Proofs.NestedBrackets
import PrimePlus.Proofs.StepwiseRewriting

/-!
The statements of a line, lexeme by lexeme.
-/

variable {behindWord : Bool}

namespace PrimePlus.Lexical

variable {α β : Type}

def Atom.respell (spell : Text → Text) : Atom α → Atom α
  | .word t => .word (spell t)
  | .sign c => .sign c
  | .held a => .held a

def Atom.names (kind : Text → Bool) : Atom α → Bool
  | .word t => kind t
  | .sign _ => false
  | .held _ => false

def respell (spell : Text → Text) (list : List (Lexeme α)) : List (Lexeme α) :=
  list.map fun lexeme => ⟨lexeme.gap, lexeme.atom.respell spell⟩

theorem write_respell (spell : Text → Text) (shown : α → Text) (list : List (Lexeme α)) :
    write shown (respell spell list) = render spell shown list := by
  induction list with
  | nil => rfl
  | cons lex rest ih =>
    obtain ⟨gap, atom⟩ := lex
    rw [respell, List.map_cons, ← respell, write_cons, render_cons, ih]
    cases atom <;> rfl

theorem respell_respell (f g : Text → Text) (list : List (Lexeme α)) :
    respell g (respell f list) = respell (g ∘ f) list := by
  rw [respell, respell, List.map_map]
  refine List.map_congr_left fun ⟨gap, atom⟩ _ => ?_
  cases atom <;> rfl

theorem AreLawful.respell {spell : Text → Text}
    (keeps : ∀ t : Text, t ≠ [] → (∀ c ∈ t, Unicode.isWordChar c) →
      spell t ≠ [] ∧ ∀ c ∈ spell t, Unicode.isWordChar c)
    {list : List (Lexeme α)} (hl : AreLawful behindWord list) :
    AreLawful behindWord (respell spell list) := by
  induction list generalizing behindWord with
  | nil => trivial
  | cons lex rest ih =>
    obtain ⟨hb, first, apart, others⟩ := hl
    obtain ⟨gap, atom⟩ := lex
    cases atom with
    | word t => exact ⟨hb, keeps t first.1 first.2, apart, ih others⟩
    | sign c | held c => exact ⟨hb, first, apart, ih others⟩

end PrimePlus.Lexical

namespace PrimePlus.Program

open List Construct Text Lexical

open Regex
open Unicode (isBlank isWordChar)
open Atom (isSign sign)

variable {c : Char}

variable {α β : Type} {shown : α → Text} {list : List (Lexeme α)} {t tail : Text}

variable (hidden : IsHidden shown) (hl : AreLawful behindWord list) (hb : ∀ c ∈ tail, isBlank c)

section Words

variable {names : Text → Bool} {body : Regex} {pre : Text} {image : Match → Text}

include hidden hl hb

/-- Words that are looked for are replaced wherever they are lexemes. Blanks may have been put
behind some of the words. -/
theorem rewriteFrom_render (reads : ReadsWords names body) {f extra : Text → Text}
    (images : ∀ m, image m = f m.text) (blanks : ∀ word, ∀ c ∈ extra word, isBlank c)
    (flag : pre.getLast?.any isWordChar → behindWord) :
    (all [.edge, body, .edge]).rewriteFrom image pre
      (render (fun word => word ++ extra word) shown list ++ tail) =
      render (fun word => (if names word then f word else word) ++ extra word) shown list ++
        tail := by
  have ho {gap : Text} (blanks : ∀ c ∈ gap, isBlank c) : ∀ c ∈ gap, isWordChar c = false :=
    fun c mem => Unicode.not_isWordChar_of_isBlank (blanks c mem)
  induction list generalizing pre behindWord with
  | nil =>
    have whole : (all [.edge, body, .edge]).rewriteFrom image pre (tail ++ []) = _ :=
      reads.rewriteFrom_other (ho hb)
    rw [rewriteFrom_nil reads.isSolid, append_nil] at whole
    rw [render_nil, nil_append, whole]
    rfl
  | cons lex rest ih =>
    obtain ⟨gap_blank, first, apart, others⟩ := hl
    obtain ⟨gap, atom⟩ := lex
    rw [render_cons, render_cons, append_assoc, append_assoc,
      reads.rewriteFrom_other (ho gap_blank), append_assoc, append_assoc]
    congr 1
    -- a character that is in no word stays
    have pass {lead : Text} (nonword : ∀ c ∈ lead, isWordChar c = false) (filled : lead ≠ []) :
        (all [.edge, body, .edge]).rewriteFrom image (pre ++ gap)
          (lead ++ (render (fun word => word ++ extra word) shown rest ++ tail)) =
            lead ++ (render (fun word => (if names word then f word else word) ++ extra word)
              shown rest ++ tail) := by
      rw [reads.rewriteFrom_other nonword, ih others]
      rw [any_getLast?_of_forall filled nonword]
      intro impossible
      cases impossible
    cases atom with
    | word word =>
      obtain ⟨filled, worded⟩ := first
      have left : (pre ++ gap).getLast?.any isWordChar = false := by
        cases gap with
        | nil =>
          rw [append_nil]
          exact Bool.eq_false_iff.mpr fun behind => apart (flag behind) rfl rfl
        | cons c gap => exact any_getLast?_of_forall (by simp) (ho gap_blank) _
      have right :
          (extra word ++ (render (fun word => word ++ extra word) shown rest ++ tail)).head?.any
          isWordChar = false := by
        cases more : extra word with
        | nil => exact others.head?_render hidden rfl hb
        | cons c more' =>
          have mem : c ∈ extra word := by
            rw [more]
            exact mem_cons_self
          exact ho (blanks word) c mem
      show (all [.edge, body, .edge]).rewriteFrom image (pre ++ gap)
        ((word ++ extra word) ++ (render (fun word => word ++ extra word) shown rest ++ tail)) = _
      rw [append_assoc, reads.rewriteFrom_word images filled worded left right,
        reads.rewriteFrom_other (ho (blanks word)), ih others fun _ => rfl]
      simp only [Atom.render, append_assoc]
    | sign c =>
      exact pass (fun d mem => mem_singleton.mp mem ▸ first.1) (by simp [Atom.render])
    | held a =>
      exact pass (hidden.eq_false (fun _ => isPlain_of_isWordChar) a) (hidden a).1

theorem replaceAll_write (reads : ReadsWords names body) {f : Text → Text}
    (images : ∀ m, image m = f m.text) :
    (all [.edge, body, .edge]).replaceAll (write shown list ++ tail) image =
      write shown (respell (fun w => if names w then f w else w) list) ++ tail := by
  have replaced : (all [.edge, body, .edge]).rewriteFrom image []
      (render (fun w => w ++ []) shown list ++ tail) = _ :=
    rewriteFrom_render hidden hl hb reads images (by simp) (by simp)
  simp only [append_nil] at replaced
  rw [replaceAll_eq_rewriteFrom, write_respell]
  exact replaced

end Words

section Spelling

def capitals (word : Text) : Text :=
  if smallWords.contains word then word.map Char.toUpper else word

def spelling (word : Text) : Text :=
  if capitals word == "end".toList then "END".toList else capitals word

theorem isWordChar_of_isLower (lower : ('a' ≤ c && c ≤ 'z')) : isWordChar c := by
  have letter : c.isLower := lower
  refine Unicode.isWordChar_of_isAlphanum ?_
  unfold Char.isAlphanum Char.isAlpha
  simp [letter]

theorem capitals_cases (w : Text) :
    capitals w = w ∨ ∃ small ∈ smallWords, capitals w = small.map Char.toUpper := by
  unfold capitals
  split
  · next small => exact .inr ⟨w, contains_iff_mem.mp small, rfl⟩
  · exact .inl rfl

theorem capitals_lawful {w : Text} (filled : w ≠ []) (worded : ∀ c ∈ w, isWordChar c) :
    capitals w ≠ [] ∧ ∀ c ∈ capitals w, isWordChar c := by
  have mem : ∀ small ∈ smallWords, small.map Char.toUpper ≠ [] ∧
      (small.map Char.toUpper).all isWordChar := by decide
  rcases capitals_cases w with eq | ⟨small, member, eq⟩
  · rw [eq]
    exact ⟨filled, worded⟩
  · rw [eq]
    exact (mem small member).imp_right all_eq_true.mp

theorem spelling_lawful {w : Text} (filled : w ≠ []) (worded : ∀ c ∈ w, isWordChar c) :
    spelling w ≠ [] ∧ ∀ c ∈ spelling w, isWordChar c := by
  unfold spelling
  split
  · exact ⟨by decide, all_eq_true.mp (by decide)⟩
  · exact capitals_lawful filled worded

theorem spelling_spelling (word : Text) : spelling (spelling word) = spelling word := by
  have ending : spelling "END".toList = "END".toList := by decide
  have mem : ∀ small ∈ smallWords,
      spelling (small.map Char.toUpper) = small.map Char.toUpper := by decide
  by_cases last : (capitals word == "end".toList)
  · have value : spelling word = "END".toList := if_pos last
    rw [value, ending]
  · have value : spelling word = capitals word := if_neg last
    rcases capitals_cases word with eq | ⟨small, member, eq⟩
    · rw [value, eq, value, eq]
    · rw [value, eq, mem small member]

include hidden hl hb

theorem capitalize_write :
    capitalize (write shown list ++ tail) = write shown (respell capitals list) ++ tail := by
  have lower : ∀ small ∈ smallWords,
      (!small.isEmpty && small.all fun c => 'a' ≤ c && c ≤ 'z') := by decide
  have eq (word : Text) : (if !word.isEmpty && word.all fun c => 'a' ≤ c && c ≤ 'z' then
      capitals word else word) = capitals word := by
    split
    · rfl
    · next o =>
      have unlisted : ¬smallWords.contains word :=
        fun small => o (lower word (contains_iff_mem.mp small))
      exact (if_neg unlisted).symm
  rw [← funext eq]
  exact replaceAll_write hidden hl hb (readsWords_plus fun _ => isWordChar_of_isLower) fun _ => rfl

theorem spelled_write :
    smallEndPattern.replaceAllWith (capitalize (write shown list ++ tail)) "END" =
      write shown (respell spelling list) ++ tail := by
  have ended : smallEndPattern.replaceAllWith (write shown (respell capitals list) ++ tail) "END" =
      write shown (respell (fun w => if w == "end".toList then "END".toList else w)
        (respell capitals list)) ++ tail :=
    replaceAll_write hidden (hl.respell fun _ => capitals_lawful) hb
      (readsWords_lit (by decide) (by decide)) fun _ => rfl
  rw [capitalize_write hidden hl hb, ended, respell_respell]
  rfl

end Spelling

section Signs

variable {x y z : Char}

/-- Two characters and one that may stand for them: all three have no meaning of their own for
words, blanks, literals, placeholders and escapes. -/
structure IsDigraph (x y z : Char) : Prop where
  distinct : x ≠ y ∧ z ≠ x ∧ z ≠ y
  nonword : isWordChar x = false ∧ isWordChar y = false ∧ isWordChar z = false
  shown : isBlank x = false ∧ isBlank y = false ∧ isBlank z = false
  plain : isPlain x = true ∧ isPlain y = true ∧ isPlain z = true
  unescaped : z ≠ '\\'

def mergeSigns (x y z : Char) : List (Lexeme α) → List (Lexeme α)
  | [] => []
  | lexeme :: rest =>
    if lexeme.atom.isSign x && startsSign y rest then
      ⟨lexeme.gap, .sign z⟩ :: (mergeSigns x y z rest).tail
    else lexeme :: mergeSigns x y z rest

theorem replace_append_of_notMem {s : Text} (absent : x ∉ s) (t new : Text) :
    Text.replace (s ++ t) [x, y] new = s ++ Text.replace t [x, y] new := by
  induction s with
  | nil => rfl
  | cons c s ih =>
    have ho : x ≠ c := fun eq => absent (eq ▸ mem_cons_self)
    have missed : ¬[x, y].isPrefixOf (c :: (s ++ t)) := by simp [ho]
    rw [Text.replace, cons_append, replaceGo, if_neg missed, ← Text.replace,
      ih (mt (mem_cons_of_mem c) absent)]
    rfl

theorem replace_pair (t new : Text) :
    Text.replace (x :: y :: t) [x, y] new = new ++ Text.replace t [x, y] new := by
  have m : [x, y].isPrefixOf (x :: y :: t) := by simp
  rw [Text.replace, replaceGo, if_pos m]
  rfl

theorem replace_single {t : Text} (apart : t.head? ≠ some y) (new : Text) :
    Text.replace (x :: t) [x, y] new = x :: Text.replace t [x, y] new := by
  have missed : ¬[x, y].isPrefixOf (x :: t) := by
    cases t with
    | nil => simp
    | cons c t =>
      have ho : y ≠ c := fun eq => apart (by rw [eq]; rfl)
      simp [ho]
  rw [Text.replace, replaceGo, if_neg missed, ← Text.replace]

inductive Merged (x y z : Char) : List (Lexeme α) → List (Lexeme α) → Prop
  | nil : Merged x y z [] []
  | pair (gap : Text) {rest merged : List (Lexeme α)} (others : Merged x y z rest merged) :
    Merged x y z (⟨gap, .sign x⟩ :: ⟨[], .sign y⟩ :: rest) (⟨gap, .sign z⟩ :: merged)
  | other {lexeme : Lexeme α} {rest merged : List (Lexeme α)}
    (single : (lexeme.atom.isSign x && startsSign y rest) = false)
    (others : Merged x y z rest merged) : Merged x y z (lexeme :: rest) (lexeme :: merged)

theorem merged_mergeSigns (distinct : x ≠ y) (list : List (Lexeme α)) :
    Merged x y z list (mergeSigns x y z list) := by
  induction list with
  | nil => exact .nil
  | cons lex rest ih =>
    rw [mergeSigns]
    split
    · next both =>
      obtain ⟨isFirst, starts⟩ := Bool.and_eq_true_iff.mp both
      obtain ⟨gap, atom⟩ := lex
      obtain ⟨more, rfl⟩ := startsSign_eq_true starts
      cases isSign_eq_true isFirst
      have second : mergeSigns x y z (⟨[], .sign y⟩ :: more) =
          ⟨[], .sign y⟩ :: mergeSigns x y z more := by
        rw [mergeSigns]
        simp [isSign, distinct.symm]
      rw [second] at ih ⊢
      cases ih with
      | pair => exact absurd rfl distinct
      | other single others => exact .pair gap others
    · next single => exact .other (by simpa using single) ih

theorem IsDigraph.notMem_of_isBlank (digraph : IsDigraph x y z) {gap : Text}
    (blanks : ∀ c ∈ gap, isBlank c) : x ∉ gap := by
  intro mem
  cases digraph.shown.1.symm.trans (blanks x mem)

include hidden in
theorem IsDigraph.notMem_render (digraph : IsDigraph x y z)
    {atom : Atom α} (hl : atom.IsLawful) (ho : atom.isSign x = false) :
    x ∉ atom.render id shown := by
  intro mem
  cases atom with
  | word t => cases digraph.nonword.1.symm.trans (hl.2 x mem)
  | sign c => exact (beq_eq_false_iff_ne.mp ho) (mem_singleton.mp mem).symm
  | held a => cases digraph.plain.1.symm.trans ((hidden a).2 x mem)

include hidden hl hb in
theorem head?_write_eq_some (nonword : isWordChar c = false)
    (vis : isBlank c = false) (hp : isPlain c) :
    (write shown list ++ tail).head? = some c ↔ startsSign c list := by
  refine hl.head?_eq_sign nonword vis (fun a _ => ?_) fun _ head => ?_
  · obtain ⟨filled, divides⟩ := hidden a
    obtain ⟨d, more, shape⟩ := exists_cons_of_ne_nil filled
    refine ⟨d, more, shape, ?_⟩
    rintro rfl
    cases hp.symm.trans (divides d (by rw [shape]; exact mem_cons_self))
  · cases vis.symm.trans (hb c (mem_of_head? head))

namespace Merged

variable {new : List (Lexeme α)} (merged : Merged x y z list new) (digraph : IsDigraph x y z)

include merged

include hidden hl hb digraph in
theorem replace_write :
    replace (write shown list ++ tail) [x, y] [z] = write shown new ++ tail := by
  induction merged generalizing behindWord with
  | nil =>
    have whole : replace (tail ++ []) [x, y] [z] = tail ++ _ :=
      replace_append_of_notMem (digraph.notMem_of_isBlank hb) [] [z]
    rw [append_nil] at whole
    rw [write_nil, nil_append, whole]
    exact append_nil tail
  | @pair gap rest merged others ih =>
    obtain ⟨gap_blank, -, -, -, -, -, hl⟩ := hl
    have texts : write shown (⟨gap, .sign x⟩ :: ⟨[], .sign y⟩ :: rest) ++ tail =
        gap ++ (x :: y :: (write shown rest ++ tail)) := by
      simp [Atom.render]
    rw [texts, replace_append_of_notMem (digraph.notMem_of_isBlank gap_blank), replace_pair, ih hl]
    simp [Atom.render]
  | @other lex rest merged single others ih =>
    obtain ⟨gap_blank, first, -, hl⟩ := hl
    obtain ⟨gap, atom⟩ := lex
    rw [write_cons, append_assoc,
      replace_append_of_notMem (digraph.notMem_of_isBlank gap_blank), append_assoc,
      write_cons, append_assoc, append_assoc, append_cancel_left_eq]
    cases isFirst : atom.isSign x with
    | false => rw [replace_append_of_notMem (digraph.notMem_render hidden first isFirst), ih hl]
    | true =>
      cases isSign_eq_true isFirst
      have apart : (write shown rest ++ tail).head? ≠ some y := by
        rw [Ne, head?_write_eq_some hidden hl hb digraph.nonword.2.1 digraph.shown.2.1
          digraph.plain.2.1]
        simpa [isFirst] using single
      show replace (x :: (write shown rest ++ tail)) [x, y] [z] = _
      rw [replace_single apart, ih hl]
      rfl

theorem forall_mem {p : Lexeme α → Prop} (held : ∀ lex ∈ list, p lex)
    (step : ∀ gap, p ⟨gap, .sign x⟩ → p ⟨gap, .sign z⟩) : ∀ lex ∈ new, p lex := by
  induction merged with
  | nil => exact held
  | pair gap others ih =>
    rw [forall_mem_cons, forall_mem_cons] at held
    exact forall_mem_cons.mpr ⟨step gap held.1, ih held.2.2⟩
  | other single others ih =>
    rw [forall_mem_cons] at held
    exact forall_mem_cons.mpr ⟨held.1, ih held.2⟩

include hl digraph in
theorem lawful : AreLawful behindWord new := by
  induction merged generalizing behindWord with
  | nil => trivial
  | pair gap others ih =>
    obtain ⟨gap_blank, -, -, -, -, -, hl⟩ := hl
    have sign : (sign z : Atom α).IsLawful :=
      ⟨digraph.nonword.2.2, digraph.shown.2.2, not_isMarked_of_isPlain digraph.plain.2.2,
        digraph.unescaped⟩
    exact ⟨gap_blank, sign, by simp [Atom.isWord], ih hl⟩
  | other single others ih =>
    obtain ⟨gap_blank, first, apart, hl⟩ := hl
    exact ⟨gap_blank, first, apart, ih hl⟩

include digraph in
theorem marks_eq : marks new = marks list := by
  have unmarked {c : Char} (plain : isPlain c) : (sign c : Atom α).mark? = none := by
    refine if_neg ?_
    rintro rfl
    cases plain
  induction merged with
  | nil => rfl
  | pair gap others ih =>
    simp [marks_cons, unmarked digraph.plain.1, unmarked digraph.plain.2.1,
      unmarked digraph.plain.2.2, ih]
  | other single others ih => rw [marks_cons, marks_cons, ih]

theorem startsSign_of (other : z ≠ c) (starts : startsSign c new) : startsSign c list := by
  cases merged with
  | nil => cases starts
  | pair gap others =>
    have eq : z = c := by simpa [isSign] using (Bool.and_eq_true_iff.mp starts).2
    exact absurd eq other
  | other single others => exact starts

/-- The two characters are left nowhere next to each other, nor are others that were not before. -/
theorem apart {d : Char} (fresh : z ≠ c ∧ z ≠ d) (was : x = c ∧ y = d ∨ Apart c d list) :
    Apart c d new := by
  induction merged with
  | nil => trivial
  | pair gap others ih =>
    have first : isSign c (sign z : Atom α) = false := by
      simpa [isSign] using fresh.1
    exact ⟨by simp [first], ih (was.imp_right (·.2.2))⟩
  | other single others ih =>
    refine ⟨Bool.eq_false_iff.mpr fun both => ?_, ih (was.imp_right (·.2))⟩
    obtain ⟨isFirst, starts⟩ := Bool.and_eq_true_iff.mp both
    have starts := others.startsSign_of fresh.2 starts
    rcases was with ⟨rfl, rfl⟩ | apart
    · simp [isFirst, starts] at single
    · exact absurd apart.1 (by simp [isFirst, starts])

end Merged

theorem mergeSigns_of_apart (apart : Apart x y list) : mergeSigns x y z list = list := by
  induction list with
  | nil => rfl
  | cons lex rest ih => rw [mergeSigns, if_neg (by simp [apart.1]), ih apart.2]

/-- The comparison signs of two characters, with the characters that stand for them. -/
def digraphs : List (Char × Char × Char) :=
  [('>', '=', '≥'), ('<', '=', '≤'), ('<', '>', '≠'), ('!', '=', '≠')]

def joinSigns (list : List (Lexeme α)) : List (Lexeme α) :=
  digraphs.foldl (fun list sign => mergeSigns sign.1 sign.2.1 sign.2.2 list) list

theorem isDigraph_of_mem : ∀ sign ∈ digraphs, IsDigraph sign.1 sign.2.1 sign.2.2 := by
  simp only [digraphs, forall_mem_cons]
  refine ⟨?_, ?_, ?_, ?_, by simp⟩ <;>
    exact ⟨by decide, by decide +kernel, by decide, by decide, by decide⟩

theorem joinSigns_induction (P : List (Lexeme α) → Prop) (start : P list)
    (step : ∀ sign ∈ digraphs, ∀ {list new : List (Lexeme α)},
      Merged sign.1 sign.2.1 sign.2.2 list new → P list → P new) :
    P (joinSigns list) :=
  foldlRecOn digraphs _ start fun list held sign mem =>
    step sign mem (merged_mergeSigns (isDigraph_of_mem sign mem).distinct.1 list) held

theorem lawful_joinSigns (hl : AreLawful false list) : AreLawful false (joinSigns list) :=
  joinSigns_induction (AreLawful false) hl fun sign mem _ _ merged held =>
    merged.lawful held (isDigraph_of_mem sign mem)

theorem marks_joinSigns (list : List (Lexeme α)) : marks (joinSigns list) = marks list :=
  joinSigns_induction (fun new => marks new = marks list) rfl
    fun sign mem _ _ merged held => (merged.marks_eq (isDigraph_of_mem sign mem)).trans held

theorem keeps_apart_joinSigns {d : Char} (fresh : ∀ sign ∈ digraphs, sign.2.2 ≠ c ∧ sign.2.2 ≠ d)
    (apart : Apart c d list) : Apart c d (joinSigns list) :=
  joinSigns_induction (Apart c d) apart fun sign mem _ _ merged held =>
    merged.apart (fresh sign mem) (.inr held)

theorem apart_joinSigns (list : List (Lexeme α)) :
    ∀ sign ∈ digraphs, Apart sign.1 sign.2.1 (joinSigns list) := by
  intro sign mem
  have digraph := isDigraph_of_mem sign mem
  have fresh : ∀ sign ∈ digraphs, ∀ o ∈ digraphs, o.2.2 ≠ sign.1 ∧ o.2.2 ≠ sign.2.1 := by decide
  obtain ⟨left, right, split⟩ := append_of_mem mem
  unfold joinSigns
  rw [split, foldl_append]
  refine foldlRecOn right _ (merged_mergeSigns digraph.distinct.1 _ |>.apart
    digraph.distinct.2 (.inl ⟨rfl, rfl⟩)) ?_
  intro list held o member
  have among : o ∈ digraphs := by
    rw [split]
    exact mem_append_right _ (mem_cons_of_mem _ member)
  exact (merged_mergeSigns (isDigraph_of_mem o among).distinct.1 list).apart
    (fresh sign mem o among) (.inr held)

theorem joinSigns_of_apart (apart : ∀ sign ∈ digraphs, Apart sign.1 sign.2.1 list) :
    joinSigns list = list := by
  refine foldlRecOn (motive := fun new => new = list) digraphs _ rfl ?_
  intro new eq sign mem
  rw [eq, mergeSigns_of_apart (apart sign mem)]

include hidden hl hb in
theorem joined_write :
    comparisonSigns.foldl (fun code sign => Text.replace code sign.1.toList sign.2.toList)
      (write shown list ++ tail) = write shown (joinSigns list) ++ tail := by
  have tbl : comparisonSigns = digraphs.map fun sign =>
      (String.ofList [sign.1, sign.2.1], String.ofList [sign.2.2]) := by decide
  rw [tbl, foldl_map]
  simp only [String.toList_ofList]
  unfold joinSigns
  have all := isDigraph_of_mem
  generalize digraphs = tbl at all
  induction tbl generalizing list with
  | nil => rfl
  | cons sign tbl ih =>
    have digraph := all sign mem_cons_self
    have merged := merged_mergeSigns (z := sign.2.2) digraph.distinct.1 list
    rw [foldl_cons, merged.replace_write hidden hl hb digraph]
    exact ih (merged.lawful hl digraph) (forall_mem_cons.mp all).2

end Signs

section Rows

def endsRow (word : Text) : Bool :=
  (["THEN", "DO", "REPEAT", "ELSE", "DEFAULT", "CASE", "BEGIN", "IFERR"].map String.toList).contains
    word

def startsRow (word : Text) : Bool :=
  (["ELSE", "END", "UNTIL", "DEFAULT", "BEGIN"].map String.toList).contains word

def broken (word : Text) : Text :=
  (if startsRow word then '\n' :: word else word) ++ if endsRow word then ['\n'] else []

theorem render_broken (atom : Atom α) : atom.render broken shown =
    (if atom.names startsRow then ['\n'] else []) ++
      (atom.render id shown ++ if atom.names endsRow then ['\n'] else []) := by
  cases atom with
  | word t =>
    show (if startsRow t then '\n' :: t else t) ++ _ = (if startsRow t then ['\n'] else []) ++ _
    cases startsRow t <;> rfl
  | sign c | held c => simp [Atom.render, Atom.names]

def cutRows : List (Lexeme α) → List (List (Lexeme α))
  | [] => [[]]
  | lexeme :: rest =>
    let rows := if lexeme.atom.names endsRow then [] :: cutRows rest else cutRows rest
    if lexeme.atom.names startsRow then [] :: rows.modifyHead (⟨[], lexeme.atom⟩ :: ·)
    else rows.modifyHead (lexeme :: ·)

include hidden hl hb in
theorem broken_write :
    breakBeforePattern.replaceAll (breakAfterPattern.replaceAll (write shown list ++ tail)
      fun m => m.text ++ ['\n']) (fun m => '\n' :: m.text) =
    render broken shown list ++ tail := by
  have hsuf : breakAfterPattern.replaceAll (write shown list ++ tail)
      (fun m => m.text ++ ['\n']) =
        render (fun w => w ++ if endsRow w then ['\n'] else []) shown list ++ tail := by
    have replaced : breakAfterPattern.replaceAll (write shown list ++ tail)
        (fun m => m.text ++ ['\n']) =
          write shown (respell (fun w => if endsRow w then w ++ ['\n'] else w) list) ++ tail :=
      replaceAll_write hidden hl hb (readsWords_anyLit (by simp) (by decide)) fun _ => rfl
    rw [replaced, write_respell]
    congr 2
    funext w
    split <;> simp
  have feed : ∀ w, ∀ c ∈ (if endsRow w then ['\n'] else []), isBlank c := by
    intro w c mem
    split at mem
    · rw [mem_singleton.mp mem]
      exact isBlank_newline
    · cases mem
  rw [hsuf, replaceAll_eq_rewriteFrom]
  exact rewriteFrom_render hidden hl hb (readsWords_anyLit (by simp) (by decide)) (fun _ => rfl)
    feed (by simp)

theorem forall₂_modifyHead {lists : List (List (Lexeme α))} {texts : List Text}
    (writes : Forall₂ (Writes shown) lists texts) (lex : Lexeme α) :
    Forall₂ (Writes shown) (lists.modifyHead (lex :: ·))
      (texts.modifyHead (lex.gap ++ lex.atom.render id shown ++ ·)) := by
  cases writes with
  | nil => exact .nil
  | cons first others =>
    obtain ⟨tail, hb, rfl⟩ := first
    refine .cons ⟨tail, hb, ?_⟩ others
    rw [write_cons]
    simp only [append_assoc]

include hidden

theorem shown_render {atom : Atom α} (hl : atom.IsLawful) :
    atom.render id shown ≠ [] ∧ ∀ c ∈ atom.render id shown, isBlank c = false := by
  cases atom with
  | word t =>
    exact ⟨hl.1, fun c mem => Unicode.not_isBlank_of_isWordChar (hl.2 c mem)⟩
  | sign c => exact ⟨by simp [Atom.render], fun d mem => mem_singleton.mp mem ▸ hl.2.1⟩
  | held a => exact ⟨(hidden a).1, hidden.eq_false (fun _ => isPlain_of_isBlank) a⟩

theorem newline_notMem_render {atom : Atom α} (hl : atom.IsLawful) :
    '\n' ∉ atom.render id shown := by
  intro mem
  cases isBlank_newline.symm.trans ((shown_render hidden hl).2 _ mem)

include hl hb in
theorem writes_rows (one : '\n' ∉ write shown list ++ tail) :
    Forall₂ (Writes shown) (cutRows list) (Text.splitOn '\n'
      (render broken shown list ++ tail)) := by
  induction list generalizing behindWord with
  | nil =>
    rw [splitOn_of_notMem (by simpa using one)]
    exact .cons ⟨tail, hb, rfl⟩ .nil
  | cons lex rest ih =>
    obtain ⟨gap_blank, first, -, hl⟩ := hl
    obtain ⟨gap, atom⟩ := lex
    rw [write_cons, append_assoc, append_assoc] at one
    have noFeed : '\n' ∉ gap := mt (mem_append_left _) one
    have further := ih hl fun mem =>
      one (mem_append_right _ (mem_append_right _ mem))
    rw [render_cons, render_broken]
    simp only [append_assoc]
    generalize render broken shown rest ++ tail = v at further ⊢
    -- the row that is ended or goes on behind the lexeme
    have onward : Forall₂ (Writes shown)
        (if atom.names endsRow then [] :: cutRows rest else cutRows rest)
        (Text.splitOn '\n' ((if atom.names endsRow then ['\n'] else []) ++ v)) := by
      split
      · exact .cons ⟨[], by simp, rfl⟩ further
      · exact further
    unfold cutRows
    dsimp only
    have noFeed' := newline_notMem_render hidden first
    split
    · have row := forall₂_modifyHead onward ⟨[], atom⟩
      rw [nil_append, ← splitOn_append_of_notMem noFeed'] at row
      rw [splitOn_append_of_notMem noFeed]
      refine .cons ⟨gap, gap_blank, ?_⟩ row
      exact append_nil gap
    · have row := forall₂_modifyHead onward ⟨gap, atom⟩
      have absent : '\n' ∉ gap ++ atom.render id shown := by
        simp only [mem_append, not_or]
        exact ⟨noFeed, noFeed'⟩
      rw [← splitOn_append_of_notMem absent, append_assoc] at row
      exact row

end Rows

section Parts

def bracketStep : Atom α → Int
  | .word _ => 0
  | .sign c => Lexical.bracketStep c
  | .held _ => 0

/-- Lexemes cut at the semicolons outside brackets, when a number of brackets is open in front. -/
def cutParts : Int → List (Lexeme α) → List (List (Lexeme α))
  | _, [] => [[]]
  | depth, lexeme :: rest =>
    if lexeme.atom.isSign ';' && depth = 0 then [] :: cutParts depth rest
    else (cutParts (depth + bracketStep lexeme.atom) rest).modifyHead (lexeme :: ·)

include hidden hl hb in
theorem writes_parts (d : Int) :
    Forall₂ (Writes shown) (cutParts d list) (splitTopFrom ';' d (write shown list ++ tail)) := by
  have blanks {gap : Text} (all : ∀ c ∈ gap, isBlank c) :
      ∀ c ∈ gap, c ≠ ';' ∧ Lexical.bracketStep c = 0 :=
    fun c mem => neutral_of (by decide) (all c mem)
  induction list generalizing behindWord d with
  | nil =>
    have whole : splitTopFrom ';' d (tail ++ []) = _ :=
      splitTopFrom_append_of_neutral (blanks hb) d []
    rw [append_nil] at whole
    rw [write_nil, nil_append, whole]
    refine .cons ⟨tail, hb, ?_⟩ .nil
    exact append_nil tail
  | cons lex rest ih =>
    obtain ⟨gap_blank, first, -, hl⟩ := hl
    obtain ⟨gap, atom⟩ := lex
    rw [write_cons, append_assoc, append_assoc]
    -- a lexeme without a meaning for the cutting goes in front of the first part
    have pass (neutral : ∀ c ∈ atom.render id shown, c ≠ ';' ∧ Lexical.bracketStep c = 0)
        (ho : atom.isSign ';' = false) (flat : bracketStep atom = 0) :
        Forall₂ (Writes shown) (cutParts d (⟨gap, atom⟩ :: rest))
          (splitTopFrom ';' d (gap ++ (atom.render id shown ++ (write shown rest ++ tail)))) := by
      have behind := forall₂_modifyHead (ih hl d) ⟨gap, atom⟩
      rw [← append_assoc, splitTopFrom_append_of_neutral]
      · rw [cutParts, if_neg (by simp [ho]), flat, Int.add_zero]
        exact behind
      · intro c mem
        exact (mem_append.mp mem).elim (blanks gap_blank c) (neutral c)
    cases atom with
    | word t => exact pass (fun c mem => neutral_of (by decide) (first.2 c mem)) rfl rfl
    | held a =>
      refine pass (fun c mem => ?_) rfl rfl
      have divides : (!isPlain c) := by
        rw [(hidden a).2 c mem]
        rfl
      exact @neutral_of (fun c => !isPlain c) ';' (by decide) c divides
    | sign c =>
      rw [splitTopFrom_append_of_neutral (blanks gap_blank)]
      show Forall₂ _ _ ((splitTopFrom ';' d
        (c :: (write shown rest ++ tail))).modifyHead (gap ++ ·))
      rw [cutParts, splitTopFrom]
      by_cases cut : c = ';' ∧ d = 0
      · rw [if_pos (by simpa [isSign] using cut), if_pos (by simpa using cut)]
        refine .cons ⟨gap, gap_blank, ?_⟩ (ih hl d)
        exact append_nil gap
      · rw [if_neg (by simpa [isSign] using cut), if_neg (by simpa using cut)]
        have behind := forall₂_modifyHead (ih hl (d + Lexical.bracketStep c)) ⟨gap, .sign c⟩
        obtain ⟨part, parts, split⟩ := exists_cons_of_ne_nil
          (splitTopFrom_ne_nil ';' (d + Lexical.bracketStep c) (write shown rest ++ tail))
        rw [split] at behind ⊢
        simpa [consHead, Atom.render, bracketStep] using behind

end Parts

section Spacing

def clearGap : List (Lexeme α) → List (Lexeme α)
  | [] => []
  | lexeme :: rest => ⟨[], lexeme.atom⟩ :: rest

@[simp] theorem clearGap_nil : clearGap ([] : List (Lexeme α)) = [] :=
  rfl

@[simp] theorem clearGap_cons (lex : Lexeme α) (rest : List (Lexeme α)) :
    clearGap (lex :: rest) = ⟨[], lex.atom⟩ :: rest :=
  rfl

def collapseGaps (list : List (Lexeme α)) : List (Lexeme α) :=
  list.map fun lexeme => ⟨if lexeme.gap.isEmpty then [] else [' '], lexeme.atom⟩

variable {gap : Text} {rest : List (Lexeme α)}

theorem collapseFrom_blanks (hb : ∀ c ∈ gap, isBlank c) (noFeed : '\n' ∉ gap)
    (fresh pending : Bool) (t : Text) :
    collapseFrom fresh pending (gap ++ t) = collapseFrom fresh (pending || !gap.isEmpty) t := by
  induction gap generalizing pending with
  | nil => simp
  | cons c gap ih =>
    have ho : c ≠ '\n' := fun eq => noFeed (eq ▸ mem_cons_self)
    have space : (isBlank c && c != '\n') := by simp [hb c mem_cons_self, ho]
    rw [cons_append, collapseFrom, if_pos space,
      ih ((forall_mem_cons.mp hb).2) (mt (mem_cons_of_mem c) noFeed)]
    simp

theorem collapseFrom_shown {s : Text} (filled : s ≠ []) (shown : ∀ c ∈ s, isBlank c = false)
    (fresh pending : Bool) (t : Text) :
    collapseFrom fresh pending (s ++ t) =
      (if pending && !fresh then [' '] else []) ++ (s ++ collapseFrom false false t) := by
  induction s generalizing fresh pending with
  | nil => exact absurd rfl filled
  | cons c s ih =>
    have vis := shown c mem_cons_self
    have ho : (c == '\n') = false := by
      rw [beq_eq_false_iff_ne]
      rintro rfl
      cases isBlank_newline.symm.trans vis
    rw [cons_append, collapseFrom, if_neg (by simp [vis]), ho]
    cases s with
    | nil => rfl
    | cons d s =>
      rw [ih (by simp) (forall_mem_cons.mp shown).2]
      rfl

include hidden hl hb in
theorem collapseFrom_write (one : '\n' ∉ write shown list ++ tail) (fresh : Bool) :
    collapseFrom fresh false (write shown list ++ tail) =
      write shown (if fresh then clearGap (collapseGaps list) else collapseGaps list) := by
  induction list generalizing behindWord fresh with
  | nil =>
    have whole := collapseFrom_blanks hb (by simpa using one) fresh false []
    rw [append_nil] at whole
    rw [write_nil, nil_append, whole]
    cases fresh <;> rfl
  | cons lex rest ih =>
    obtain ⟨gap_blank, first, -, hl⟩ := hl
    obtain ⟨gap, atom⟩ := lex
    rw [write_cons, append_assoc, append_assoc] at one ⊢
    have noFeed : '\n' ∉ gap := mt (mem_append_left _) one
    have further := ih hl (fun mem =>
      one (mem_append_right _ (mem_append_right _ mem))) false
    obtain ⟨filled, vis⟩ := shown_render hidden first
    rw [collapseFrom_blanks gap_blank noFeed, collapseFrom_shown filled vis, further]
    cases fresh <;> cases gap <;> simp [collapseGaps]

variable {c : Char} {more new : List (Lexeme α)} {lead : Text}

/-- A sign gets a fixed text in front of it and a space behind it, in place of the gaps there. The
sign is a character with others right behind it. The flag says that the sign has just passed. -/
inductive Spaced (c : Char) (more : List (Lexeme α)) (lead : Text) :
    Bool → List (Lexeme α) → List (Lexeme α) → Prop
  | nil (behind : Bool) : Spaced c more lead behind [] []
  | hit (behind : Bool) (gap : Text) {rest new : List (Lexeme α)}
    (others : Spaced c more lead true rest new) :
    Spaced c more lead behind (⟨gap, .sign c⟩ :: (more ++ rest))
      (⟨(if behind then [' '] else []) ++ lead, .sign c⟩ :: (more ++ new))
  | miss (behind : Bool) {lexeme : Lexeme α} {rest new : List (Lexeme α)}
    (other : ¬(lexeme.atom = .sign c ∧ more <+: rest))
    (others : Spaced c more lead false rest new) :
    Spaced c more lead behind (lexeme :: rest)
      (⟨if behind then [' '] else lexeme.gap, lexeme.atom⟩ :: new)

include hidden hl hb in
theorem exists_write_clearGap :
    ∃ space rest, write shown list ++ tail = space ++ (write shown (clearGap list) ++ rest) ∧
      (∀ c ∈ space, isBlank c) ∧ (∀ c ∈ rest, isBlank c) ∧
      (write shown (clearGap list) ++ rest).head?.any isBlank = false := by
  cases list with
  | nil => exact ⟨tail, [], by simp, hb, by simp, rfl⟩
  | cons lex list =>
    obtain ⟨gap_blank, first, -⟩ := hl
    obtain ⟨d, t, shape, vis, -⟩ := Atom.exists_render hidden first
    refine ⟨lex.gap, tail, by simp, gap_blank, hb, ?_⟩
    simp [shape, vis]

theorem absent_of {sign s rest : Text} (hb : ∀ c ∈ gap, isBlank c) (filled : s ≠ [])
    (vis : ∀ c ∈ s, isBlank c = false)
    (misses : ∀ passed d a, s = passed ++ d :: a → ¬sign <+: d :: a ++ rest) :
    ∀ passed d a, gap ++ s = passed ++ d :: a → ¬sign <+: (d :: a ++ rest).dropWhile isBlank := by
  intro passed d a split
  obtain ⟨e, s', rfl⟩ := exists_cons_of_ne_nil filled
  rcases append_eq_append_iff.mp split with ⟨left, rfl, shape⟩ | ⟨left, rfl, shape⟩
  · have here : isBlank d = false := vis d (by rw [shape]; simp)
    rw [cons_append, dropWhile_cons_of_neg (by simp [here])]
    exact misses left d a shape
  · cases left with
    | nil =>
      have here : isBlank d = false := vis d (by
        rw [nil_append] at shape
        rw [← shape]
        exact mem_cons_self)
      rw [cons_append, dropWhile_cons_of_neg (by simp [here])]
      exact misses [] d a (by exact shape.symm)
    | cons f left =>
      have blanks : ∀ c ∈ f :: left, isBlank c := (forall_mem_append.mp hb).2
      have first : isBlank e = false := vis e mem_cons_self
      rw [shape, append_assoc, dropWhile_append_of_pos blanks, cons_append,
        dropWhile_cons_of_neg (by simp [first])]
      exact misses [] e s' rfl

/-- What a sign needs so that it is found where its characters are lexemes next to each other. -/
structure IsSpacedSign (shown : α → Text) (c : Char) (more : List (Lexeme α)) (body : Regex) : Prop
    where
  reads : ReadsSign (c :: write shown more) body
  nonword : isWordChar c = false
  plain : isPlain c = true
  starts : ∀ {rest : List (Lexeme α)} {tail : Text}, AreLawful false rest →
    (∀ d ∈ tail, isBlank d = true) → write shown more <+: write shown rest ++ tail → more <+: rest

include hidden hb in
theorem IsSpacedSign.misses {body : Regex} (sign : IsSpacedSign shown c more body) {atom : Atom α}
    (first : atom.IsLawful) (hl : AreLawful false rest)
    (ho : ¬(atom = .sign c ∧ more <+: rest)) :
    ∀ passed d ha, atom.render id shown = passed ++ d :: ha →
      ¬(c :: write shown more) <+: d :: ha ++ (write shown rest ++ tail) := by
  intro passed d ha split m
  obtain ⟨rfl, further⟩ := cons_prefix_cons.mp m
  have mem : c ∈ atom.render id shown := by
    rw [split]
    simp
  cases atom with
  | word t => cases sign.nonword.symm.trans (first.2 c mem)
  | held a => cases sign.plain.symm.trans ((hidden a).2 c mem)
  | sign e =>
    obtain ⟨rfl, rfl, rfl⟩ : passed = [] ∧ e = c ∧ ha = [] := by
      cases passed with
      | nil => simpa [Atom.render] using split
      | cons f passed => simp [Atom.render] at split
    exact ho ⟨rfl, sign.starts hl hb further⟩

include hidden hl hb in
/-- Blanks around a sign are set wherever its characters are lexemes next to each other. -/
theorem Spaced.rewrites {v : Bool} (spaced : Spaced c more lead v list new) {body : Regex}
    (sign : IsSpacedSign shown c more body) {image : Match → Text}
    (images : ∀ m, image m = lead ++ ((c :: write shown more) ++ [' '])) (pre : Text) :
    Writes shown new ((if v then [' '] else []) ++
      (all [.blanks, body, .blanks]).rewriteFrom image pre
        (write shown (if v then clearGap list else list) ++ tail)) := by
  induction spaced generalizing behindWord pre tail with
  | nil v =>
    have whole : (all [.blanks, body, .blanks]).rewriteFrom image pre (tail ++ []) = _ :=
      sign.reads.rewriteFrom_miss fun passed d a split => by
        have gone : (d :: a ++ []).dropWhile isBlank = [] := by
          rw [append_nil, dropWhile_eq_nil_iff]
          exact fun e mem => hb e (by rw [split]; exact mem_append_right _ mem)
        rw [gone]
        simp
    rw [rewriteFrom_nil sign.reads.isSolid, append_nil] at whole
    have empty : (if v then clearGap ([] : List (Lexeme α)) else []) = [] := by
      cases v <;> rfl
    rw [empty, write_nil, nil_append, whole]
    refine ⟨_, fun d mem => ?_, rfl⟩
    rcases mem_append.mp mem with space | rest
    · cases v with
      | true => exact mem_singleton.mp space ▸ by decide
      | false => cases space
    · exact hb d rest
  | @hit v gap rest new others ih =>
    obtain ⟨gap_blank, -, -, hl⟩ := hl
    have hl := hl.of_append.2
    obtain ⟨space, back, split, space_blank, back_blank, ended⟩ :=
      exists_write_clearGap hidden hl hb
    obtain ⟨gap', gap'_blank, text⟩ : ∃ gap', (∀ d ∈ gap', isBlank d) ∧
        write shown (if v then clearGap (⟨gap, .sign c⟩ :: (more ++ rest))
          else ⟨gap, .sign c⟩ :: (more ++ rest)) ++ tail =
            gap' ++ ((c :: write shown more) ++
              (space ++ (write shown (clearGap rest) ++ back))) := by
      cases v with
      | true => exact ⟨[], by simp, by simp [Atom.render, ← split]⟩
      | false => exact ⟨gap, gap_blank, by simp [Atom.render, ← split]⟩
    rw [text, sign.reads.rewriteFrom_hit images gap'_blank space_blank ended]
    obtain ⟨fin, final_blank, eq⟩ := ih hl back_blank
      (pre ++ (gap' ++ ((c :: write shown more) ++ space)))
    simp only [if_true] at eq
    refine ⟨fin, final_blank, ?_⟩
    simp only [append_assoc, eq]
    simp [Atom.render]
  | @miss v lex rest new o others ih =>
    obtain ⟨gap_blank, first, -, hl⟩ := hl
    obtain ⟨gap, atom⟩ := lex
    obtain ⟨filled, vis⟩ := shown_render hidden first
    obtain ⟨gap', gap'_blank, text, set⟩ : ∃ gap', (∀ d ∈ gap', isBlank d) ∧
        write shown (if v then clearGap (⟨gap, atom⟩ :: rest) else ⟨gap, atom⟩ :: rest) ++ tail =
            (gap' ++ atom.render id shown) ++ (write shown rest ++ tail) ∧
        (if v then [' '] else []) ++ gap' = if v then [' '] else gap := by
      cases v with
      | true => exact ⟨[], by simp, by simp, rfl⟩
      | false => exact ⟨gap, gap_blank, by simp, rfl⟩
    have absent := absent_of gap'_blank filled vis (sign.misses hidden hb first hl.weaken o)
    rw [text, sign.reads.rewriteFrom_miss absent]
    obtain ⟨fin, final_blank, eq⟩ := ih hl.weaken hb (pre ++ (gap' ++ atom.render id shown))
    simp only [if_false, nil_append, Bool.false_eq_true] at eq
    refine ⟨fin, final_blank, ?_⟩
    rw [eq, write_cons, ← set]
    simp only [append_assoc]

/-- A lexeme with another gap. A gap goes only in front of a comma. -/
def Regap (lexeme new : Lexeme α) : Prop :=
  new.atom = lexeme.atom ∧
    ((∀ c ∈ lexeme.gap, isBlank c = true) → ∀ c ∈ new.gap, isBlank c = true) ∧
    (new.gap = [] → lexeme.gap = [] ∨ lexeme.atom.isSign ',' = true)

theorem regap_of_filled (lex : Lexeme α) (filled : gap ≠ []) (hb : ∀ c ∈ gap, c = ' ') :
    Regap lex ⟨gap, lex.atom⟩ :=
  ⟨rfl, fun _ c mem => hb c mem ▸ isBlank_space, fun hc => absurd hc filled⟩

theorem regap_collapse (lex : Lexeme α) :
    Regap lex ⟨if lex.gap.isEmpty then [] else [' '], lex.atom⟩ := by
  cases gap : lex.gap with
  | nil => exact ⟨rfl, by simp, fun _ => .inl gap⟩
  | cons c rest => exact regap_of_filled lex (by simp) (by simp)

abbrev Regapped (list new : List (Lexeme α)) : Prop :=
  Forall₂ Regap list new

include hl in
theorem Regapped.lawful (regapped : Regapped list new) : AreLawful behindWord new := by
  induction regapped generalizing behindWord with
  | nil => trivial
  | @cons lex lexeme' list new eq others ih =>
    obtain ⟨gap_blank, first, apart, hl⟩ := hl
    obtain ⟨atom, blanks, closes⟩ := eq
    refine ⟨blanks gap_blank, atom ▸ first, fun v isWord hc => ?_, atom ▸ ih hl⟩
    rw [atom] at isWord
    rcases closes hc with was | comma
    · exact apart v isWord was
    · rw [isSign_eq_true comma] at isWord
      cases isWord

theorem Regapped.atoms_eq (regapped : Regapped list new) :
    new.map Lexeme.atom = list.map Lexeme.atom := by
  induction regapped with
  | nil => rfl
  | cons eq others ih => rw [map_cons, map_cons, eq.1, ih]

theorem Regapped.apart {d e : Char} (regapped : Regapped list new) (o : e ≠ ',')
    (apart : Apart d e list) : Apart d e new := by
  induction regapped with
  | nil => trivial
  | @cons lex lexeme' list new eq others ih =>
    refine ⟨Bool.eq_false_iff.mpr fun both => ?_, ih apart.2⟩
    obtain ⟨isFirst, starts⟩ := Bool.and_eq_true_iff.mp both
    obtain ⟨rest, rfl⟩ := startsSign_eq_true starts
    cases others with
    | @cons next _ list _ second others =>
      obtain ⟨atom, -, closes⟩ := second
      have single := apart.1
      have sign : next.atom.isSign e := by
        rw [← atom]
        exact beq_self_eq_true e
      have opened : next.gap = [] := by
        refine (closes rfl).resolve_right fun comma => ?_
        rw [isSign_eq_true comma] at sign
        exact o (beq_iff_eq.mp sign).symm
      rw [eq.1] at isFirst
      simp [isFirst, startsSign, opened, sign] at single

theorem regapped_collapseGaps (list : List (Lexeme α)) : Regapped list (collapseGaps list) := by
  induction list with
  | nil => exact .nil
  | cons lex rest ih => exact .cons (regap_collapse lex) ih

/-- Lexemes with the usual blanks around commas. The flag says that a comma has just passed. -/
def spaceCommas : Bool → List (Lexeme α) → List (Lexeme α)
  | _, [] => []
  | behind, lexeme :: rest =>
    ⟨if behind then [' '] else if lexeme.atom.isSign ',' then [] else lexeme.gap, lexeme.atom⟩ ::
      spaceCommas (lexeme.atom.isSign ',') rest

theorem regapped_spaceCommas (v : Bool) (list : List (Lexeme α)) :
    Regapped list (spaceCommas v list) := by
  induction list generalizing v with
  | nil => exact .nil
  | cons lex rest ih =>
    refine .cons ?_ (ih _)
    cases v with
    | true => exact regap_of_filled lex (by simp) (by simp)
    | false =>
      cases comma : lex.atom.isSign ',' with
      | true => exact ⟨rfl, by simp, fun _ => .inr comma⟩
      | false => exact ⟨rfl, id, .inl⟩

theorem spaced_spaceCommas (v : Bool) (list : List (Lexeme α)) :
    Spaced ',' [] [] v list (spaceCommas v list) := by
  induction list generalizing v with
  | nil => exact .nil v
  | cons lex rest ih =>
    obtain ⟨gap, atom⟩ := lex
    cases comma : atom.isSign ',' with
    | true =>
      cases isSign_eq_true comma
      have set := Spaced.hit v gap (ih true)
      cases v <;> exact set
    | false =>
      have ho : ¬(atom = .sign ',' ∧ [] <+: rest) := by
        rintro ⟨rfl, -⟩
        cases comma
      have set : Spaced ',' [] [] v (⟨gap, atom⟩ :: rest) _ := .miss v ho (ih false)
      unfold spaceCommas
      simpa [comma] using set

def startsAssignment : List (Lexeme α) → Bool
  | [] => false
  | lexeme :: rest => lexeme.atom.isSign ':' && startsSign '=' rest

/-- Lexemes with the usual blanks in them. The flags say what has just passed: a comma, the first
character of an assignment sign, or its second one. -/
def settle (comma inside behind : Bool) : List (Lexeme α) → List (Lexeme α)
  | [] => []
  | lexeme :: rest =>
    let opens := startsAssignment (lexeme :: rest)
    let gap :=
      if opens then if behind then "  ".toList else [' ']
      else if behind || comma then [' ']
      else if lexeme.atom.isSign ',' || lexeme.gap.isEmpty then []
      else [' ']
    ⟨gap, lexeme.atom⟩ :: settle (lexeme.atom.isSign ',') opens inside rest

theorem regapped_settle (comma a v : Bool) (list : List (Lexeme α)) :
    Regapped list (settle comma a v list) := by
  induction list generalizing comma a v with
  | nil => exact .nil
  | cons lex rest ih =>
    refine .cons ?_ (ih ..)
    cases startsAssignment (lex :: rest) with
    | true => cases v <;> exact regap_of_filled lex (by simp) (by simp)
    | false =>
      cases v || comma with
      | true => exact regap_of_filled lex (by simp) (by simp)
      | false =>
        cases sign : lex.atom.isSign ',' with
        | true => exact ⟨rfl, by simp, fun _ => .inr sign⟩
        | false => exact regap_collapse lex

theorem startsSign_spaceCommas :
    startsSign '=' (spaceCommas false (collapseGaps rest)) = startsSign '=' rest := by
  cases rest with
  | nil => rfl
  | cons lex rest =>
    obtain ⟨gap, atom⟩ := lex
    cases atom with
    | word t | held t => simp [startsSign, spaceCommas, collapseGaps, isSign]
    | sign c =>
      by_cases comma : c = ','
      · subst comma
        simp [startsSign, spaceCommas, collapseGaps, isSign]
      · cases gap <;> simp [startsSign, spaceCommas, collapseGaps, isSign, comma]

theorem spaced_settle (comma v : Bool) (list : List (Lexeme α)) :
    Spaced ':' [⟨[], .sign '='⟩] [' '] v (spaceCommas comma (collapseGaps list))
      (settle comma false v list) := by
  -- an assignment sign takes two lexemes, so the induction is on the number of them
  induction size : list.length using Nat.strong_induction_on generalizing list comma v with
  | _ size ih =>
    cases list with
    | nil => exact .nil v
    | cons lex rest =>
      obtain ⟨gap, atom⟩ := lex
      cases opens : startsAssignment (⟨gap, atom⟩ :: rest) with
      | true =>
        obtain ⟨isFirst, starts⟩ := Bool.and_eq_true_iff.mp opens
        obtain ⟨more, rfl⟩ := startsSign_eq_true starts
        cases isSign_eq_true isFirst
        have further := ih more.length (by rw [← size, length_cons, length_cons]; omega)
          false true more rfl
        cases v <;> cases comma <;> exact .hit _ _ further
      | false =>
        have further := ih rest.length (by simp [← size]) (atom.isSign ',') false rest rfl
        have ho : ¬(atom = .sign ':' ∧
            [⟨[], .sign '='⟩] <+: spaceCommas (atom.isSign ',') (collapseGaps rest)) := by
          rintro ⟨rfl, more, shape⟩
          have shape : _ = spaceCommas false (collapseGaps rest) := shape
          have starts : startsSign '=' (spaceCommas false (collapseGaps rest)) := by
            rw [← shape]
            rfl
          rw [startsSign_spaceCommas] at starts
          simp [startsAssignment, isSign, starts] at opens
        have set : Spaced ':' _ [' '] v (⟨if comma then [' '] else
            if atom.isSign ',' then [] else if gap.isEmpty then [] else [' '], atom⟩ :: _) _ :=
          .miss v ho further
        unfold settle
        rw [opens]
        cases v <;> cases comma <;> cases sign : atom.isSign ',' <;>
          simpa [sign, spaceCommas, collapseGaps] using set

variable (shows : ∀ lex ∈ list, ∃ u c, lex.atom.render id shown = u ++ [c] ∧ isBlank c = false)

include shows in
theorem exists_write_concat (filled : list ≠ []) :
    ∃ u c, write shown list = u ++ [c] ∧ isBlank c = false := by
  rcases eq_nil_or_concat list with rfl | ⟨pre, lex, rfl⟩
  · exact absurd rfl filled
  · obtain ⟨u, c, text, vis⟩ := shows lex (by simp)
    refine ⟨write shown pre ++ (lex.gap ++ u), c, ?_, vis⟩
    rw [concat_eq_append, write_append, write_cons, text]
    simp

include shows in
theorem trimEnd_write : trimEnd (write shown list) = write shown list := by
  by_cases filled : list = []
  · subst filled
    rfl
  · obtain ⟨u, c, text, vis⟩ := exists_write_concat shows filled
    have last : isBlankText [c] = false := by simp [isBlankText, vis]
    have kept : trimEnd [c] = [c] := by simp [trimEnd, vis]
    rw [text, trimEnd_append last, kept]

include hidden hl in
theorem exists_render_concat :
    ∀ lex ∈ list, ∃ u c, lex.atom.render id shown = u ++ [c] ∧ isBlank c = false := by
  induction list generalizing behindWord with
  | nil => simp
  | cons lex rest ih =>
    obtain ⟨-, first, -, hl⟩ := hl
    refine forall_mem_cons.mpr ⟨?_, ih hl⟩
    obtain ⟨filled, vis⟩ := shown_render hidden first
    refine ⟨_, _, (dropLast_append_getLast filled).symm, vis _ (getLast_mem filled)⟩

include hidden hl in
theorem trim_of_writes (writes : Writes shown list t) : trim t = write shown (clearGap list) := by
  obtain ⟨tail, hb, rfl⟩ := writes
  cases list with
  | nil =>
    have empty : isBlankText [] := rfl
    have trimmed := trim_append (all_eq_true.mpr hb) empty []
    rwa [append_nil, append_nil] at trimmed
  | cons lex rest =>
    obtain ⟨gap_blank, first, -, others⟩ := hl
    have lawful' : AreLawful false (clearGap (lex :: rest)) := ⟨by simp, first, by simp, others⟩
    have text : write shown (lex :: rest) ++ tail =
        lex.gap ++ (write shown (clearGap (lex :: rest)) ++ tail) := by simp
    obtain ⟨c, s, shape, vis, -⟩ := Atom.exists_render hidden first
    have start : trimStart (write shown (clearGap (lex :: rest))) =
        write shown (clearGap (lex :: rest)) := by
      refine trimStart_eq_self fun d head => ?_
      rw [clearGap_cons, write_cons, shape] at head
      cases head
      exact vis
    rw [text, trim_append (all_eq_true.mpr gap_blank) (all_eq_true.mpr hb), trim,
      start, trimEnd_write (exists_render_concat hidden lawful')]

theorem lawful_clearGap (hl : AreLawful behindWord list) : AreLawful false (clearGap list) := by
  cases list with
  | nil => trivial
  | cons lex rest => exact ⟨by simp, hl.2.1, by simp, hl.2.2.2⟩

theorem collapseGaps_clearGap (list : List (Lexeme α)) :
    collapseGaps (clearGap list) = clearGap (collapseGaps list) := by
  cases list <;> rfl

theorem clearGap_settle_clearGap (comma a v : Bool) (list : List (Lexeme α)) :
    clearGap (settle comma a v (clearGap list)) = clearGap (settle comma a v list) := by
  cases list <;> rfl

theorem isSpacedSign_comma (shown : α → Text) : IsSpacedSign shown ',' [] (.char ',') where
  reads := readsSign_char (by decide)
  nonword := by decide
  plain := by decide
  starts _ _ _ := nil_prefix

include hidden in
theorem isSpacedSign_assignment :
    IsSpacedSign shown ':' [⟨[], .sign '='⟩] (.lit ":=") where
  reads := readsSign_lit (s := ":=") (by decide) (by decide)
  nonword := by decide
  plain := by decide
  starts {rest tail} hl hb found := by
    obtain ⟨v, shape⟩ := found
    have head : (write shown rest ++ tail).head? = some '=' := by
      rw [← shape]
      rfl
    rw [head?_write_eq_some hidden hl hb (by decide) (by decide) (by decide)] at head
    obtain ⟨more, rfl⟩ := startsSign_eq_true head
    exact prefix_append ..

include hidden hl in
theorem tidyStatement_eq (writes : Writes shown list t) (one : '\n' ∉ t) :
    tidyStatement t = write shown (clearGap (settle false false false list)) := by
  obtain ⟨tail, hb, rfl⟩ := writes
  have collapsed : collapseBlanks (write shown list ++ tail) =
      write shown (collapseGaps (clearGap list)) := by
    rw [collapseGaps_clearGap]
    exact collapseFrom_write hidden hl hb one true
  have cleared := lawful_clearGap hl
  have lawful₁ := (regapped_collapseGaps (clearGap list)).lawful cleared
  have lawful₂ := (regapped_spaceCommas false (collapseGaps (clearGap list))).lawful lawful₁
  have lawful₃ := (regapped_settle false false false (clearGap list)).lawful cleared
  obtain ⟨tail₁, blank₁, cs⟩ : Writes shown _ (commaPattern.rewriteFrom
      (fun _ => ", ".toList) [] (write shown (collapseGaps (clearGap list)) ++ [])) :=
    (spaced_spaceCommas false (collapseGaps (clearGap list))).rewrites hidden lawful₁ (by simp)
      (isSpacedSign_comma shown)
      (fun _ => rfl) []
  have assigned : Writes shown _ (Layout.assignmentPattern.rewriteFrom (fun _ => " := ".toList) []
      (write shown (spaceCommas false (collapseGaps (clearGap list))) ++ tail₁)) :=
    (spaced_settle false false (clearGap list)).rewrites hidden lawful₂ blank₁
      (isSpacedSign_assignment hidden)
      (fun _ => rfl) []
  show trim (Layout.assignmentPattern.replaceAll (commaPattern.replaceAll
    (collapseBlanks (write shown list ++ tail)) _) _) = _
  rw [append_nil] at cs
  rw [collapsed, replaceAll_eq_rewriteFrom, replaceAll_eq_rewriteFrom, cs,
    trim_of_writes hidden lawful₃ assigned, clearGap_settle_clearGap]

end Spacing

end PrimePlus.Program
