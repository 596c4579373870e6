import PrimePlus.Proofs.LaidLiterals
import PrimePlus.Proofs.MinifySeams
import PrimePlus.Proofs.SettledNames
import PrimePlus.Proofs.TextWords

/-!
The literals of a program that is made small. Rewriting keeps the order of placeholders, whose
characters are not plain.
-/

namespace PrimePlus

open List
open Lexical.Part (mark?)
open Text

variable {t : Text}

namespace Lexical

section Hidden

open Regex

def hidden (t : Text) : Text :=
  t.filter fun c => !isPlain c

variable {t left right : Text}

@[simp] theorem hidden_append (left right : Text) :
    hidden (left ++ right) = hidden left ++ hidden right :=
  filter_append left right

theorem hidden_of_isPlainText (hp : IsPlainText t) : hidden t = [] := by
  rw [hidden, filter_eq_nil_iff]
  intro c mem
  simp [hp c mem]

theorem hidden_cons {c : Char} (hp : isPlain c) (t : Text) : hidden (c :: t) = hidden t := by
  rw [← singleton_append, hidden_append, hidden_of_isPlainText (by simpa [IsPlainText] using hp),
    nil_append]

theorem hidden_placeholder (index : Nat) : hidden (placeholder index) = placeholder index := by
  rw [hidden, filter_eq_self]
  intro c mem
  simp [not_isPlain_of_mem_placeholder mem]

theorem hidden_join {sep : Text} (hp : IsPlainText sep) (xs : List Text) :
    hidden (Text.join sep xs) = xs.flatMap hidden := by
  induction xs with
  | nil => rfl
  | cons a tl ih =>
    cases tl with
    | nil => simp [Text.join]
    | cons second tl =>
      have shape : Text.join sep (a :: second :: tl) = a ++
          (sep ++ Text.join sep (second :: tl)) := by
        simp [Text.join]
      rw [shape, hidden_append, hidden_append, hidden_of_isPlainText hp, ih]
      rfl

theorem seamed_isPlainText : Seamed IsPlainText where
  plain _ := id
  append _ _ := isPlainText_append
  cut _ _ whole _ := ⟨whole.subset (subset_append_left _ _), whole.subset (subset_append_right _ _)⟩

theorem Seamed.Scans.hidden_eq {σ : Type} {f : σ → Text → Text} {inv : σ → Text → Prop}
    {free : σ → Bool} (scans : Scans IsPlainText f inv free) {s : σ} (start : inv s t) :
    hidden (f s t) = hidden t := by
  induction t generalizing s with
  | nil => exact hidden_of_isPlainText (scans.finish s start)
  | cons c tl ih =>
    obtain ⟨next, out, equation, invariant, -, kinds⟩ := scans.step s c tl start
    have eq : hidden out = hidden [c] := by
      rcases kinds with rfl | ⟨hs, image⟩ | ⟨-, gap, hb, rfl⟩
      · rfl
      · rw [hidden_of_isPlainText image, hidden_of_isPlainText (by simpa [IsPlainText] using hs)]
      · rw [hidden_append, hidden_of_isPlainText hb, nil_append]
    rw [equation, hidden_append, eq, ih invariant, ← hidden_append]
    rfl

theorem hidden_mapWords {image : Text → Text}
    (images : ∀ w, IsPlainText w → IsPlainText (image w)) (t : Text) :
    hidden (Text.mapWords image t) = hidden t :=
  (seamed_isPlainText.scans_mapWords fun w hp _ => images w hp).hidden_eq (by simp [IsPlainText])

theorem hidden_replaceAll (r : Regex) {image : Match → Text}
    (images : ∀ cur hit, cur.IsIn t → r.matchAt cur = some hit →
      hidden (image hit) = hidden hit.text) : hidden (r.replaceAll t image) = hidden t := by
  rw [replaceAll_eq_assemble]
  refine pieces_induction (fun cur pieces =>
    hidden (assemble image pieces) = hidden cur.after) ?_ ?_ ?_
  · intro cur ends
    rw [ends]
    rfl
  · intro cur c tl pieces _ ha ih
    show hidden ([c] ++ assemble image pieces) = _
    rw [ha, hidden_append, ih, ← hidden_append]
    rfl
  · intro hit pieces here isIn ih
    obtain ⟨ha, -⟩ := isIn.start.after_eq isIn.stop isIn.ordered
    show hidden (image hit ++ assemble image pieces) = _
    rw [hidden_append, images hit.start hit isIn.start here, ih, ← hidden_append, Match.text, ← ha]

section Plain

variable {r : Regex} {image : Match → Text}

theorem isPlainText_group (reads : r.ReadsPlain) {cur : Cursor} {hit : Match}
    (hi : cur.IsIn t) (here : r.matchAt cur = some hit) (i : Nat) : IsPlainText (hit.group i) := by
  obtain ⟨start, hm⟩ := matches_of_matchAt here
  unfold Match.group Match.group?
  split
  · rw [Match.text, start]
    exact hm.isPlainText_spanTo reads hi
  · cases chosen : hit.groups.find? fun capture => capture.index == i with
    | none => exact fun _ mem => absurd mem not_mem_nil
    | some capture =>
      exact hm.isPlainText_captures reads hi (by simp) capture (mem_of_find?_eq_some chosen)

theorem hidden_replaceAll_of_readsPlain (reads : r.ReadsPlain)
    (images : ∀ hit : Match, (∀ n, IsPlainText (hit.group n)) → IsPlainText (image hit))
    (t : Text) : hidden (r.replaceAll t image) = hidden t := by
  refine hidden_replaceAll r fun cur hit hi here => ?_
  have gs := isPlainText_group reads hi here
  rw [hidden_of_isPlainText (images hit gs)]
  exact (hidden_of_isPlainText (gs 0)).symm

theorem hidden_replaceAllWith (reads : r.ReadsPlain) {image : String}
    (hp : IsPlainText image.toList) (t : Text) : hidden (r.replaceAllWith t image) = hidden t :=
  hidden_replaceAll_of_readsPlain reads (fun _ _ => hp) t

theorem hidden_replaceFirst (reads : r.ReadsPlain)
    (images : ∀ hit : Match, (∀ n, IsPlainText (hit.group n)) → IsPlainText (image hit))
    (t : Text) : hidden (r.replaceFirst t image) = hidden t := by
  unfold replaceFirst
  split
  · next hit first =>
    obtain ⟨cur, hi, -, here⟩ := matchAt_of_findFrom (Cursor.isIn_start t) first
    have gs := isPlainText_group reads hi here
    obtain ⟨isIn, -⟩ := isIn_of_matchAt hi here
    have whole : hit.lead ++ (hit.group 0 ++ hit.tail) = t := by
      rw [← isIn.start.1, (isIn.start.after_eq isIn.stop isIn.ordered).1]
      rfl
    rw [hidden_append, hidden_append, hidden_of_isPlainText (images hit gs), ← whole,
      hidden_append, hidden_append, hidden_of_isPlainText (gs 0)]
    simp
  · rfl

end Plain

end Hidden

section Order

open Regex

variable {st : Store} {t t' : Text}

theorem Sealed.exists_literals_restore (sound : Store.IsSound st) (sealed : Sealed st.length t) :
    ∃ xs : List Nat, hidden t = xs.flatMap placeholder ∧
      literals (restore st t) = xs.filterMap (st[·]?) := by
  induction sealed with
  | nil => exact ⟨[], rfl, rfl⟩
  | @char c t plain _ ih =>
    obtain ⟨xs, order, held⟩ := ih
    have ha := ne_quote_of_isPlain plain
    refine ⟨xs, ?_, ?_⟩
    · rw [← singleton_append, hidden_append, hidden_of_isPlainText
        (by simpa [IsPlainText] using plain), order, nil_append]
    · rw [restore_cons_of_ne _ ha, literals_cons_of_ne ha, held]
  | @held index t hi _ ih =>
    obtain ⟨xs, order, held⟩ := ih
    refine ⟨index :: xs, ?_, ?_⟩
    · rw [hidden_append, hidden_placeholder, order]
      rfl
    · have hit := getElem?_eq_getElem hi
      rw [restore_placeholder_append, hit, Option.getD_some,
        literals_literal_append (sound _ (getElem_mem hi)).1, held,
        filterMap_cons_some hit]

theorem flatMap_placeholder_inj {xs list' : List Nat}
    (eq : xs.flatMap placeholder = list'.flatMap placeholder) : xs = list' := by
  induction xs generalizing list' with
  | nil =>
    cases list' with
    | nil => rfl
    | cons index' list' => simp [placeholder_eq] at eq
  | cons index xs ih =>
    cases list' with
    | nil => simp [placeholder_eq] at eq
    | cons index' list' =>
      rw [flatMap_cons, flatMap_cons] at eq
      have first := placeholder?_append index (xs.flatMap placeholder)
      rw [eq, placeholder?_append] at first
      obtain rfl : index' = index := (Prod.mk.inj (Option.some.inj first)).1
      rw [ih (append_cancel_left eq)]

theorem Sealed.flatMap_literals_restore (sound : Store.IsSound st) {texts : List Text}
    (all : ∀ t ∈ texts, Sealed st.length t) (sealed : Sealed st.length t)
    (eq : texts.flatMap hidden = hidden t) :
    texts.flatMap (fun t => literals (restore st t)) = literals (restore st t) := by
  have each (texts : List Text) (all : ∀ t ∈ texts, Sealed st.length t) :
      ∃ xs : List Nat, texts.flatMap hidden = xs.flatMap placeholder ∧
        texts.flatMap (fun t => literals (restore st t)) = xs.filterMap (st[·]?) := by
    induction texts with
    | nil => exact ⟨[], rfl, rfl⟩
    | cons t texts ih =>
      obtain ⟨first, others⟩ := forall_mem_cons.mp all
      obtain ⟨xs, order, held⟩ := first.exists_literals_restore sound
      obtain ⟨list', order', held'⟩ := ih others
      exact ⟨xs ++ list', by simp [order, order'], by simp [held, held']⟩
  obtain ⟨xs, order, held⟩ := each texts all
  obtain ⟨list', order', held'⟩ := sealed.exists_literals_restore sound
  rw [order, order'] at eq
  rw [held, held', flatMap_placeholder_inj eq]

theorem Sealed.literals_restore_eq (sound : Store.IsSound st) (sealed : Sealed st.length t)
    (sealed' : Sealed st.length t') (eq : hidden t = hidden t') :
    literals (restore st t) = literals (restore st t') := by
  simpa using @flatMap_literals_restore _ _ sound [t] (by simpa using sealed) sealed'
    (by simpa using eq)

end Order

section Closed

variable {left right t : Text}

theorem Built.append (first : Built left) (second : Built right) : Built (left ++ right) := by
  induction first with
  | nil => exact second
  | code o _ ih => exact .code o ih
  | literal literal _ ih =>
    rw [append_assoc]
    exact .literal literal ih

theorem Built.literals_append (first : Built left) (right : Text) :
    literals (left ++ right) = literals left ++ literals right := by
  induction first with
  | nil => rfl
  | code o _ ih => rw [cons_append, literals_cons_of_ne o, literals_cons_of_ne o, ih]
  | literal literal _ ih =>
    rw [append_assoc, literals_literal_append literal, literals_literal_append literal, ih]
    rfl

theorem Built.quoteFree_append {w : Text} (free : '"' ∉ w) (built : Built t) :
    Built (w ++ t) ∧ literals (w ++ t) = literals t := by
  induction w with
  | nil => exact ⟨built, rfl⟩
  | cons c w ih =>
    have other : c ≠ '"' := fun eq => free (eq ▸ mem_cons_self)
    obtain ⟨r, eq⟩ := ih (mt (mem_cons_of_mem c) free)
    exact ⟨.code other r, by rw [cons_append, literals_cons_of_ne other, eq]⟩

theorem built_join {ls : List Text} (hc : ∀ l ∈ ls, IsClosed l) :
    Built (join ['\n'] ls) ∧ literals (join ['\n'] ls) = ls.flatMap literals := by
  induction ls with
  | nil => exact ⟨.nil, rfl⟩
  | cons l r ih =>
    obtain ⟨first, others⟩ := forall_mem_cons.mp hc
    obtain ⟨built, eq⟩ := ih others
    cases r with
    | nil => simpa [join] using first.built
    | cons next r =>
      have shape : join ['\n'] (l :: next :: r) = l ++ '\n' :: join ['\n'] (next :: r) := by
        simp [join]
      rw [shape, first.built.literals_append, literals_cons_of_ne (by decide), eq]
      exact ⟨first.built.append (.code (by decide) built), rfl⟩

theorem Built.flatMap_literals_splitOn (built : Built t) (one : ∀ a ∈ literals t, '\n' ∉ a) :
    (Text.splitOn '\n' t).flatMap literals = literals t := by
  induction built with
  | nil => rfl
  | @code c t o _ ih =>
    rw [literals_cons_of_ne o] at one ⊢
    rw [← ih one]
    by_cases feed : c = '\n'
    · rw [feed]
      rfl
    · obtain ⟨l, r, split⟩ := exists_cons_of_ne_nil (Text.splitOn_ne_nil '\n' t)
      rw [splitOn_cons_of_ne feed split, split, flatMap_cons, flatMap_cons, literals_cons_of_ne o]
  | @literal a t literal _ ih =>
    rw [literals_literal_append literal] at one ⊢
    obtain ⟨first, others⟩ := forall_mem_cons.mp one
    obtain ⟨l, r, split⟩ := exists_cons_of_ne_nil (Text.splitOn_ne_nil '\n' t)
    rw [← ih others, splitOn_append_of_notMem first, split, modifyHead_cons,
      flatMap_cons, literals_literal_append literal]
    rfl

theorem Sealed.built_restore {st : Store} (sound : Store.IsSound st)
    (sealed : Sealed st.length t) : Built (restore st t) := by
  induction sealed with
  | nil => exact .nil
  | char hp _ ih =>
    have ha := ne_quote_of_isPlain hp
    rw [restore_cons_of_ne _ ha]
    exact .code ha ih
  | @held i t hi _ ih =>
    rw [restore_placeholder_append, getElem?_eq_getElem hi]
    exact .literal (sound _ (getElem_mem hi)).1 ih

end Closed

section Words

open Unicode (isNameChar)

variable {c : Char}

theorem ne_of_isNameChar (hn : isNameChar c) : c ≠ '"' ∧ c ≠ '\\' ∧ c ≠ '\n' := by
  refine ⟨?_, ?_, ?_⟩ <;> rintro rfl <;> exact absurd hn (by decide)

variable {image : Text → Text}

theorem literalLength?_word {w : Text} (word : IsWord w) (escaped : Bool) (r : Text) :
    literalLength? escaped (w ++ r) = (literalLength? false r).map (· + w.length) := by
  obtain ⟨ne, hn⟩ := word
  have first {c : Char} (hn : isNameChar c) (escaped : Bool) (t : Text) :
      literalLength? escaped (c :: t) = (literalLength? false t).map (· + 1) := by
    obtain ⟨quote, escape, -⟩ := ne_of_isNameChar hn
    cases escaped with
    | true => rfl
    | false => rw [literalLength?, if_neg quote, beq_eq_false_iff_ne.mpr escape]
  induction w generalizing escaped with
  | nil => exact absurd rfl ne
  | cons c w ih =>
    obtain ⟨here, others⟩ := forall_mem_cons.mp hn
    rw [cons_append, first here]
    cases w with
    | nil => rfl
    | cons d w =>
      rw [ih false (cons_ne_nil d w) others, Option.map_map]
      rfl

theorem mapWordsFrom_append (last : t.getLast? = some c) (ha : isNameChar c = false)
    (w rest : Text) :
    mapWordsFrom image w (t ++ rest) = mapWordsFrom image w t ++ mapWords image rest := by
  obtain ⟨front, rfl⟩ := getLast?_eq_some_iff.mp last
  clear last
  induction front generalizing w with
  | nil => simp [mapWordsFrom, ha, mapWords]
  | cons d front ih =>
    rw [cons_append, cons_append, mapWordsFrom, mapWordsFrom]
    split
    · exact ih _
    · rw [ih]
      simp

variable (words : ∀ w, IsWord w → IsWord (image w))

include words

theorem literalLength?_mapWords {escaped : Bool}
    (hc : literalLength? escaped t = some t.length) :
    literalLength? escaped (mapWords image t) = some (mapWords image t).length := by
  induction t using runs_induction isNameChar generalizing escaped with
  | nil => cases hc
  | run w r ne hn stops ih =>
    have word : IsWord w := ⟨ne, hn⟩
    rw [literalLength?_word word, length_append] at hc
    obtain ⟨n, hit, eq⟩ := Option.map_eq_some_iff.mp hc
    obtain rfl : n = r.length := by omega
    rw [mapWords_append word stops, literalLength?_word (words w word), ih hit, length_append,
      Nat.add_comm]
    rfl
  | other c r kind ih =>
    rw [mapWords_cons kind]
    rcases closes_cons_iff.mp hc with ⟨rfl, rfl, rfl⟩ | ⟨other, hc⟩
    · rfl
    · exact closes_cons_iff.mpr (.inr ⟨other, ih hc⟩)

theorem IsLiteral.mapWords {a : Text} (literal : IsLiteral a) : IsLiteral (mapWords image a) := by
  obtain ⟨b, rfl, hc⟩ := literal
  have quote : isNameChar '"' = false := by decide
  exact ⟨Text.mapWords image b, mapWords_cons quote b, literalLength?_mapWords words hc⟩

theorem mem_mapWords (mem : c ∈ mapWords image t) : c ∈ t ∨ isNameChar c := by
  induction t using runs_induction isNameChar with
  | nil => cases mem
  | run w r ne hn stops ih =>
    have word : IsWord w := ⟨ne, hn⟩
    rw [mapWords_append word stops] at mem
    exact (mem_append.mp mem).elim (fun here => .inr ((words w word).2 c here))
      fun later => (ih later).imp (mem_append_right w) id
  | other d r kind ih =>
    rw [mapWords_cons kind] at mem
    rcases mem_cons.mp mem with rfl | later
    · exact .inl mem_cons_self
    · exact (ih later).imp (mem_cons_of_mem d) id

theorem Built.mapWords (built : Built t) :
    Built (mapWords image t) ∧ literals (mapWords image t) = (literals t).map (mapWords image) := by
  have flush {word : Text} (hn : ∀ c ∈ word, isNameChar c) {t : Text} (built : Built t) :
      Built ((if word.isEmpty then [] else image word.reverse) ++ t) ∧
        literals ((if word.isEmpty then [] else image word.reverse) ++ t) = literals t := by
    refine built.quoteFree_append fun mem => ?_
    split at mem
    · cases mem
    · next ne =>
      have flushed := words word.reverse
        ⟨by simpa using ne, fun c inside => hn c (mem_reverse.mp inside)⟩
      exact (ne_of_isNameChar (flushed.2 _ mem)).1 rfl
  have each {word : Text} (hn : ∀ c ∈ word, isNameChar c) :
      Built (mapWordsFrom image word t) ∧
        literals (mapWordsFrom image word t) = (literals t).map (Text.mapWords image) := by
    induction built generalizing word with
    | nil =>
      have last := flush hn .nil
      rwa [append_nil] at last
    | @code c t o _ ih =>
      rw [mapWordsFrom, literals_cons_of_ne o]
      split
      · next inWord => exact ih (forall_mem_cons.mpr ⟨inWord, hn⟩)
      · obtain ⟨rest, same⟩ := @ih [] (by simp)
        obtain ⟨front, hs⟩ := flush hn (.code o rest)
        exact ⟨front, by rw [hs, literals_cons_of_ne o, same]⟩
    | @literal a t first _ ih =>
      obtain ⟨rest, same⟩ := @ih [] (by simp)
      have image' := first.mapWords words
      obtain ⟨front, hs⟩ := flush hn (.literal image' rest)
      have quote : isNameChar '"' = false := by decide
      have ends : a.getLast? = some '"' := by
        obtain ⟨_, rfl, closed⟩ := first
        obtain ⟨inner, rfl⟩ := exists_of_literalLength? closed
        simp [getLast?_cons]
      have shape : mapWordsFrom image word a =
          (if word.isEmpty then [] else image word.reverse) ++ Text.mapWords image a := by
        obtain ⟨b, rfl, -⟩ := first
        simp [mapWordsFrom, Text.mapWords, quote]
      rw [mapWordsFrom_append ends quote, shape, append_assoc]
      refine ⟨front, hs.trans ?_⟩
      rw [literals_literal_append image', literals_literal_append first, map_cons, same]
  exact each (by simp)

end Words

theorem IsClear.unmarked (clear : IsClear t) : Unmarked t := by
  intro c mem
  rw [← flatMap_text_parts t] at mem
  obtain ⟨part, known, hi⟩ := mem_flatMap.mp mem
  have hs := clear part known
  cases part with
  | code d =>
    cases mem_singleton.mp hi
    simpa [Part.isClear] using (Bool.and_eq_true_iff.mp hs).2
  | literal a =>
    simpa using all_eq_true.mp (Bool.and_eq_true_iff.mp hs).2 c hi
  | unclosed u =>
    simpa using (Bool.and_eq_true_iff.mp (all_eq_true.mp hs c hi)).2

theorem restore_protect_self (hu : Unmarked t) : restore (protect [] t).2 (protect [] t).1 = t := by
  obtain ⟨back, -⟩ := (cut_parts t).protectParts_spec []
    (unmarked_of_mem_parts (unmarked_not_mem hu))
  exact (back _ (prefix_refl _)).trans (flatMap_text_parts t)

end Lexical

namespace Program

open Regex
open Lexical

section Code

variable {t code : Text}

theorem hidden_shortenFrom {passed : Nat} {blocks : List (Nat × Nat)}
    (blocksAt : BlocksAt t passed blocks) :
    hidden (shortenFrom passed (t.drop passed) blocks) = hidden (t.drop passed) := by
  induction blocksAt with
  | nil => rfl
  | @cons passed start stop r ordered hi _ _ _ ih =>
    have block (u : Text) : hidden (shortenBlock u) = hidden u :=
      hidden_mapWords (fun _ => of_renamed (isPlainText_variableRenamings u)) u
    have toStop : passed + (stop - passed) = stop := by omega
    have least : min (start - passed) (stop - passed) = start - passed := by omega
    have front : (t.drop passed).take (start - passed) =
        ((t.drop passed).take (stop - passed)).take (start - passed) := by
      rw [take_take, least]
    have v := drop_drop (i := stop - passed) (j := passed) (l := t)
    rw [toStop] at v
    rw [shortenFrom, hidden_append, hidden_append, block, ← hidden_append, front,
      take_append_drop, v, ih, ← hidden_append, ← v, take_append_drop]

theorem hidden_trimNumerals (t : Text) : hidden (trimNumerals t) = hidden t := by
  refine hidden_replaceAll _ fun cur hit hi here => ?_
  obtain ⟨shape, hp, -⟩ := numeral_parts here hi
  obtain ⟨isIn, start⟩ := isIn_of_matchAt hi here
  obtain ⟨ha, -⟩ := isIn.start.after_eq isIn.stop isIn.ordered
  rw [start, shape] at ha
  have eq : hit.text = hit.group 1 ++ hit.group 2 := by
    rw [Match.text, start]
    exact (append_cancel_right ha).symm
  rw [eq, hidden_append, hidden_append, hidden_of_isPlainText hp,
    hidden_of_isPlainText (isPlainText_trimNumeral hp)]

theorem hidden_smallText (t : Text) : hidden (smallText t) = hidden t := by
  have semicolons : semicolonPattern.ReadsPlain := by simp +decide [semicolonPattern, vocabulary]
  have newlines : newlinesPattern.ReadsPlain := by simp +decide [newlinesPattern, vocabulary]
  have assigned : ∀ e ∈ [("FROM".toList, ":=".toList)], IsPlainText e.2 := by decide
  have shortened : hidden (shortenVariables t) = hidden t :=
    hidden_shortenFrom (blocksAt_outerBlocks t)
  have squeezed (t : Text) : hidden (squeeze t) = hidden t :=
    (scans_squeeze seamed_isPlainText).hidden_eq (s := (none, false)) trivial
  have spaced (t : Text) : hidden (setMinus t) = hidden t := by
    have onward {t t' : Text} (eq : hidden t' = hidden t) (c : Char) :
        hidden (c :: t') = hidden (c :: t) := by
      rw [← singleton_append, hidden_append, eq, ← hidden_append, singleton_append]
    refine setMinus_induction (R := fun t t' => hidden t' = hidden t) rfl
      (fun c _ _ eq => onward eq c) ?_ ?_ t
    · exact fun c t t' _ eq => onward ((hidden_cons (by decide) _).trans (onward eq '-')) c
    · intro gap t t' spaces eq
      have hp : IsPlainText gap := fun d mem => by
        rw [spaces d mem]
        decide
      exact onward (by rw [hidden_append, hidden_of_isPlainText hp, eq, nil_append]) '-'
  rw [smallText, hidden_replaceAllWith newlines (by decide),
    hidden_replaceAllWith semicolons (by decide), hidden_trimNumerals, spaced, squeezed,
    hidden_mapWords fun _ => of_renamed assigned, shortened]

theorem built_minifyCode (hu : ∀ line ∈ lines code, Unmarked (splitComment line).1)
    (hc : ∀ line ∈ lines code, IsClosed (splitComment line).1) :
    Built (minifyCode code) ∧ literals (minifyCode code) = (lines code).flatMap lineLiterals := by
  have bare : Built (bareCode code) ∧
      literals (bareCode code) = (lines code).flatMap lineLiterals := by
    obtain ⟨built, eq⟩ := @built_join ((lines code).map fun line =>
      (splitComment line).1) (by simpa using hc)
    exact ⟨built, eq.trans (flatMap_map _ _ _)⟩
  have hs : Unmarked (bareCode code) := seamed_unmarked.join (by decide) (by simpa using hu)
  have sealed := sealed_protect hs bare.1.isClosed
  have sound := Store.isSound_protect (unmarked_not_mem hs)
  have small := holds_smallText (seamed_sealed _) sealed
  rw [minifyCode_eq]
  refine ⟨small.built_restore sound, ?_⟩
  rw [small.literals_restore_eq sound sealed (hidden_smallText _), restore_protect_self hs, bare.2]

end Code

section Lines

def stripFeeds (t : Text) : Text :=
  ((t.dropWhile (· == '\n')).reverse.dropWhile (· == '\n')).reverse

def segmentLines : Segment → List Text
  | .verbatim line => [line]
  | .code t => if (stripFeeds t).isEmpty then [] else Text.splitOn '\n' (stripFeeds t)

theorem segmentText_eq (segment : Segment) :
    segmentText segment = ofLines (segmentLines segment) := by
  cases segment with
  | verbatim l => simp [segmentText, segmentLines]
  | code t =>
    show (if (stripFeeds t).isEmpty then [] else stripFeeds t ++ ['\n']) = _
    rw [segmentLines]
    split
    · rfl
    · rw [← join_append_newline (Text.splitOn_ne_nil _ _), join_splitOn]

theorem newline_notMem_of_mem_segmentLines {segment : Segment}
    (verbatim : ∀ line, segment = .verbatim line → '\n' ∉ line) :
    ∀ line ∈ segmentLines segment, '\n' ∉ line := by
  intro line mem
  cases segment with
  | verbatim original =>
    rw [mem_singleton.mp mem]
    exact verbatim original rfl
  | code t =>
    rw [segmentLines] at mem
    split at mem
    · cases mem
    · exact sep_notMem_of_mem_splitOn _ mem

theorem built_of_quoteFree {front r : Text} (free : '"' ∉ front) (free' : '"' ∉ r)
    (built : Built (front ++ t ++ r)) : Built t ∧ literals t = literals (front ++ t ++ r) := by
  have marks : (parts (front ++ t ++ r)).filterMap mark? = (parts t).filterMap mark? := by
    have behind := (cut_parts t).marks_append free'
    rw [flatMap_text_parts] at behind
    rw [append_assoc, parts_append_of_quoteFree free, filterMap_append, behind]
    simp [mark?]
  have hc := isClosed_iff.mp built.isClosed
  rw [marks] at hc
  exact ⟨(isClosed_iff.mpr hc).built, by rw [literals_eq, literals_eq, marks]⟩

theorem built_stripFeeds (built : Built t) :
    Built (stripFeeds t) ∧ literals (stripFeeds t) = literals t := by
  have feeds (u : Text) : '"' ∉ u.takeWhile (· == '\n') := fun mem => by
    cases mem_takeWhile_imp mem
  have shape : t = t.takeWhile (· == '\n') ++ stripFeeds t ++
      ((t.dropWhile (· == '\n')).reverse.takeWhile (· == '\n')).reverse := by
    rw [stripFeeds, append_assoc, ← reverse_append, takeWhile_append_dropWhile,
      reverse_reverse, takeWhile_append_dropWhile]
  have bare := built_of_quoteFree (feeds t) (fun mem => feeds _ (mem_reverse.mp mem))
    (shape ▸ built)
  exact ⟨bare.1, bare.2.trans (congrArg literals shape.symm)⟩

theorem literalsFrom_segmentLines {embedded : Bool} {xs : List Segment} (read : IsRead embedded xs)
    (bare : ∀ code ∈ codeOf xs, ∀ l ∈ segmentLines (.code code), opensVerbatim l = false) :
    literalsFrom embedded (xs.flatMap segmentLines) =
      (codeOf xs).flatMap fun code => (segmentLines (.code code)).flatMap lineLiterals := by
  induction read with
  | nil => rfl
  | @verbatim embedded l rest kept _ ih =>
    rw [flatMap_cons, segmentLines, singleton_append, literalsFrom_cons, if_pos kept]
    exact ih bare
  | @code t rest _ _ ih =>
    obtain ⟨first, others⟩ := forall_mem_cons.mp bare
    rw [flatMap_cons, literalsFrom, codeLinesFrom_append first, flatMap_append]
    exact congrArg _ (ih others)

theorem flatMap_lineLiterals_segmentLines {code : Text} (built : Built code)
    (one : ∀ a ∈ literals code, '\n' ∉ a)
    (hs : ∀ l ∈ segmentLines (.code code), comment? l = none) :
    (segmentLines (.code code)).flatMap lineLiterals = literals code := by
  obtain ⟨bare, eq⟩ := built_stripFeeds built
  have direct : (segmentLines (.code code)).flatMap lineLiterals =
      (segmentLines (.code code)).flatMap literals := by
    exact congrArg _ (map_congr_left fun l mem => lineLiterals_of_none (hs l mem))
  rw [direct, segmentLines, ← eq]
  split
  · next empty => rw [isEmpty_iff.mp empty]; rfl
  · exact bare.flatMap_literals_splitOn (eq ▸ one)

end Lines

section Small

variable {t : Text}

def Segment.mapCode (change : Text → Text) : Segment → Segment
  | .verbatim line => .verbatim line
  | .code t => .code (change t)

theorem codeOf_map_mapCode (change : Text → Text) (xs : List Segment) :
    codeOf (xs.map (Segment.mapCode change)) = (codeOf xs).map change := by
  induction xs with
  | nil => rfl
  | cons segment r ih =>
    cases segment with
    | verbatim l => exact ih
    | code t => exact congrArg (change t :: ·) ih

theorem Segment.mapCode_mapCode (first second : Text → Text) (segment : Segment) :
    (segment.mapCode first).mapCode second = segment.mapCode fun t => second (first t) := by
  cases segment <;> rfl

/-- The new names of the local functions of a program that is made small. -/
def shortFunctions (t : Text) : List (Text × Text) :=
  functionRenamings ((codeOf (segments t)).map minifyCode)

/-- A text with the new names of the local functions of a program, in literals too. -/
def renameFunctions (t : Text) : Text → Text :=
  mapWords (renamed (shortFunctions t))

def smallCode (t code : Text) : Text :=
  renameFunctions t (minifyCode code)

def smallLines (t : Text) : List Text :=
  (codeOf (segments t)).flatMap fun code => segmentLines (.code (smallCode t code))

theorem minify_eq_ofLines (t : Text) : minify t = ofLines (((segments t).map
    (Segment.mapCode (smallCode t))).flatMap segmentLines) := by
  have small : minify t = (shortenFunctions ((segments t).map (.mapCode minifyCode))).flatMap
      segmentText := by
    rw [minify]
    congr 3
    funext segment
    cases segment <;> rfl
  have renamed (xs : List Segment) : shortenFunctions xs = xs.map
      (.mapCode (mapWords (renamed (functionRenamings (codeOf xs))))) := by
    rw [shortenFunctions]
    congr 1
    funext segment
    cases segment <;> rfl
  have twice (xs : List Segment) :
      (xs.map (Segment.mapCode minifyCode)).map (Segment.mapCode (renameFunctions t)) =
        xs.map (Segment.mapCode (smallCode t)) := by
    rw [map_map]
    exact map_congr_left fun segment _ => segment.mapCode_mapCode _ _
  have written (xs : List Segment) :
      xs.flatMap segmentText = ofLines (xs.flatMap segmentLines) := by
    rw [ofLines, flatMap_assoc]
    congr 1
    funext segment
    exact segmentText_eq segment
  rw [small, renamed, codeOf_map_mapCode, ← twice, written]
  rfl

theorem isWord_renamed (t : Text) : ∀ w, IsWord w → IsWord (renamed (shortFunctions t) w) := by
  have hn : ∀ e ∈ shortFunctions t, ∀ c ∈ e.2, Unicode.isNameChar c :=
    forall_mem_functionRenamings (p := fun c => Unicode.isNameChar c) (by decide) (by decide) _
  have ne : ∀ e ∈ shortFunctions t, e.2 ≠ [] :=
    forall_mem_renamingsFrom (p := fun t => t ≠ []) (fun n => by simp) (by simp)
  intro w word
  exact of_renamed (p := IsWord) (fun e mem => ⟨ne e mem, hn e mem⟩) word

/-- The literals of a program that is made small are its own, but for the names of local
functions. -/
theorem codeLiterals_minify (hu : ∀ line ∈ codeLines t, Unmarked (splitComment line).1)
    (hc : ∀ line ∈ codeLines t, IsClosed (splitComment line).1)
    (read : ∀ line ∈ smallLines t, opensVerbatim line = false ∧ comment? line = none) :
    codeLiterals (minify t) = (codeLiterals t).map (renameFunctions t) := by
  have hi {code line : Text} (known : code ∈ codeOf (segments t)) (mem : line ∈ lines code) :
      line ∈ codeLines t := mem_flatMap.mpr ⟨code, known, mem⟩
  have each : ∀ code ∈ codeOf (segments t),
      (segmentLines (.code (smallCode t code))).flatMap lineLiterals =
        ((lines code).flatMap lineLiterals).map (renameFunctions t) := by
    intro code known
    obtain ⟨small, eq⟩ := built_minifyCode (fun line mem => hu line (hi known mem))
      fun line mem => hc line (hi known mem)
    obtain ⟨built, renamed⟩ := small.mapWords (isWord_renamed t)
    have renamed : literals (smallCode t code) =
        ((lines code).flatMap lineLiterals).map (renameFunctions t) := eq ▸ renamed
    rw [← renamed]
    refine flatMap_lineLiterals_segmentLines built (fun a mem feed => ?_) fun line mem => ?_
    · rw [renamed] at mem
      obtain ⟨original, among, rfl⟩ := mem_map.mp mem
      obtain ⟨line, member, held⟩ := mem_flatMap.mp among
      rcases mem_mapWords (isWord_renamed t) feed with kept | hn
      · exact newline_notMem_of_mem_lines member (splitComment_subset line
          (subset_of_mem_literals held kept))
      · exact absurd hn (by decide)
    · exact (read line (mem_flatMap.mpr ⟨code, known, mem⟩)).2
  have isRead : IsRead false ((segments t).map (Segment.mapCode (smallCode t))) :=
    (isRead_segmentsFrom false (lines t)).map (fun _ => rfl) fun _ => rfl
  have one : ∀ line ∈ ((segments t).map (Segment.mapCode (smallCode t))).flatMap
      segmentLines, '\n' ∉ line := by
    intro line mem
    obtain ⟨_, among, member⟩ := mem_flatMap.mp mem
    obtain ⟨segment, known, rfl⟩ := mem_map.mp among
    refine newline_notMem_of_mem_segmentLines (fun line eq => ?_) line member
    cases segment with
    | code t => cases eq
    | verbatim first =>
      cases eq
      exact newline_notMem_of_mem_lines (mem_of_verbatim_mem_segmentsFrom known)
  rw [codeLiterals_eq, minify_eq_ofLines, literalsFrom_ofLines one,
    literalsFrom_segmentLines isRead, codeOf_map_mapCode, codeLiterals, codeLines]
  · rw [flatMap_map, flatMap_assoc, map_flatMap, flatMap_def]
    exact congrArg _ (map_congr_left each)
  · rw [codeOf_map_mapCode]
    intro code known line mem
    obtain ⟨original, among, rfl⟩ := mem_map.mp known
    exact (read line (mem_flatMap.mpr ⟨original, among, mem⟩)).1

/-- Laying a program out anew and making it small keep the sequence of its literals, where a reader
tells code, comments and literals apart in what is written. Only the names of local functions that
are replaced in a small program are replaced in its literals too. -/
theorem codeLiterals_reformat_minify
    (legible : ∀ line ∈ codeLines t, IsClear (splitComment line).1 ∧
      IsClosed (splitComment line).1) :
    ((∀ line ∈ codeLines t, ∀ s ∈ statementsOf line, opensVerbatim s = false) →
      ∀ width, codeLiterals (reformat width t) = codeLiterals t) ∧
    ((∀ line ∈ smallLines t, opensVerbatim line = false ∧ comment? line = none) →
      codeLiterals (minify t) = (codeLiterals t).map (renameFunctions t)) := by
  refine ⟨fun bare width => ?_, fun read => ?_⟩
  · exact codeLiterals_reformat (fun line listed =>
      ⟨(legible line listed).1, (legible line listed).2, bare line listed⟩) width
  · exact codeLiterals_minify (fun line listed => (legible line listed).1.unmarked)
      (fun line listed => (legible line listed).2) read

/-- Both ways of writing a program keep a literal with a comment mark, a separator and an escaped
quote in it, and the small program keeps the new name of a function in a literal. -/
theorem codeLiterals_reformat_minify_helper :
    let t := ofLines (["LOCAL helper(x);", "BEGIN",
      "IF x THEN PRINT(\"a; // \\\"b\\\"  c\"); // d \"e\"", "END;", "helper(\"my helper\");",
      "END;"].map String.toList)
    codeLiterals t = ["\"a; // \\\"b\\\"  c\"".toList, "\"my helper\"".toList] ∧
      codeLiterals (reformat 3 t) = codeLiterals t ∧
      codeLiterals (minify t) = ["\"a; // \\\"b\\\"  c\"".toList, "\"my fn0\"".toList] := by
  intro t
  obtain ⟨laid, small⟩ := @codeLiterals_reformat_minify t (by decide +kernel)
  refine ⟨by decide +kernel, laid (by decide +kernel) 3, ?_⟩
  rw [small (by decide +kernel)]
  decide +kernel

/-- A word of a literal is taken for the name of a local function. -/
theorem codeLiterals_minify_ne :
    let t := "LOCAL helper(x);\nf()\nBEGIN\nPRINT(\"helper\");\nEND;\n".toList
    codeLiterals t = ["\"helper\"".toList] ∧ codeLiterals (minify t) = ["\"fn0\"".toList] := by
  decide +kernel

end Small

end Program

end PrimePlus
