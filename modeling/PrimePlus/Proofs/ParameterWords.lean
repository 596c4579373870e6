import Mathlib.Data.List.Nodup
import Mathlib.Data.List.SplitBy
import PrimePlus.Proofs.SettledNames
import PrimePlus.Proofs.TextWords

/-!
What the parameters of a call are replaced by, word by word.
-/

namespace PrimePlus

open List Text

open Unicode (isNameChar isWordChar)
open Regex

namespace Text

/-- A text cut between any two characters that are not both of a word: into its words, and the other
characters one by one. -/
def chunks (t : Text) : List Text :=
  t.splitBy fun c d => isWordChar c && isWordChar d

variable {word : Text}

theorem chunks_append {left right : Text}
    (ha : (left.getLast?.any isWordChar && right.head?.any isWordChar) = false) :
    chunks (left ++ right) = chunks left ++ chunks right :=
  splitBy_append fun c last d first => by
    rwa [last, first] at ha

theorem chunks_other {c : Char} (ho : isWordChar c = false) (rest : Text) :
    chunks (c :: rest) = [c] :: chunks rest :=
  @chunks_append [c] rest (congrArg (· && rest.head?.any isWordChar) ho)

theorem chunks_of_word (ne : word ≠ []) (all : ∀ c ∈ word, isWordChar c) :
    chunks word = [word] := by
  refine splitBy_of_isChain ne ?_
  refine (pairwise_of_forall_mem_list fun c mem d mem' => ?_).isChain
  rw [all c mem, all d mem', Bool.and_self]

theorem chunks_word {rest : Text} (ne : word ≠ []) (all : ∀ c ∈ word, isWordChar c)
    (stops : rest.head?.any isWordChar = false) : chunks (word ++ rest) = word :: chunks rest := by
  rw [chunks_append (by rw [stops, Bool.and_false]), chunks_of_word ne all, singleton_append]

end Text

namespace Regex

open Cursor (between)

variable {name pre t : Text} {groups final : Groups} {stop : Cursor}

theorem matches_word (ne : name ≠ []) (all : ∀ c ∈ name, isWordChar c) :
    Matches (.seq edge (.seq (text name) edge)) (between pre t) groups stop final ↔
      ∃ r, t = name ++ r ∧ pre.getLast?.any isWordChar = false ∧
        r.head?.any isWordChar = false ∧ stop = between (pre ++ name) r ∧ final = groups := by
  have first := any_head?_of_forall ne all
  have ends (r : Text) : Matches edge (between (pre ++ name) r) groups stop final ↔
      r.head?.any isWordChar = false ∧ stop = between (pre ++ name) r ∧ final = groups := by
    have cond : (between (pre ++ name) r).atEdge isWordChar ↔ r.head?.any isWordChar = false := by
      rw [Cursor.atEdge_between, any_getLast?_of_forall ne all]
      cases r.head?.any isWordChar <;> simp
    rw [← cond]
    constructor
    · intro hm
      cases hm with
      | assert met => exact ⟨met, rfl, rfl⟩
    · rintro ⟨met, rfl, rfl⟩
      exact .assert met
  rw [matches_edge_seq, (spans_text name).seq]
  constructor
  · rintro ⟨opens, read, r, rfl, rfl, hm⟩
    rw [first, bne_iff_ne, ne_eq, Bool.not_eq_true] at opens
    obtain ⟨closes, stops⟩ := (ends r).mp hm
    exact ⟨r, rfl, opens, closes, stops⟩
  · rintro ⟨r, rfl, opens, closes, stops⟩
    refine ⟨?_, name, r, rfl, rfl, (ends r).mpr ⟨closes, stops⟩⟩
    rw [first, opens]
    rfl

theorem matches_any {choices : List Regex} {cur : Cursor} :
    Matches (any choices) cur groups stop final ↔
      ∃ choice ∈ choices, Matches choice cur groups stop final := by
  induction choices with
  | nil =>
    refine ⟨fun hm => ?_, fun ⟨choice, mem, _⟩ => absurd mem not_mem_nil⟩
    cases hm with
    | one _ acc => cases acc
  | cons choice r ih =>
    cases r with
    | nil => simp [any]
    | cons o r =>
      rw [any, exists_mem_cons_iff, ← ih]
      · constructor
        · intro hm
          cases hm with
          | altLeft left => exact .inl left
          | altRight right => exact .inr right
        · rintro (left | right)
          · exact .altLeft left
          · exact .altRight right
      · exact cons_ne_nil o r

end Regex

namespace Alias

open Cursor (between)

def isWordName (name : Text) : Bool :=
  let bounded := fun (c : Option Char) => c.any fun c => c != '_' && isNameChar c
  name.all isWordChar && (bounded name.head? && bounded name.getLast?)

theorem word_of_isWordName {name : Text} (named : isWordName name) :
    name ≠ [] ∧ ∀ c ∈ name, isWordChar c := by
  obtain ⟨all, first, -⟩ := by simpa only [isWordName, Bool.and_eq_true] using named
  refine ⟨?_, all_eq_true.mp all⟩
  rintro rfl
  cases first

theorem parameterRegex_eq {name : Text} (named : isWordName name) :
    parameterRegex name = .seq edge (.seq (text name) edge) := by
  obtain ⟨-, first, last⟩ := by simpa only [isWordName, Bool.and_eq_true] using named
  unfold parameterRegex
  dsimp only
  rw [if_pos first, if_pos last]

section Filling

variable {given : List (Text × Text)} {pre t : Text}

variable {groups final : Groups} {stop : Cursor}

theorem matches_parameterRegexes (named : ∀ entry ∈ given, isWordName entry.1) :
    Matches (parameterRegexes given) (between pre t) groups stop final ↔
      ∃ entry ∈ given, ∃ r, t = entry.1 ++ r ∧ pre.getLast?.any isWordChar = false ∧
        r.head?.any isWordChar = false ∧ stop = between (pre ++ entry.1) r ∧ final = groups := by
  rw [parameterRegexes, matches_any]
  constructor
  · rintro ⟨_, mem, hm⟩
    obtain ⟨entry, ordered, rfl⟩ := mem_map.mp mem
    have known := mem_orderedParameters ordered
    rw [parameterRegex_eq (named entry known)] at hm
    obtain ⟨ne, all⟩ := word_of_isWordName (named entry known)
    exact ⟨entry, known, (matches_word ne all).mp hm⟩
  · rintro ⟨entry, known, here⟩
    refine ⟨_, mem_map_of_mem ((orderedParameters_perm given).mem_iff.mpr known), ?_⟩
    rw [parameterRegex_eq (named entry known)]
    obtain ⟨ne, all⟩ := word_of_isWordName (named entry known)
    exact (matches_word ne all).mpr here

theorem isFlat_parameterRegexes (given : List (Text × Text)) : (parameterRegexes given).IsFlat := by
  refine forall_any (p := IsFlat) trivial (fun _ _ left right => ⟨left, right⟩) ?_
  intro r mem
  obtain ⟨entry, -, rfl⟩ := mem_map.mp mem
  exact ⟨isFlat_side _, isFlat_text entry.1, isFlat_side _⟩

section

variable (named : ∀ entry ∈ given, isWordName entry.1)

include named

theorem eq_of_matches_word {word rest : Text} (ne : word ≠ [])
    (all : ∀ c ∈ word, isWordChar c) (stops : rest.head?.any isWordChar = false)
    (hm : Matches (parameterRegexes given) (between pre (word ++ rest)) groups stop final) :
    (∃ entry ∈ given, entry.1 = word) ∧ stop = between (pre ++ word) rest ∧ final = groups := by
  obtain ⟨entry, mem, tail, whole, -, closes, reached, kept⟩ :=
    (matches_parameterRegexes named).mp hm
  obtain ⟨named', letters⟩ := word_of_isWordName (named entry mem)
  have chunked := congrArg chunks whole
  rw [chunks_word ne all stops, chunks_word named' letters closes] at chunked
  have same : word = entry.1 := (cons.inj chunked).1
  rw [← same] at whole reached
  rw [← append_cancel_left whole] at reached
  exact ⟨⟨entry, mem, same.symm⟩, reached, kept⟩

theorem not_matches_parameterRegexes {c : Char} {r : Text}
    (ha : pre.getLast?.any isWordChar ∨ isWordChar c = false) (groups : Groups)
    (stop : Cursor) (final : Groups) :
    ¬Matches (parameterRegexes given) (between pre (c :: r)) groups stop final := by
  intro hm
  obtain ⟨entry, mem, tail, whole, opens, -⟩ := (matches_parameterRegexes named).mp hm
  obtain ⟨ne, letters⟩ := word_of_isWordName (named entry mem)
  rcases ha with hi | other
  · exact Bool.false_ne_true (opens.symm.trans hi)
  · obtain ⟨d, more, shape⟩ := exists_cons_of_ne_nil ne
    rw [shape] at whole
    have letter := letters d (shape ▸ mem_cons_self)
    rw [← (cons.inj whole).1] at letter
    exact Bool.false_ne_true (other.symm.trans letter)

theorem assemble_parameters {image : Match → Text} {fill : Text → Text}
    (filled : ∀ hit : Match, (∃ entry ∈ given, entry.1 = hit.text) → image hit = fill
      hit.text) (kept : ∀ chunk, (∀ entry ∈ given, entry.1 ≠ chunk) → fill chunk = chunk)
    (fresh : Bool) (ha : (pre.getLast?.any isWordChar && t.head?.any isWordChar) = false) :
    assemble image ((parameterRegexes given).piecesAt fresh (between pre t)) =
      (chunks t).flatMap fill := by
  induction t using runs_induction isWordChar generalizing pre fresh with
  | nil =>
    rw [piecesAt_eq_map_gap]
    · rfl
    · intro passed rest stop final whole hm
      obtain ⟨entry, mem, tail, cut, -⟩ := (matches_parameterRegexes named).mp hm
      obtain ⟨-, absent⟩ := append_eq_nil_iff.mp whole.symm
      rw [absent] at cut
      exact (word_of_isWordName (named entry mem)).1 (append_eq_nil_iff.mp cut.symm).1
  | run word rest ne all stops ih =>
    have opens : pre.getLast?.any isWordChar = false := by
      rwa [any_head?_of_forall ne all, Bool.and_true] at ha
    rw [chunks_word ne all stops, flatMap_cons]
    by_cases known : ∃ entry ∈ given, entry.1 = word
    · obtain ⟨entry, mem, same⟩ := known
      obtain ⟨hit, here⟩ := matchAt_of_matches (isFlat_parameterRegexes given)
        ((matches_parameterRegexes named).mpr
          ⟨entry, mem, rest, by rw [same], opens, stops, rfl, rfl⟩)
      obtain ⟨start, hm⟩ := matches_of_matchAt here
      obtain ⟨-, reached, -⟩ := eq_of_matches_word named ne all stops hm
      have text : hit.text = word := by
        rw [Match.text, start, reached, Cursor.spanTo_between]
      rw [piecesAt_hit fresh ne here reached, assemble,
        ih false (by rw [stops, Bool.and_false]), filled hit ⟨entry, mem, same.trans text.symm⟩,
        text]
    · obtain ⟨c, more, rfl⟩ := exists_cons_of_ne_nil ne
      have missed : (parameterRegexes given).matchAt (between pre (c :: (more ++ rest))) = none :=
        matchAt_eq_none_of_not_matches fun stop final hm =>
          known (eq_of_matches_word named ne all stops hm).1
      rw [cons_append, piecesAt_gap fresh missed, piecesAt_append,
        assemble, assemble_append, assemble_map_gap, ih true, kept]
      · rfl
      · rintro entry mem same
        exact known ⟨entry, mem, same⟩
      · rw [stops, Bool.and_false]
      · intro passed d ahead stop final whole
        have letters : ∀ e ∈ c :: passed, isWordChar e := by
          rw [whole] at all
          exact (forall_mem_append.mp all).1
        have place : pre ++ [c] ++ passed = pre ++ c :: passed := by simp
        rw [place]
        exact not_matches_parameterRegexes named
          (.inl (any_getLast?_of_forall (cons_ne_nil c passed) letters pre)) _ _ _
  | other c rest kind ih =>
    have missed : (parameterRegexes given).matchAt (between pre (c :: rest)) = none :=
      matchAt_eq_none_of_not_matches fun stop final =>
        not_matches_parameterRegexes named (.inr kind) _ _ _
    have single : ∀ entry ∈ given, entry.1 ≠ [c] := by
      intro entry mem same
      have letter := (word_of_isWordName (named entry mem)).2 c (by simp [same])
      exact Bool.false_ne_true (kind.symm.trans letter)
    rw [piecesAt_gap fresh missed, assemble, ih true, chunks_other kind,
      flatMap_cons, kept [c] single]
    · rfl
    · simp [kind]

end

theorem find?_of_mem (distinct : (given.map Prod.fst).Nodup) {entry : Text × Text}
    (mem : entry ∈ given) : given.find? (fun o => o.1 == entry.1) = some entry := by
  obtain ⟨o, hit⟩ := Option.isSome_iff_exists.mp (find?_isSome.mpr
    ⟨entry, mem, beq_self_eq_true entry.1⟩ : (given.find? fun o => o.1 == entry.1).isSome)
  have named : o.1 = entry.1 := by simpa using find?_some hit
  rw [hit, inj_on_of_nodup_map distinct (mem_of_find?_eq_some hit) mem named]

theorem substitute_eq (distinct : (given.map Prod.fst).Nodup)
    (named : ∀ entry ∈ given, isWordName entry.1) (t : Text) :
    substitute given t = (chunks t).flatMap (renamed given) := by
  have ordered := orderedParameters_perm given
  have distinct' : ((orderedParameters given).reverse.map Prod.fst).Nodup := by
    rw [map_reverse, nodup_reverse]
    exact (ordered.map Prod.fst).nodup_iff.mpr distinct
  unfold substitute
  rw [replaceAll_eq_assemble]
  refine @assemble_parameters given [] t named _ _ (fun hit known => ?_) (fun chunk absent => ?_)
    true rfl
  · obtain ⟨entry, mem, eq⟩ := known
    rw [← eq, find?_of_mem distinct' (mem_reverse.mpr (ordered.mem_iff.mpr mem)),
      renamed, find?_of_mem distinct mem]
    rfl
  · have missed : given.find? (fun entry => entry.1 == chunk) = none :=
      find?_eq_none.mpr fun entry mem => by simpa using absent entry mem
    rw [renamed, missed]
    rfl

end Filling

/-- The parameters of a call are replaced all at once, and as words: each word of the replacement
that is a parameter becomes the argument for it, and all else stays as it is. That is so for
parameters with different names of word characters that start and end with a letter or a digit. -/
theorem parameters_filled_at_once (identity : Identity) (location : Location)
    (arguments : List Text) (distinct : identity.parameters.Nodup)
    (named : ∀ name ∈ identity.parameters, isWordName name = true)
    (count : arguments.length = identity.parameters.length) :
    applyCall identity location arguments =
      ((chunks identity.real).flatMap (renamed (identity.parameters.zip arguments)), []) := by
  rw [applyCall, if_pos count, substitute_eq]
  · rwa [map_fst_zip count.ge]
  · exact fun entry listed => named entry.1 (of_mem_zip listed).1

/-- Two parameters are exchanged, one of which is the front of the other and of a word. -/
theorem parameters_filled_exchange :
    let identity : Identity := {
      identifier := "f".toList, parameters := ["x".toList, "xy".toList],
      real := "x+xy*xyz(x_1)-x".toList }
    applyCall identity default ["xy".toList, "x y".toList] = ("xy+x y*xyz(x_1)-xy".toList, []) := by
  intro identity
  refine (parameters_filled_at_once identity default _ ?_ ?_ ?_).trans ?_ <;> decide +kernel

end Alias

end PrimePlus
