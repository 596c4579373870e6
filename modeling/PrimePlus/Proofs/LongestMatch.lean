import PrimePlus.Proofs.QualifiedNames
import PrimePlus.Proofs.TextLines

/-!
Which of several identities replaces a text that one of them takes as a whole. One without a name
takes none: a name is checked before an underscore in front of it is dropped.
-/

namespace PrimePlus

open Text (trim)

namespace Pattern

open Regex

theorem parse_of_not_isVerbatim {t : Text} (written : (parse t).isVerbatim = false) :
    parse t = .name (trim t) := by
  unfold parse at written ⊢
  dsimp only at written ⊢
  generalize trim t = inner at written ⊢
  split
  · next inner =>
    have unquoted : ¬inner.getLast? = some '\x60' := by
      intro quoted
      have hs : (if inner.getLast? = some '\x60' then verbatim inner.dropLast
        else .name ('\x60' :: inner)).isVerbatim = false := written
      rw [if_pos quoted] at hs
      cases hs
    rw [if_neg unquoted]
  · rfl

theorem isMatch_of_unqualified_nil {spaces : List Text} {t : Text}
    (missed : unqualified spaces t = []) (within : Text) :
    (nameRegexIn spaces t).isMatch within := by
  have here : ((nameRegexIn spaces t).matchAt (.start within)).isSome := by
    rw [matchAt, run_nameRegexIn, missed, edged, run, run_edge_of (by simp [startsInWord]),
      run, run_qualifiable, Option.isSome_or]
    exact Bool.or_eq_true_iff.mpr (.inr rfl)
  rw [isMatch, find?]
  cases within with
  | nil => exact here
  | cons c r =>
    rw [findFrom_cons, Option.isSome_or]
    exact Bool.or_eq_true_iff.mpr (.inl here)

variable {spaces : List Text}

theorem takesAll_of_isMatch {t within : Text} (hit : (nameRegexIn spaces t).isMatch within)
    (short : within.length ≤ (unqualified spaces t).length) :
    (Finder.regex (nameRegexIn spaces t)).takesAll within := by
  obtain ⟨first, search⟩ := Option.isSome_iff_exists.mp hit
  obtain ⟨middle, -, whole⟩ := exists_of_findFrom search
  have lengths := congrArg List.length whole
  simp only [List.length_append] at lengths
  have lead : first.lead = [] := List.length_eq_zero_iff.mp (by omega)
  have tail : first.tail = [] := List.length_eq_zero_iff.mp (by omega)
  have search' : (Finder.regex (nameRegexIn spaces t)).findFrom 0 [] within = some first := search
  rw [Finder.takesAll, search', Option.any_some, lead, tail]
  rfl

/-- What a name takes as a whole is the qualifier of a namespace or nothing, and the end that is
left of the name. -/
theorem exists_of_takesAll {t within : Text}
    (takes : (Finder.regex (nameRegexIn spaces t)).takesAll within) :
    ∃ middle, (middle = [] ∨ ∃ space ∈ spaces, middle = qualifier space) ∧
      within = middle ++ unqualified spaces t := by
  obtain ⟨hit, search, all⟩ := (Option.any_eq_true _ _).mp takes
  obtain ⟨middle, qualified, whole⟩ := exists_of_findFrom search
  simp only [Bool.and_eq_true, List.isEmpty_iff] at all
  rw [all.1, all.2, List.append_nil] at whole
  exact ⟨middle, qualified, whole⟩

end Pattern

namespace Alias

open Pattern (nameRegexIn unqualified)

def Identity.isWritten (identity : Identity) : Bool :=
  !(Pattern.parse identity.identifier).isVerbatim

theorem Entry.finder_eq {spaces : List Text} {e : Entry} (written : e.identity.isWritten)
    (x : compile? spaces e.identity = some e) :
    e.finder = .regex (if e.identity.isCall then
      .seq (nameRegexIn spaces (trim e.identity.identifier)) (.seq Regex.blanks (Regex.char '('))
      else nameRegexIn spaces (trim e.identity.identifier)) := by
  obtain ⟨finder, hit, eq⟩ := Option.map_eq_some_iff.mp x
  rw [Identity.isWritten, Bool.not_eq_true'] at written
  rw [Identity.finder?, Pattern.parse_of_not_isVerbatim written] at hit
  rw [← eq]
  exact (Option.some_inj.mp hit).symm

theorem Identity.of_identifier_declaredAt_nil {site : Site} {ident : Identity}
    (missed : (ident.declaredAt site).identifier = []) (ne : trim ident.identifier ≠ []) :
    trim ident.identifier = ['_'] ∧ (ident.declaredAt site).kind = .member := by
  unfold declaredAt at missed ⊢
  dsimp only at missed ⊢
  split at missed
  · next r shape =>
    split at missed
    · rw [shape] at missed
      cases missed
    · next alone =>
      rw [shape]
      exact ⟨congrArg ('_' :: ·) missed, by simp [alone]⟩
  · exact absurd missed ne

theorem isMatch_call_nil (hn : Regex) :
    (Regex.seq hn (.seq Regex.blanks (Regex.char '('))).isMatch [] = false := by
  rw [Bool.eq_false_iff]
  intro hit
  obtain ⟨first, search⟩ := Option.isSome_iff_exists.mp hit
  obtain ⟨cur, hi, -, hm⟩ := Regex.matchAt_of_findFrom (Cursor.isIn_start []) search
  obtain ⟨stop, fin, whole, -⟩ := Regex.exists_of_run _ _ _ _ _ hm
  cases whole with
  | seq u r =>
    cases r with
    | seq gap paren =>
      have place := ((gap.isIn (u.isIn hi).1).1).1
      cases paren with
      | one ha _ =>
        rw [ha] at place
        simp at place

/-- In every table that operations lead to, an identity without a name is a member that an
underscore alone has declared; and an identity whose name is searched for as it is written is found
in the empty text exactly where it is no call and nothing is left of its name: it is empty, or a
namespace in use is all of it. -/
theorem nameless_from_underscore (maxPasses : Nat) (operations : List Operation) :
    let table := (Chronicle.replay maxPasses operations).table
    (∀ identity ∈ table.identities, identity.identifier = [] → identity.kind = .member ∧
      ∃ site given, Operation.append site given ∈ operations ∧
        trim given.identifier = ['_']) ∧
    ∀ entry ∈ table.entries, entry.identity.isWritten = true →
      (entry.finder.isMatch [] = true ↔ entry.identity.isCall = false ∧
        unqualified table.namespaceNames (trim entry.identity.identifier) = []) := by
  intro table
  constructor
  · intro identity live absent
    obtain ⟨site, given, listed, filled, rfl⟩ := Chronicle.exists_append_of_mem live
    obtain ⟨alone, kind⟩ := Identity.of_identifier_declaredAt_nil absent filled
    exact ⟨kind, site, given, listed, alone⟩
  · intro entry listed written
    have compiled := (Chronicle.wellFormed_replay maxPasses operations).1.compiled entry listed
    rw [Entry.finder_eq written compiled]
    cases called : entry.identity.isCall with
    | true =>
      have missed := isMatch_call_nil
        (nameRegexIn table.namespaceNames (trim entry.identity.identifier))
      refine ⟨fun found => ?_, fun uncalled => absurd uncalled.1 (by simp)⟩
      cases missed.symm.trans found
    | false =>
      simp only [true_and]
      constructor
      · intro found
        exact List.eq_nil_of_infix_nil (Pattern.infix_of_isMatch found)
      · intro absent
        exact Pattern.isMatch_of_unqualified_nil absent []

/-- Beside a namespace that is all of a name, a name of two underscores and a call. -/
theorem nameless_from_underscore_qualifier :
    let operations : List Operation := [
      .append default { identifier := "A::".toList, real := "1".toList },
      .append default { identifier := "__".toList, real := "2".toList },
      .append default { identifier := "f".toList, real := "x".toList, parameters := ["x".toList] },
      .addNamespace "A".toList 0]
    let table := (Chronicle.replay 8 operations).table
    table.entries.map (fun entry => entry.finder.isMatch []) = [true, false, false] ∧
      ∀ entry ∈ table.entries, entry.identity.isWritten = true →
        (entry.finder.isMatch [] = true ↔ entry.identity.isCall = false ∧
          unqualified table.namespaceNames (trim entry.identity.identifier) = []) := by
  intro operations table
  exact ⟨by decide +kernel, (nameless_from_underscore 8 operations).2⟩

/-- An underscore alone is taken, and the identity that it declares has no name and is found in
every text. -/
theorem underscore_declares_nameless :
    let table := (Chronicle.replay 8
      [.append default { identifier := "_".toList, real := "1".toList }]).table
    table.identities.map Identity.identifier = [[]] ∧
      table.entries.map (fun entry => entry.finder.isMatch []) = [true] := by
  decide +kernel

theorem visible_of_takesAll {spaces : List Text} {n t o : Text}
    (takes : (Finder.regex (nameRegexIn spaces (trim n))).takesAll t)
    (missed : (nameRegexIn spaces (trim n)).isMatch o = false) :
    Text.isBlankText t = false := by
  obtain ⟨middle, -, whole⟩ := Pattern.exists_of_takesAll takes
  have ne : unqualified spaces (trim n) ≠ [] := by
    intro absent
    rw [Pattern.isMatch_of_unqualified_nil absent o] at missed
    cases missed
  have last : (unqualified spaces (trim n)).getLast? = (trim n).getLast? := by
    obtain ⟨u, eq⟩ := Pattern.unqualified_suffix spaces (trim n)
    nth_rewrite 2 [← eq]
    rw [List.getLast?_append_of_ne_nil u ne]
  rw [Bool.eq_false_iff]
  intro hb
  obtain ⟨c, ends⟩ := Option.isSome_iff_exists.mp (List.getLast?_isSome.mpr ne)
  have hi : c ∈ t := by
    rw [whole]
    exact List.mem_append_right middle (List.mem_of_getLast? ends)
  have hs := Text.not_isBlank_getLast_trimEnd (Text.trimStart n) c (last.symm.trans ends)
  rw [List.all_eq_true.mp hb c hi] at hs
  cases hs

/-- Of the identities of a table, all without parameters and with names that are searched for as
they are written, one that takes all of a text without quotes replaces it, where no other one takes
all of it and none is found in the replacement, provided that no other name that is at least as long
is found in the text. That is always so where names are without blanks around them and no namespace
in use shortens one, and the text is the name itself, as it is without namespaces. -/
theorem longest_match_wins (maxPasses : Nat) (operations : List Operation) (location : Location)
    (own : Entry) (t : Text) :
    let table := (Chronicle.replay maxPasses operations).table
    (∀ identity ∈ table.identities, identity.isWritten = true ∧ identity.isCall = false) →
    own ∈ table.entries → '"' ∉ t → own.finder.takesAll t = true →
    (∀ other ∈ table.entries, other.identity ≠ own.identity → other.finder.takesAll t = false) →
    (∀ other ∈ table.entries, other.finder.isMatch own.identity.real = false) →
    ((table.namespaceNames = [] ∨ t = own.identity.identifier) ∧ ∀ identity ∈ table.identities,
        unqualified table.namespaceNames (trim identity.identifier) = identity.identifier) ∨
      (∀ other ∈ table.entries, other.identity ≠ own.identity →
        own.identity.size ≤ other.identity.size → other.finder.isMatch t = false) →
    (table.resolve location t).1 = own.identity.real := by
  intro table written listed free takes part final apart
  have formed : table.WellFormed := (Chronicle.wellFormed_replay maxPasses operations).1
  have passes : 0 < table.maxPasses := Chronicle.maxPasses_replay_pos maxPasses operations
  have expressed {entry : Entry} (listed : entry ∈ table.entries) : entry.finder =
      .regex (nameRegexIn table.namespaceNames (trim entry.identity.identifier)) := by
    obtain ⟨written, uncalled⟩ := written _ (List.mem_map_of_mem listed)
    rw [Entry.finder_eq written (formed.compiled entry listed), uncalled]
    rfl
  have visible : Text.isBlankText t = false := by
    have missed := final own listed
    rw [expressed listed] at takes missed
    exact visible_of_takesAll takes missed
  obtain ⟨front, back, parted⟩ := List.append_of_mem listed
  refine Table.resolve_of_takesAll passes parted (expressed listed)
    (written _ (List.mem_map_of_mem listed)).2 visible (Lexical.literals_of_quoteFree free) takes ?_
    final location
  intro entry before
  have inside : entry ∈ table.entries := by simp [parted, before]
  obtain ⟨long, other⟩ := formed.ahead parted before
  have others : entry.identity ≠ own.identity := fun same => other (same ▸ rfl)
  rcases apart with ⟨named, kept⟩ | apart
  · -- a name that is found in a text that is no longer takes all of it
    have name : t = own.identity.identifier := by
      rcases named with unused | name
      · rw [expressed listed] at takes
        obtain ⟨middle, plain, whole⟩ := Pattern.exists_of_takesAll takes
        rw [kept _ (List.mem_map_of_mem listed)] at whole
        rcases plain with rfl | ⟨space, inUse, -⟩
        · exact whole
        · rw [unused] at inUse
          cases inUse
      · exact name
    have missed := part entry inside others
    rw [expressed inside] at missed ⊢
    rw [Bool.eq_false_iff]
    intro found
    rw [Pattern.takesAll_of_isMatch found] at missed
    · cases missed
    · rw [kept _ (List.mem_map_of_mem inside), name]
      exact long
  · exact apart entry inside others long

/-- With a namespace in use that shortens another name, a name beside one that is part of it. -/
theorem longest_match_wins_member :
    let operations : List Operation := [
      .append default { identifier := "pt".toList, real := "1".toList },
      .append default { identifier := "pt.x".toList, real := "2".toList },
      .append default { identifier := "N::y".toList, real := "3".toList },
      .addNamespace "N".toList 0]
    let table := (Chronicle.replay 8 operations).table
    let t := "pt.x".toList
    table.entries.map (fun entry => entry.finder.isMatch t) = [true, false, true] ∧
      (∀ own ∈ table.entries.head?, own.finder.takesAll t = true ∧
        (∀ other ∈ table.entries, other.identity ≠ own.identity → other.finder.takesAll t = false) ∧
        ∀ other ∈ table.entries, other.finder.isMatch own.identity.real = false) ∧
      table.entries.head?.map (fun own => own.identity.real) = some "2".toList ∧
      (table.resolve default t).1 = "2".toList := by
  intro operations table t
  have first : ∀ own ∈ table.entries.head?, own.finder.takesAll t = true ∧
      (∀ other ∈ table.entries, other.identity ≠ own.identity → other.finder.takesAll t = false) ∧
      ∀ other ∈ table.entries, other.finder.isMatch own.identity.real = false := by
    decide +kernel
  have named : table.entries.head?.map (fun own => own.identity.real) = some "2".toList := by
    decide +kernel
  refine ⟨by decide +kernel, first, named, ?_⟩
  obtain ⟨own, listed, real⟩ := Option.map_eq_some_iff.mp named
  obtain ⟨takes, part, final⟩ := first own listed
  have apart : ∀ own ∈ table.entries.head?, ∀ other ∈ table.entries, other.identity ≠ own.identity →
      own.identity.size ≤ other.identity.size → other.finder.isMatch t = false := by
    decide +kernel
  exact (longest_match_wins 8 operations default own t (by decide +kernel)
    (List.mem_of_mem_head? listed) (by decide) takes part final
    (.inr (apart own listed))).trans real

/-- A namespace in use takes a name apart: all of `pt.x` is a name, and the name of which `pt` is
left is longer, so that it is replaced before. -/
theorem namespace_beats_longest_match :
    let table := (Chronicle.replay 8 [
      .append default { identifier := "N::pt".toList, real := "1".toList },
      .append default { identifier := "pt.x".toList, real := "2".toList },
      .addNamespace "N".toList 0]).table
    table.entries.map (fun entry => entry.finder.takesAll "pt.x".toList) = [false, true] ∧
      table.identities.map Identity.real = ["1".toList, "2".toList] ∧
      (∀ entry ∈ table.entries, entry.finder.isMatch "2".toList = false) ∧
      (table.resolve default "pt.x".toList).1 = "1.x".toList := by
  decide +kernel

end Alias

end PrimePlus
