import PrimePlus.Proofs.SettledNames

/-!
Literals that come into a text with a replacement.
-/

namespace PrimePlus

open List Lexical.IsLiteral

open Lexical
open Cursor (between)

variable {body a : Text}

section Surroundings

namespace Regex

variable {r : Regex}

theorem matchAt_eq_none_of_findFrom {lead before after : Text}
    (missed : r.findFrom lead.length lead.reverse (before ++ after) = none) :
    r.matchAt (between (lead ++ before) after) = none := by
  induction before generalizing lead with
  | nil =>
    rw [append_nil]
    cases after with
    | nil => exact missed
    | cons c after =>
      rw [nil_append, findFrom_between] at missed
      exact (Option.or_eq_none_iff.mp missed).1
  | cons c before ih =>
    rw [cons_append, findFrom_between] at missed
    rw [← singleton_append, ← append_assoc]
    exact ih (Option.or_eq_none_iff.mp missed).2

/-- An expression that reads plain characters does not read beyond a quote. So it is found in a text
in quotes wherever that stands, or nowhere. -/
theorem skips_of_isMatch (agrees : ∀ R, r.Agrees R) (shut : IsShut body) (unmarked : Unmarked body)
    (missed : r.isMatch ('"' :: body) = false) : r.Skips body := by
  rintro before passed rest after rfl filled
  obtain ⟨front, more, rfl, plain⟩ :
      ∃ front more, rest = front ++ '"' :: more ∧ IsPlainText front := by
    have ends : '"' ∈ rest := by
      rw [IsShut, getLast?_append_of_ne_nil _ filled] at shut
      exact mem_of_getLast? shut
    obtain ⟨front, more, rfl, free⟩ := eq_append_cons_of_mem ends
    refine ⟨front, more, rfl, fun c mem => ?_⟩
    have other : c ≠ '"' := fun eq => free (eq ▸ mem)
    simp [isPlain, other, unmarked c (by simp [mem])]
  have hr : Renamed (fun _ _ => True) (front ++ '"' :: more ++ after) (front ++ '"' :: more) := by
    rw [append_assoc]
    refine (Renamed.of_plain plain).append ?_
    simpa using @Renamed.held (fun _ _ => True) (more ++ after) more [] [] trivial .nil
  have last : (before ++ '"' :: passed).getLast? = ('"' :: passed).getLast? :=
    getLast?_append_of_ne_nil _ (cons_ne_nil _ _)
  have eq : Option.Rel (fun _ _ => True)
      (r.matchAt (between (before ++ '"' :: passed) (front ++ '"' :: more ++ after)))
      (r.matchAt (between ('"' :: passed) (front ++ '"' :: more))) :=
    (agrees _).run last hr fun _ _ _ _ _ _ _ => .some trivial
  have alone : r.matchAt (between ('"' :: passed) (front ++ '"' :: more)) = none := by
    refine @matchAt_eq_none_of_findFrom r [] ('"' :: passed) _ ?_
    simpa [isMatch, find?] using missed
  rcases rel_cases eq with ⟨nowhere, -⟩ | ⟨_, _, -, there, -⟩
  · exact nowhere
  · rw [alone] at there
    cases there

theorem skips_any {list : List Regex} (all : ∀ r ∈ list, r.Skips body) : (any list).Skips body := by
  refine forall_any (p := fun r => r.Skips body) ?_ (fun left right first second => ?_) all
  · intro pre passed tl after _ _
    cases tl <;> cases after <;> rfl
  · intro pre passed tl after split ne
    have left' := first pre passed tl after split ne
    have right' := second pre passed tl after split ne
    rw [matchAt] at left' right' ⊢
    rw [run, left', right']

end Regex

end Surroundings

section Kept

namespace Lexical

/-- Whether two texts are one that follows the quote of one of the first placeholders or of one of
some literals. -/
def IsKept (list : List Text) (n : Nat) (body body' : Text) : Prop :=
  body = body' ∧ ((∃ index < n, placeholder index = '"' :: body) ∨ '"' :: body ∈ list)

variable {list : List Text} {n : Nat} {t : Text}

theorem throughout_isKept {holds : Text → Prop}
    (numbers : ∀ i body, placeholder i = '"' :: body → holds body)
    (all : ∀ body, '"' :: body ∈ list → holds body) : Throughout holds (IsKept list n) := by
  rintro body _ ⟨rfl, ⟨i, -, written⟩ | mem⟩
  · exact ⟨numbers i body written, numbers i body written⟩
  · exact ⟨all body mem, all body mem⟩

theorem IsLiteral.isShut (literal : IsLiteral ('"' :: body)) : IsShut body := by
  obtain ⟨_, eq, hc⟩ := literal
  obtain ⟨-, rfl⟩ := cons.inj eq
  obtain ⟨inner, rfl⟩ := exists_of_literalLength? hc
  exact getLast?_concat

theorem renamed_isKept (hu : Unmarked t) (closed : IsClosed t) (inside : literals t ⊆ list) :
    Renamed (IsKept list n) t t := by
  replace closed := closed.built
  induction closed with
  | nil => exact .nil
  | code o _ ih =>
    obtain ⟨first, rest⟩ := forall_mem_cons.mp hu
    rw [literals_cons_of_ne o] at inside
    exact .char (by simp [isPlain, o, first]) (ih rest inside)
  | literal literal _ ih =>
    rw [literals_literal_append literal, cons_subset] at inside
    obtain ⟨body, rfl, -⟩ := literal
    exact .held ⟨rfl, .inr inside.1⟩ (ih (unmarked_append.mp hu).2 inside.2)

theorem Sealed.renamed_isKept (sealed : Sealed n t) : Renamed (IsKept list n) t t := by
  induction sealed with
  | nil => exact .nil
  | char hp _ ih => exact .char hp ih
  | @held i t stored _ ih =>
    have written : placeholder i = '"' :: (placeholder i).tail := by rfl
    exact .held ⟨rfl, .inl ⟨i, stored, written⟩⟩ ih

theorem restore_append_of_unmarked {rest : Text} (hu : marker ∉ a)
    (ha : rest.head? ≠ some marker) (store : Store) :
    restore store (a ++ rest) = a ++ restore store rest := by
  induction a with
  | nil => rfl
  | cons c a ih =>
    have inner := ih (mt (mem_cons_of_mem c) hu)
    rw [cons_append, cons_append]
    by_cases quote : c = '"'
    · rw [quote, restore_quote, inner]
      cases a with
      | nil => exact ha
      | cons d a =>
        intro first
        exact hu (Option.some.inj first ▸ by simp)
    · rw [restore_cons_of_ne _ quote, inner]

theorem Renamed.mem_literals_restore {store : Store} {t' : Text} (sound : Store.IsSound store)
    (sound' : Store.IsSound list) (renamed : Renamed (IsKept list store.length) t t')
    (mem : a ∈ literals (restore store t)) : a ∈ store ∨ a ∈ list := by
  induction renamed with
  | nil => cases mem
  | char hp _ ih =>
    have ha := ne_quote_of_isPlain hp
    rw [restore_cons_of_ne _ ha, literals_cons_of_ne ha] at mem
    exact ih mem
  | @held body body' t t' hr rest ih =>
    rw [← cons_append] at mem
    rcases hr.2 with ⟨i, stored, written⟩ | known
    · have held := getElem_mem stored
      rw [← written, restore_placeholder_append, getElem?_eq_getElem stored, Option.getD_some,
        literals_literal_append (sound _ held).1] at mem
      rcases mem_cons.mp mem with rfl | later
      · exact .inl held
      · exact ih later
    · have ha : t.head? ≠ some marker := by
        cases rest with
        | nil | held => simp [marker]
        | char hp =>
          rintro same
          rw [Option.some.inj same] at hp
          exact absurd hp (by decide)
      rw [restore_append_of_unmarked (sound' _ known).2 ha,
        literals_literal_append (sound' _ known).1] at mem
      rcases mem_cons.mp mem with rfl | later
      · exact .inr known
      · exact ih later

end Lexical

end Kept

namespace Alias

variable {n : Nat}

section Parameters

theorem agrees_parameterRegex {name : Text} (hp : IsPlainText name) (R : Text → Text → Prop) :
    (parameterRegex name).Agrees R := by
  have side (asked : Bool) : Regex.Agrees R (if asked then Regex.edge else .empty) := by
    cases asked with
    | false => exact .empty
    | true => exact .edge
  exact (side _).seq ((Regex.Agrees.text hp).seq (side _))

theorem opensPlain_parameterRegex {name : Text} (hp : IsPlainText name) (ne : name ≠ []) :
    (parameterRegex name).OpensPlain False := by
  unfold parameterRegex
  dsimp only
  split <;> split <;> exact Regex.opensPlain_text hp fun missed => absurd missed ne

@[mk_iff] structure Identity.IsInert (identity : Identity) : Prop where
  unmarked : Unmarked identity.real
  closed : IsClosed identity.real
  parameters : ∀ name ∈ identity.parameters, name ≠ [] ∧ IsPlainText name ∧
    ∀ a ∈ literals identity.real, (parameterRegex name).isMatch a = false

variable {ident : Identity}

instance (identity : Identity) : Decidable identity.IsInert :=
  decidable_of_iff _ identity.isInert_iff.symm

theorem Identity.IsInert.isSound (inert : ident.IsInert) :
    Store.IsSound (literals ident.real) := fun _ mem =>
  ⟨isLiteral_of_mem_literals mem,
    unmarked_not_mem (inert.unmarked.subset (subset_of_mem_literals mem))⟩

theorem Identity.IsInert.unmarked_body (inert : ident.IsInert)
    (mem : '"' :: body ∈ literals ident.real) : Unmarked body :=
  (inert.unmarked.subset (subset_of_mem_literals mem)).subset (subset_cons_self _ _)

theorem Identity.IsInert.isCopied (inert : ident.IsInert) {list : List Text}
    (hi : literals ident.real ⊆ list) : ident.IsCopied (IsKept list n) := by
  refine ⟨renamed_isKept inert.unmarked inert.closed hi, fun {given given'} names eq => ?_⟩
  refine substitute_renamed eq fun image image' images => ?_
  have each (r : Regex) (mem : r ∈ (orderedParameters given).map fun e =>
      parameterRegex e.1) : ∃ name, r = parameterRegex name ∧ name ≠ [] ∧ IsPlainText name ∧
        ∀ a ∈ literals ident.real, (parameterRegex name).isMatch a = false := by
    obtain ⟨e, known, rfl⟩ := mem_map.mp mem
    exact ⟨e.1, rfl, inert.parameters _ (names e (mem_orderedParameters known))⟩
  have starts : (parameterRegexes given).StartsPlain := by
    refine .of_opensPlain (Regex.opensPlain_any fun r mem => ?_)
    obtain ⟨name, rfl, filled, hp, -⟩ := each r mem
    exact opensPlain_parameterRegex hp filled
  have agrees (R : Text → Text → Prop) : (parameterRegexes given).Agrees R := by
    refine .any fun r mem => ?_
    obtain ⟨name, rfl, -, hp, -⟩ := each r mem
    exact agrees_parameterRegex hp R
  -- of the literals kept, only those of the replacement itself stand in it
  refine starts.replaceAll_renamed (agrees _) ?_ ?_ (fun _ _ kept => ?_) images
    (@renamed_isKept (literals ident.real) 0 _ inert.unmarked inert.closed (Subset.refl _))
  · exact throughout_isKept (fun _ _ => isShut_of_placeholder)
      fun body mem => isShut (inert.isSound _ mem).1
  · refine throughout_isKept (fun _ _ written => starts.skips (not_isPlain_of_placeholder written))
      fun body mem => Regex.skips_any fun r chosen => ?_
    obtain ⟨name, rfl, -, hp, missed⟩ := each r chosen
    refine Regex.skips_of_isMatch (agrees_parameterRegex hp)
      (isShut (inert.isSound _ mem).1) (inert.unmarked_body mem)
      (missed _ mem)
  · obtain ⟨eq, ⟨_, absent, _⟩ | mem⟩ := kept
    · exact absurd absent (Nat.not_lt_zero _)
    · exact ⟨eq, .inr (hi mem)⟩

end Parameters

namespace Table

def replacementLiterals (table : Table) : List Text :=
  table.identities.flatMap fun identity => literals identity.real

/-- Whether names are found by plain characters and the literals of replacements stay out of their
way: no name and no parameter is found in one, and where there are calls, whose parentheses and
commas are looked for everywhere, none has a bracket or a comma. -/
structure IsInert (table : Table) : Prop where
  spaces : ∀ space ∈ table.namespaceNames, IsPlainText space
  names : ∀ identity ∈ table.identities, identity.HasLegibleName table.namespaceNames
  replacements : ∀ identity ∈ table.identities, identity.IsInert
  missed : ∀ entry ∈ table.entries, ∀ a ∈ table.replacementLiterals, entry.finder.isMatch a = false
  level : ∀ identity ∈ table.identities, identity.isCall = true →
    ∀ a ∈ table.replacementLiterals, IsLevel a

variable {tbl : Table}

theorem exists_of_mem_replacementLiterals (mem : a ∈ tbl.replacementLiterals) :
    ∃ ident ∈ tbl.identities, a ∈ literals ident.real :=
  mem_flatMap.mp mem

theorem IsInert.isSound (inert : tbl.IsInert) : Store.IsSound tbl.replacementLiterals := by
  intro a mem
  obtain ⟨ident, known, held⟩ := exists_of_mem_replacementLiterals mem
  exact (inert.replacements ident known).isSound a held

theorem IsInert.isUniform (inert : tbl.IsInert) (hc : tbl.IsCompiled) {e : Entry}
    (mem : e ∈ tbl.entries) : e.IsUniform (IsKept tbl.replacementLiterals n) := by
  have known : e.identity ∈ tbl.identities := mem_map_of_mem mem
  have hi : literals e.identity.real ⊆ tbl.replacementLiterals := fun a held =>
    mem_flatMap.mpr ⟨e.identity, known, held⟩
  obtain ⟨finder, hit, eq⟩ := Option.map_eq_some_iff.mp (hc e mem)
  obtain ⟨r, regex, starts, agrees⟩ := (inert.names _ known).finder inert.spaces hit
  have finds : e.finder = .regex r := (congrArg Entry.finder eq).symm.trans regex
  refine ⟨⟨r, finds, starts, agrees _, ?_⟩, (inert.replacements _ known).isCopied hi,
    fun called => ?_⟩
  · refine throughout_isKept (fun _ _ written => starts.skips (not_isPlain_of_placeholder written))
      fun body held => ?_
    obtain ⟨ident, o, real⟩ := exists_of_mem_replacementLiterals held
    have missed := inert.missed e mem _ held
    rw [finds] at missed
    exact Regex.skips_of_isMatch agrees (isShut (inert.isSound _ held).1)
      ((inert.replacements ident o).unmarked_body real) missed
  · exact throughout_isKept
      (fun _ _ written => isLevel_of_not_isPlain (not_isPlain_of_placeholder written))
      fun body held => (forall_mem_cons.mp (inert.level _ known called _ held)).2

theorem IsInert.renamed_settle (inert : tbl.IsInert) (hc : tbl.IsCompiled)
    (loc : Location) {t : Text} (sealed : Sealed n t) :
    let settled := (settle (tbl.resolveOnce loc) tbl.maxPasses t).text
    Renamed (IsKept tbl.replacementLiterals n) settled settled := by
  have shut : Throughout IsShut (IsKept tbl.replacementLiterals n) :=
    throughout_isKept (fun _ _ => isShut_of_placeholder)
      fun body held => isShut (inert.isSound _ held).1
  have step (next : Text) (whole : Renamed (IsKept tbl.replacementLiterals n) next next) :
      Renamed (IsKept tbl.replacementLiterals n) (tbl.resolveOnce loc next).1
        (tbl.resolveOnce loc next).1 :=
    renamed_resolveOnce shut (fun _ => inert.isUniform hc) loc loc whole
  exact @settle_text (fun next => Renamed _ next next) _ step tbl.maxPasses t sealed.renamed_isKept

/-- Names are replaced outside string literals. For every table that operations lead to, all of its
identities named plainly and their literals inert, and every text whose literals are closed, a
literal of the text that comes out is one of the text or of a replacement. -/
theorem mem_literals_of_resolve (maxPasses : Nat) (operations : List Operation)
    (location : Location) (t a : Text) :
    let table := (Chronicle.replay maxPasses operations).table
    table.IsInert → Unmarked t → IsClosed t → a ∈ literals (table.resolve location t).1 →
      a ∈ literals t ∨ ∃ identity ∈ table.identities, a ∈ literals identity.real := by
  intro table inert unmarked closed listed
  have compiled := (Chronicle.wellFormed_replay maxPasses operations).1.compiled
  unfold resolve at listed
  split at listed
  · exact .inl listed
  · have kept := inert.renamed_settle compiled location (sealed_protect unmarked closed)
    have sound := Store.isSound_protect (unmarked_not_mem unmarked)
    rcases kept.mem_literals_restore sound inert.isSound listed with held | other
    · exact .inl (mem_literals_of_mem_protect held)
    · exact .inr (exists_of_mem_replacementLiterals other)

/-- A macro with a literal of its own is given a literal in which a name stands. -/
theorem mem_literals_of_resolve_filled :
    let operations : List Operation := [
      .append default { identifier := "SHOW".toList, real := "PRINT(\"value: \" + x)".toList,
                        parameters := ["x".toList] },
      .append default { identifier := "N".toList, real := "5".toList }]
    let table := (Chronicle.replay 8 operations).table
    let t := "SHOW(\"N\") + N".toList
    (table.resolve {} t).1 = "PRINT(\"value: \" + \"N\") + 5".toList ∧
      ∀ a ∈ literals (table.resolve {} t).1,
        a ∈ literals t ∨ ∃ identity ∈ table.identities, a ∈ literals identity.real := by
  intro operations table t
  refine ⟨by decide +kernel, fun a => mem_literals_of_resolve 8 operations {} t a ?_ (by decide)
    (by decide)⟩
  exact ⟨by decide +kernel, by decide +kernel, by decide +kernel, by decide +kernel,
    by decide +kernel⟩

/-- The literal of a replacement is not protected from the names that are replaced after it. -/
theorem replacement_literal_is_changed :
    let operations : List Operation := [
      .append default { identifier := "A".toList, real := "\"B\"".toList },
      .append default { identifier := "B".toList, real := "C".toList }]
    let table := (Chronicle.replay 8 operations).table
    let t := "A".toList
    (∀ identity ∈ table.identities, identity.HasLegibleName table.namespaceNames ∧
        identity.IsInert) ∧ table.namespaces = [] ∧
      (table.resolve {} t).1 = "\"C\"".toList ∧ "\"C\"".toList ∉ literals t ∧
      ∀ identity ∈ table.identities, "\"C\"".toList ∉ literals identity.real := by
  decide +kernel

end Table

end Alias

end PrimePlus
