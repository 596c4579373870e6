import PrimePlus.Alias.Resolve
import PrimePlus.Proofs.AliasTable
import PrimePlus.Proofs.LiteralProtection
import PrimePlus.Proofs.NameMatches

/-!
What a qualified name stands for (`Table.resolve_own_name`).
-/

namespace PrimePlus

open List

variable {t : Text}

theorem Lexical.protect_of_literals_nil (free : literals t = []) (st : Store) :
    protect st t = (t, st) := by
  have run {xs : List Part} (free : ∀ t, .literal t ∉ xs) :
      protectParts st xs = (xs.flatMap Part.text, st) := by
    induction xs with
    | nil => rfl
    | cons part r ih =>
      have others := ih fun t mem => free t (mem_cons_of_mem _ mem)
      cases part with
      | code c => rw [protectParts, others] <;> simp
      | literal t => exact absurd mem_cons_self (free t)
      | unclosed t => rw [protectParts, others] <;> simp
  rw [protect, run, flatMap_text_parts]
  intro literal mem
  have absent := filterMap_eq_nil_iff.mp free (.literal literal) mem
  cases absent

theorem Lexical.literals_of_quoteFree (free : '"' ∉ t) : literals t = [] := by
  rw [literals, filterMap_eq_nil_iff]
  induction t with
  | nil => simp [parts, partsFrom]
  | cons c t ih =>
    have other : c ≠ '"' := by
      rintro rfl
      exact free mem_cons_self
    intro part mem
    rw [parts_cons_of_ne other, mem_cons] at mem
    rcases mem with rfl | inner
    · rfl
    · exact ih (mt (mem_cons_of_mem c) free) part inner

/-- A pass that leads to a text it leaves alone is the last one that matters. -/
theorem settle_text_of_pass {pass : Text → Reported Text} {next : Text} (first : (pass t).1 = next)
    (fixed : (pass next).1 = next) {limit : Nat} (ne : 0 < limit) :
    (settle pass limit t).text = next := by
  have stays (limit : Nat) : (settle pass limit next).text = next := by
    cases limit with
    | zero => rfl
    | succ limit =>
      unfold settle
      simp [fixed]
  cases limit with
  | zero => omega
  | succ limit =>
    unfold settle
    dsimp only
    split
    · next eq => exact eq.symm.trans first
    · rw [first]
      exact stays limit

namespace Alias

open Pattern (nameRegexIn unqualified standsAlone qualifier)

variable {e : Entry}

def Identity.IsSimple (identity : Identity) : Prop :=
  Pattern.parse identity.identifier = .name identity.identifier ∧ identity.parameters = []

instance (identity : Identity) : Decidable identity.IsSimple :=
  inferInstanceAs (Decidable (_ ∧ _))

theorem Identity.IsSimple.not_isCall {ident : Identity} (simple : ident.IsSimple) :
    ident.isCall = false := by
  rw [isCall, simple.2]
  rfl

theorem Identity.IsSimple.finder_eq {spaces : List Text} (simple : e.identity.IsSimple)
    (x : Entry.compile? spaces e.identity = some e) :
    e.finder = .regex (nameRegexIn spaces e.identity.identifier) := by
  obtain ⟨finder, hit, eq⟩ := Option.map_eq_some_iff.mp x
  rw [finder?, simple.1] at hit
  simp only [simple.not_isCall, Bool.false_eq_true, if_false, Option.some_inj] at hit
  rw [← eq, ← hit]

namespace Entry

variable {e : Entry} {t : Text}

theorem resolve_of_absent (absent : e.finder.isMatch t = false) (loc : Location) :
    (e.resolve loc t).1 = t := by
  unfold resolve
  rw [absent]
  rfl

theorem resolve_of_uncalled (uncalled : e.identity.isCall = false) (loc : Location) (t : Text) :
    (e.resolve loc t).1 = e.finder.replaceAll t fun _ => e.identity.real := by
  unfold resolve Finder.replaceAll
  cases e.finder.isMatch t <;> simp [uncalled]

theorem resolve_of_takesAll {r : Regex} (expressed : e.finder = .regex r)
    (uncalled : e.identity.isCall = false) (ne : t ≠ [])
    (takes : e.finder.takesAll t) (loc : Location) : (e.resolve loc t).1 = e.identity.real := by
  rw [expressed] at takes
  obtain ⟨hit, hm, whole⟩ := Regex.matchAt_of_takesAll takes
  rw [resolve_of_uncalled uncalled, expressed]
  exact Regex.replaceAll_of_whole ne hm whole _

theorem foldl_of_absent {entries : List Entry}
    (absent : ∀ e ∈ entries, e.finder.isMatch t = false) (loc : Location) :
    entries.foldl (fun t e => (e.resolve loc t).1) t = t := by
  induction entries with
  | nil => rfl
  | cons e r ih =>
    obtain ⟨first, others⟩ := forall_mem_cons.mp absent
    rw [foldl_cons, resolve_of_absent first, ih others]

end Entry

namespace Table

theorem resolveOnce_text (tbl : Table) (loc : Location) (t : Text) :
    (tbl.resolveOnce loc t).1 = tbl.entries.foldl (fun t e => (e.resolve loc t).1) t := by
  unfold resolveOnce
  generalize tbl.entries = entries
  have run (told : List Diagnostic) : (entries.foldl (fun done e =>
      let next := e.resolve loc done.1
      (next.1, done.2 ++ next.2)) (t, told)).1 =
        entries.foldl (fun t e => (e.resolve loc t).1) t := by
    induction entries generalizing t told with
    | nil => rfl
    | cons e r ih => exact ih _ _
  exact run []

/-- Whether an identity is found in a text by the end that a namespace in use leaves of its name. -/
def reaches (table : Table) (identity : Identity) (t : Text) : Bool :=
  unqualified table.namespaceNames identity.identifier != identity.identifier &&
    (nameRegexIn table.namespaceNames identity.identifier).isMatch t

variable {tbl : Table}

theorem WellFormed.ahead (formed : tbl.WellFormed) {u back : List Entry} {own : Entry}
    (parted : tbl.entries = u ++ own :: back) (pre : e ∈ u) :
    own.identity.size ≤ e.identity.size ∧ e.identity.identifier ≠ own.identity.identifier := by
  have falling := formed.falling
  have distinct := formed.distinct
  rw [identities, parted, pairwise_map] at falling
  rw [identities, parted, map_map, nodup_iff_pairwise_ne, pairwise_map] at distinct
  exact ⟨(pairwise_append.mp falling).2.2 e pre own mem_cons_self,
    (pairwise_append.mp distinct).2.2 e pre own mem_cons_self⟩

theorem WellFormed.keepNamespaces (formed : tbl.WellFormed) (keeps : Namespace → Bool) :
    (tbl.keepNamespaces keeps).WellFormed := by
  constructor
  · rw [identities_keepNamespaces]
    exact formed.distinct
  · rw [identities_keepNamespaces]
    exact formed.falling
  · rw [identities_keepNamespaces]
    exact formed.leveled
  · exact tbl.isCompiled_keepNamespaces keeps formed.compiled

theorem IsCompiled.infix_of_isMatch (hc : tbl.IsCompiled) (mem : e ∈ tbl.entries)
    (simple : e.identity.IsSimple) (hit : e.finder.isMatch t) :
    unqualified tbl.namespaceNames e.identity.identifier <:+: t := by
  rw [simple.finder_eq (hc e mem)] at hit
  exact Pattern.infix_of_isMatch hit

theorem resolve_of_resolveOnce (passes : 0 < tbl.maxPasses) (busy : tbl.entries ≠ [])
    {loc : Location} {next : Text} (vis : Text.isBlankText t = false)
    (free : Lexical.literals t = []) (first : (tbl.resolveOnce loc t).1 = next)
    (second : (tbl.resolveOnce loc next).1 = next) : (tbl.resolve loc t).1 = next := by
  unfold resolve
  rw [vis, isEmpty_eq_false_iff.mpr busy, Bool.or_false, if_neg Bool.false_ne_true,
    Lexical.protect_of_literals_nil free]
  dsimp only
  rw [settle_text_of_pass first second passes, Lexical.restore_of_nothing]

/-- A text that an identity takes as a whole is replaced by what the identity stands for, provided
that no identity before it is found in the text, and none at all in the replacement. -/
theorem resolve_of_takesAll (passes : 0 < tbl.maxPasses) {u back : List Entry} {own : Entry}
    (parted : tbl.entries = u ++ own :: back) {r : Regex} (expressed : own.finder = .regex r)
    (uncalled : own.identity.isCall = false) (vis : Text.isBlankText t = false)
    (free : Lexical.literals t = []) (takes : own.finder.takesAll t)
    (untouched : ∀ e ∈ u, e.finder.isMatch t = false)
    (fin : ∀ e ∈ tbl.entries, e.finder.isMatch own.identity.real = false)
    (loc : Location) : (tbl.resolve loc t).1 = own.identity.real := by
  have ne : t ≠ [] := by
    rintro rfl
    cases vis
  have first : (tbl.resolveOnce loc t).1 = own.identity.real := by
    rw [resolveOnce_text, parted, foldl_append, Entry.foldl_of_absent untouched,
      foldl_cons, Entry.resolve_of_takesAll expressed uncalled ne takes]
    exact Entry.foldl_of_absent (fun e v => fin e (by simp [parted, v])) loc
  -- the replacement has no name in it, so a second pass changes nothing
  have second : (tbl.resolveOnce loc own.identity.real).1 = own.identity.real := by
    rw [resolveOnce_text, Entry.foldl_of_absent fin]
  exact resolve_of_resolveOnce passes (by simp [parted]) vis free first second

/-- A name of a table of simple identities that stands alone is replaced as a whole, provided that
no identity before it is found in it by a shortened name, and that no name stands in what it is
replaced by. -/
theorem resolve_own_name (formed : tbl.WellFormed) (passes : 0 < tbl.maxPasses)
    (simple : ∀ o ∈ tbl.identities, o.IsSimple) {ident : Identity}
    (live : ident ∈ tbl.identities) (vis : Text.isBlankText ident.identifier = false)
    (free : Lexical.literals ident.identifier = [])
    (alone : standsAlone tbl.namespaceNames ident.identifier)
    (fin : ∀ o ∈ tbl.identities, ¬unqualified tbl.namespaceNames o.identifier <:+: ident.real)
    (ha : ∀ o ∈ tbl.identities, o.identifier ≠ ident.identifier →
      ident.size ≤ o.size → tbl.reaches o ident.identifier = false)
    (loc : Location) : (tbl.resolve loc ident.identifier).1 = ident.real := by
  obtain ⟨own, mem, rfl⟩ := mem_map.mp live
  obtain ⟨u, back, parted⟩ := append_of_mem mem
  have isLive {e : Entry} (mem : e ∈ tbl.entries) : e.identity ∈ tbl.identities :=
    mem_map_of_mem mem
  have expressed := (simple _ live).finder_eq (formed.compiled own mem)
  refine resolve_of_takesAll passes parted expressed (simple _ live).not_isCall vis free ?_ ?_ ?_
    loc
  · rw [expressed]
    exact Regex.takesAll_of_matchAt (Pattern.matchAt_nameRegexIn alone) rfl
  · intro e pre
    have mem : e ∈ tbl.entries := by simp [parted, pre]
    obtain ⟨long, o⟩ := formed.ahead parted pre
    rw [Bool.eq_false_iff]
    intro hit
    by_cases whole : unqualified tbl.namespaceNames e.identity.identifier = e.identity.identifier
    · -- a name that is not shortened is too long to stand in another one
      have hi := formed.compiled.infix_of_isMatch mem (simple _ (isLive mem)) hit
      rw [whole] at hi
      exact o (hi.sublist.eq_of_length_le long)
    · have missed := ha e.identity (isLive mem) o long
      rw [simple _ (isLive mem) |>.finder_eq (formed.compiled e mem)] at hit
      have reached : tbl.reaches e.identity own.identity.identifier := by
        rw [reaches, Bool.and_eq_true, bne_iff_ne]
        exact ⟨whole, hit⟩
      rw [reached] at missed
      cases missed
  · intro e mem
    rw [Bool.eq_false_iff]
    intro hit
    exact fin e.identity (isLive mem)
      (formed.compiled.infix_of_isMatch mem (simple _ (isLive mem)) hit)

end Table

/-- A qualified name of a table of simple identities stands for what it is replaced by, whatever
namespaces are in use, as long as no other name that is at least as long is found in it by what a
namespace leaves of that name. Without namespaces there is no such condition. -/
theorem qualified_name_keeps_meaning (maxPasses : Nat) (operations : List Operation)
    (location : Location) (identity : Identity) (space name : Text) :
    let table := (Chronicle.replay maxPasses operations).table
    (∀ other ∈ table.identities, other.IsSimple) → identity ∈ table.identities →
    identity.identifier = qualifier space ++ name → Lexical.literals identity.identifier = [] →
    standsAlone [] identity.identifier = true →
    (∀ other ∈ table.identities,
      ¬unqualified table.namespaceNames other.identifier <:+: identity.real) →
    ((table.keepNamespaces fun _ => false).resolve location identity.identifier).1 = identity.real ∧
    (standsAlone table.namespaceNames identity.identifier = true →
      (∀ other ∈ table.identities, other.identifier ≠ identity.identifier →
        identity.size ≤ other.size → table.reaches other identity.identifier = false) →
      (table.resolve location identity.identifier).1 = identity.real) := by
  intro table simple live qualified free alone final
  have formed : table.WellFormed := (Chronicle.wellFormed_replay maxPasses operations).1
  have passes : 0 < table.maxPasses := Chronicle.maxPasses_replay_pos maxPasses operations
  have visible : Text.isBlankText identity.identifier = false := by
    have colon : ':' ∈ identity.identifier := by simp [qualified, qualifier]
    rw [Bool.eq_false_iff]
    intro blank
    exact absurd (all_eq_true.mp blank ':' colon) (by decide)
  constructor
  · have unused : (table.keepNamespaces fun _ => false).namespaceNames = [] := by
      simp [Table.namespaceNames]
    refine Table.resolve_own_name (formed.keepNamespaces _) ?_ ?_ ?_ visible free ?_ ?_ ?_ location
    · rwa [Table.maxPasses_keepNamespaces]
    · rwa [Table.identities_keepNamespaces]
    · rwa [Table.identities_keepNamespaces]
    · rwa [unused]
    · rw [Table.identities_keepNamespaces, unused]
      intro other listed inside
      -- the end of a name stands wherever the name does
      have tail := (Pattern.unqualified_suffix table.namespaceNames other.identifier).isInfix
      exact final other listed (tail.trans inside)
    · intro other _ _ _
      rw [Table.reaches, unused]
      simp [unqualified]
  · intro aloneInUse apart
    exact Table.resolve_own_name formed passes simple live visible free aloneInUse
      final apart location

/-- With a namespace in use, a name of another one, beside a shortened name that is longer. -/
theorem qualified_name_keeps_meaning_beside :
    let operations : List Operation := [
      .append default { identifier := "A::rx".toList, real := "1".toList },
      .append default { identifier := "B::x".toList, real := "2".toList },
      .addNamespace "A".toList 0]
    let table := (Chronicle.replay 8 operations).table
    ((table.keepNamespaces fun _ => false).resolve default "B::x".toList).1 = "2".toList ∧
      (table.resolve default "B::x".toList).1 = "2".toList := by
  intro operations table
  have keeps := qualified_name_keeps_meaning 8 operations default
    { identifier := "B::x".toList, real := "2".toList, scope := .level 0 } "B".toList "x".toList
    (by decide +kernel) (by decide +kernel) (by decide +kernel) (by decide +kernel)
    (by decide +kernel) (by decide +kernel)
  exact ⟨keeps.1, keeps.2 (by decide +kernel) (by decide +kernel)⟩

/-- With a namespace in use, the name of another one is taken apart where its end is the end of a
name of the first: all that is asked of the table without namespaces holds, and with one of them the
name does not stand for its meaning. -/
theorem qualified_name_taken_apart :
    let operations : List Operation := [
      .append default { identifier := "A::x".toList, real := "1".toList },
      .append default { identifier := "B::x".toList, real := "2".toList },
      .addNamespace "A".toList 0]
    let table := (Chronicle.replay 8 operations).table
    let identity : Identity :=
      { identifier := "B::x".toList, real := "2".toList, scope := .level 0 }
    (∀ other ∈ table.identities, other.IsSimple) ∧ identity ∈ table.identities ∧
      (∀ other ∈ table.identities,
        ¬unqualified table.namespaceNames other.identifier <:+: identity.real) ∧
      ((table.keepNamespaces fun _ => false).resolve default identity.identifier).1 = "2".toList ∧
      (table.resolve default identity.identifier).1 = "B::1".toList := by
  decide +kernel

end Alias

end PrimePlus
