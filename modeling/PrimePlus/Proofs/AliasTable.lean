import Mathlib.Data.List.Induction
import Mathlib.Data.List.Perm.Basic
import PrimePlus.Alias.Table

/-!
What the operations of the table do to the identities in force. Every table that they lead to has
distinct names, by falling length.
-/

namespace PrimePlus

open List

section InsertBySize

variable {α β : Type} (size : α → Nat)

theorem insertBySize_perm (a : α) (l : List α) : (insertBySize size a l).Perm (a :: l) := by
  induction l with
  | nil => exact Perm.refl _
  | cons b r ih =>
    simp only [insertBySize]
    split
    · exact (ih.cons b).trans (Perm.swap a b r)
    · exact Perm.refl _

@[simp] theorem mem_insertBySize {a b : α} {l : List α} :
    b ∈ insertBySize size a l ↔ b = a ∨ b ∈ l := by
  rw [(insertBySize_perm size a l).mem_iff, mem_cons]

theorem map_insertBySize (f : β → α) (b : β) (l : List β) :
    (insertBySize (fun x => size (f x)) b l).map f = insertBySize size (f b) (l.map f) := by
  induction l with
  | nil => rfl
  | cons c r ih =>
    simp only [insertBySize, map_cons]
    split
    · rw [map_cons, ih]
    · rfl

theorem insertBySize_pairwise (a : α) (l : List α)
    (falling : l.Pairwise fun earlier later => size later ≤ size earlier) :
    (insertBySize size a l).Pairwise fun earlier later => size later ≤ size earlier := by
  induction l with
  | nil => exact pairwise_singleton _ a
  | cons b r ih =>
    obtain ⟨head, tail⟩ := pairwise_cons.mp falling
    simp only [insertBySize]
    split
    · next fits =>
      refine pairwise_cons.mpr ⟨?_, ih tail⟩
      intro c mem
      rcases (mem_insertBySize size).mp mem with rfl | mem
      · exact fits
      · exact head c mem
    · next larger =>
      refine pairwise_cons.mpr ⟨?_, falling⟩
      intro c mem
      rcases mem_cons.mp mem with rfl | mem
      · omega
      · have below := head c mem
        omega

theorem filter_insertBySize_of_not (keeps : α → Bool) (a : α) (l : List α)
    (dropped : keeps a = false) : (insertBySize size a l).filter keeps = l.filter keeps := by
  induction l with
  | nil => simp [dropped]
  | cons b r ih =>
    simp only [insertBySize]
    split
    · simp only [filter_cons, ih]
    · simp [dropped]

theorem filter_size_insertBySize (a : α) (l : List α)
    (falling : l.Pairwise fun earlier later => size later ≤ size earlier) (n : Nat) :
    (insertBySize size a l).filter (fun x => size x == n) =
      (l ++ [a]).filter fun x => size x == n := by
  by_cases o : size a = n
  · induction l with
    | nil => rfl
    | cons b r ih =>
      obtain ⟨head, tail⟩ := pairwise_cons.mp falling
      simp only [insertBySize]
      split
      · simp only [filter_cons, cons_append, ih tail]
      · next larger =>
        -- everything from here on is smaller than the new element, so no other one has its size
        have smaller : ∀ c ∈ b :: r, ¬(size c == n) := by
          intro c mem
          rcases mem_cons.mp mem with rfl | mem
          · simp only [beq_iff_eq]
            omega
          · have below := head c mem
            simp only [beq_iff_eq]
            omega
        have none : (b :: r).filter (fun x => size x == n) = [] := filter_eq_nil_iff.mpr smaller
        rw [filter_append, filter_cons, none]
        simp [o]
  · have dropped : (size a == n) = false := by simpa using o
    rw [filter_insertBySize_of_not size _ a l dropped]
    simp [o]

end InsertBySize

namespace Alias

theorem Entry.compile?_identity {spaces : List Text} {identity : Identity} {e : Entry}
    (compiled : compile? spaces identity = some e) : e.identity = identity := by
  obtain ⟨finder, -, rfl⟩ := Option.map_eq_some_iff.mp compiled
  rfl

/-- Whether an identity can be compiled does not depend on the namespaces in use: a name always can,
and they have no part in a pattern between backticks. -/
theorem Entry.compile?_isSome (spaces others : List Text) (ident : Identity) :
    (compile? spaces ident).isSome = (compile? others ident).isSome := by
  simp only [compile?, Identity.finder?]
  cases Pattern.parse ident.identifier with
  | name t => rfl
  | verbatim t => rfl

namespace Table

def IsCompiled (table : Table) : Prop :=
  ∀ entry ∈ table.entries, Entry.compile? table.namespaceNames entry.identity = some entry

@[simp] theorem identities_recompile (tbl : Table) : tbl.recompile.identities = tbl.identities := by
  simp only [identities, recompile, map_map]
  apply map_congr_left
  intro e _
  simp only [Function.comp_apply]
  cases compiled : Entry.compile? tbl.namespaceNames e.identity with
  | none => rfl
  | some next => exact Entry.compile?_identity compiled

@[simp] theorem namespaces_recompile (tbl : Table) : tbl.recompile.namespaces = tbl.namespaces :=
  rfl

theorem isCompiled_recompile (tbl : Table)
    (formed : ∀ e ∈ tbl.entries, ∃ spaces, Entry.compile? spaces e.identity = some e) :
    tbl.recompile.IsCompiled := by
  intro e member
  obtain ⟨prior, priorMember, rfl⟩ := mem_map.mp member
  obtain ⟨spaces, compiled⟩ := formed prior priorMember
  have valid : (Entry.compile? tbl.namespaceNames prior.identity).isSome := by
    rw [Entry.compile?_isSome tbl.namespaceNames spaces, compiled]
    rfl
  obtain ⟨next, again⟩ := Option.isSome_iff_exists.mp valid
  rw [again, Option.getD_some, Entry.compile?_identity again]
  exact again

@[simp] theorem identities_keepNamespaces (tbl : Table) (keeps : Namespace → Bool) :
    (tbl.keepNamespaces keeps).identities = tbl.identities := by
  unfold keepNamespaces
  dsimp only
  split
  · rfl
  · rw [identities_recompile]
    rfl

@[simp] theorem namespaces_keepNamespaces (tbl : Table) (keeps : Namespace → Bool) :
    (tbl.keepNamespaces keeps).namespaces = tbl.namespaces.filter keeps := by
  unfold keepNamespaces
  dsimp only
  split
  · rfl
  · rw [namespaces_recompile]

@[simp] theorem maxPasses_keepNamespaces (tbl : Table) (keeps : Namespace → Bool) :
    (tbl.keepNamespaces keeps).maxPasses = tbl.maxPasses := by
  unfold keepNamespaces
  dsimp only
  split <;> rfl

theorem isCompiled_keepNamespaces (tbl : Table) (keeps : Namespace → Bool)
    (hc : tbl.IsCompiled) : (tbl.keepNamespaces keeps).IsCompiled := by
  unfold keepNamespaces
  dsimp only
  split
  · next eq =>
    have all : tbl.namespaces.filter keeps = tbl.namespaces := filter_sublist.eq_of_length eq
    intro e mem
    simp only [all]
    exact hc e mem
  · apply isCompiled_recompile
    intro e mem
    exact ⟨tbl.namespaceNames, hc e mem⟩

theorem isCompiled_of_subset (tbl : Table) (entries : List Entry)
    (subset : ∀ e ∈ entries, e ∈ tbl.entries) (hc : tbl.IsCompiled) :
    IsCompiled { tbl with entries := entries } := by
  intro e mem
  exact hc e (subset e mem)

@[simp] theorem identities_purge (tbl : Table) (depth : Nat) :
    (tbl.purge depth).identities = tbl.identities.filter fun ident => ident.level ≤ depth := by
  unfold purge
  rw [identities_keepNamespaces]
  simp only [identities, filter_map]
  rfl

@[simp] theorem namespaces_purge (tbl : Table) (depth : Nat) :
    (tbl.purge depth).namespaces = tbl.namespaces.filter fun space => space.level ≤ depth := by
  unfold purge
  rw [namespaces_keepNamespaces]

@[simp] theorem identities_purgeKind (tbl : Table) (kind : Kind) :
    (tbl.purgeKind kind).identities = tbl.identities.filter fun ident => ident.kind != kind := by
  simp only [identities, filter_map]
  rfl

@[simp] theorem identities_addNamespace (tbl : Table) (n : Text) (d : Nat) :
    (tbl.addNamespace n d).identities = tbl.identities := by
  unfold addNamespace
  dsimp only
  split
  · rfl
  · rw [identities_recompile]
    rfl

@[simp] theorem identities_removeNamespace (tbl : Table) (n : Text) :
    (tbl.removeNamespace n).identities = tbl.identities := by
  unfold removeNamespace
  rw [identities_keepNamespaces]

theorem identities_remove (tbl : Table) (identifier : Text)
    (distinct : (tbl.identities.map Identity.identifier).Nodup) :
    (tbl.remove identifier).identities =
      tbl.identities.filter fun ident => ident.identifier != identifier := by
  have erased : (tbl.remove identifier).identities =
      tbl.identities.eraseP fun ident => ident.identifier == identifier := by
    simp only [identities, eraseP_map]
    rfl
  rw [erased]
  generalize tbl.identities = xs at distinct
  induction xs with
  | nil => rfl
  | cons ident r ih =>
    obtain ⟨fresh, distinct⟩ := nodup_cons.mp distinct
    by_cases eq : ident.identifier = identifier
    · have others : ∀ o ∈ r, (o.identifier != identifier) := by
        intro o mem
        rw [bne_iff_ne, ← eq]
        intro equal
        exact fresh (mem_map.mpr ⟨o, mem, equal⟩)
      simp [eq, filter_eq_self.mpr others]
    · simp [eq, ih distinct]

theorem scope_declaredAt (site : Site) (ident : Identity) :
    (ident.declaredAt site).scope =
      .level (match ident.scope with
        | .auto => site.depth
        | .level n => n) := by
  unfold Identity.declaredAt
  dsimp only
  split
  · split <;> cases ident.scope <;> rfl
  · cases ident.scope <;> rfl

/-- An identity that is offered is either refused, and nothing changes, or put in its place among
the others, none of which has its name. -/
theorem offer_cases (tbl : Table) (site : Site) (ident : Identity) :
    ((tbl.offer site ident).1 = tbl ∧ (tbl.offer site ident).2.1 = false) ∨
    ∃ e, Entry.compile? tbl.namespaceNames (ident.declaredAt site) = some e ∧
      (ident.declaredAt site).identifier ∉ tbl.identities.map Identity.identifier ∧
      (tbl.offer site ident).2.1 ∧
      (tbl.offer site ident).1 =
        { tbl with entries := insertBySize (fun e => e.identity.size) e tbl.entries } := by
  unfold offer append
  dsimp only
  by_cases unnamed : (Text.trim ident.identifier).isEmpty
  · exact Or.inl (by simp [unnamed])
  cases hit : tbl.get? (ident.declaredAt site).identifier with
  | some prior => exact Or.inl (by simp [unnamed])
  | none =>
    cases hc : Entry.compile? tbl.namespaceNames (ident.declaredAt site) with
    | none => exact Or.inl (by simp [unnamed])
    | some e =>
      have fresh : (ident.declaredAt site).identifier ∉ tbl.identities.map Identity.identifier := by
        intro mem
        obtain ⟨prior, priorMember, eq⟩ := mem_map.mp mem
        have refused := find?_eq_none.mp hit prior priorMember
        exact refused (by simpa using eq)
      exact Or.inr ⟨e, rfl, fresh, by simp [unnamed], by simp [unnamed]⟩

end Table

open Identity (identifier size)

inductive Operation where
  | append (site : Site) (identity : Identity)
  | remove (identifier : Text)
  | purge (depth : Nat)
  | purgeKind (kind : Kind)
  | addNamespace (name : Text) (depth : Nat)
  | removeNamespace (name : Text)

namespace Table

def after (table : Table) : Operation → Table
  | .append site identity => (table.offer site identity).1
  | .remove identifier => table.remove identifier
  | .purge depth => table.purge depth
  | .purgeKind kind => table.purgeKind kind
  | .addNamespace name depth => table.addNamespace name depth
  | .removeNamespace name => table.removeNamespace name

/-- What holds of every table that operations lead to. -/
structure WellFormed (table : Table) : Prop where
  distinct : (table.identities.map identifier).Nodup
  falling : table.identities.Pairwise fun earlier later => later.size ≤ earlier.size
  leveled : ∀ identity ∈ table.identities, identity.scope ≠ .auto
  compiled : table.IsCompiled

theorem trim_ne_nil_of_offer {tbl : Table} {site : Site} {ident : Identity}
    (taken : (tbl.offer site ident).2.1) : Text.trim ident.identifier ≠ [] := by
  intro missed
  rw [offer, append, missed] at taken
  cases taken

/-- An operation on a table with distinct names keeps some of the identities as they stand, or it
declares one with a new name and puts it in its place. -/
theorem identities_after (tbl : Table)
    (distinct : (tbl.identities.map identifier).Nodup) (op : Operation) :
    (∃ keeps : Identity → Bool,
      (tbl.after op).identities = tbl.identities.filter keeps) ∨
    ∃ site given, op = .append site given ∧ Text.trim given.identifier ≠ [] ∧
      (given.declaredAt site).identifier ∉ tbl.identities.map identifier ∧
      (tbl.after op).identities = insertBySize size (given.declaredAt site) tbl.identities := by
  have unchanged (next : Table) (eq : next.identities = tbl.identities) :
      ∃ keeps : Identity → Bool, next.identities = tbl.identities.filter keeps :=
    ⟨fun _ => true, by rw [eq, filter_true]⟩
  cases op with
  | append site ident =>
    rcases tbl.offer_cases site ident with ⟨eq, -⟩ | ⟨e, hc, fresh, taken, next⟩
    · exact Or.inl (unchanged _ (by rw [after, eq]))
    · refine Or.inr ⟨site, ident, rfl, trim_ne_nil_of_offer taken, fresh, ?_⟩
      rw [after, next, ← Entry.compile?_identity hc]
      exact map_insertBySize size Entry.identity e tbl.entries
  | remove identifier => exact Or.inl ⟨_, tbl.identities_remove identifier distinct⟩
  | purge d => exact Or.inl ⟨_, tbl.identities_purge d⟩
  | purgeKind kind => exact Or.inl ⟨_, tbl.identities_purgeKind kind⟩
  | addNamespace n d =>
    exact Or.inl (unchanged _ (tbl.identities_addNamespace n d))
  | removeNamespace n => exact Or.inl (unchanged _ (tbl.identities_removeNamespace n))

theorem isCompiled_after (tbl : Table) (hc : tbl.IsCompiled) (op : Operation) :
    (tbl.after op).IsCompiled := by
  cases op with
  | append site ident =>
    rcases tbl.offer_cases site ident with ⟨eq, -⟩ | ⟨e, fits, -, -, next⟩
    · rw [after, eq]
      exact hc
    · rw [after, next]
      intro o mem
      rcases (mem_insertBySize _).mp mem with rfl | mem
      · rw [Entry.compile?_identity fits]
        exact fits
      · exact hc o mem
  | remove identifier =>
    exact tbl.isCompiled_of_subset _ (fun _ mem => mem_of_mem_eraseP mem) hc
  | purge d =>
    apply isCompiled_keepNamespaces
    exact tbl.isCompiled_of_subset _ (fun _ mem => mem_of_mem_filter mem) hc
  | purgeKind kind =>
    exact tbl.isCompiled_of_subset _ (fun _ mem => mem_of_mem_filter mem) hc
  | addNamespace n d =>
    rw [after, addNamespace]
    split
    · exact hc
    · apply isCompiled_recompile
      intro e mem
      exact ⟨tbl.namespaceNames, hc e mem⟩
  | removeNamespace n => exact tbl.isCompiled_keepNamespaces _ hc

theorem maxPasses_after (tbl : Table) (op : Operation) :
    (tbl.after op).maxPasses = tbl.maxPasses := by
  cases op with
  | append site ident =>
    rcases tbl.offer_cases site ident with ⟨eq, -⟩ | ⟨e, -, -, -, next⟩
    · rw [after, eq]
    · rw [after, next]
  | remove identifier => rfl
  | purge d => exact maxPasses_keepNamespaces _ _
  | purgeKind kind => rfl
  | addNamespace n d =>
    rw [after, addNamespace]
    split <;> rfl
  | removeNamespace n => exact tbl.maxPasses_keepNamespaces _

theorem WellFormed.after {tbl : Table} (formed : tbl.WellFormed) (op : Operation) :
    (tbl.after op).WellFormed := by
  have hc := tbl.isCompiled_after formed.compiled op
  rcases tbl.identities_after formed.distinct op with
    ⟨keeps, next⟩ | ⟨site, given, -, -, unused, next⟩
  · have kept : ((tbl.after op).identities).Sublist tbl.identities := by
      rw [next]
      exact filter_sublist
    exact {
      distinct := formed.distinct.sublist (kept.map identifier)
      falling := formed.falling.sublist kept
      leveled := fun ident mem => formed.leveled ident (kept.subset mem)
      compiled := hc }
  · have arranged := insertBySize_perm size (given.declaredAt site) tbl.identities
    refine {
      distinct := ?_
      falling := ?_
      leveled := ?_
      compiled := hc }
    · rw [next, (arranged.map identifier).nodup_iff, map_cons, nodup_cons]
      exact ⟨unused, formed.distinct⟩
    · rw [next]
      exact insertBySize_pairwise size _ tbl.identities formed.falling
    · intro ident mem
      rw [next, mem_insertBySize] at mem
      rcases mem with rfl | mem
      · rw [scope_declaredAt]
        exact Scope.noConfusion
      · exact formed.leveled ident mem

end Table

/-- A table with the identities in force in the order of their arrival. -/
structure Chronicle where
  table : Table
  arrived : List Identity

namespace Chronicle

def start (maxPasses : Nat) : Chronicle :=
  ⟨Table.empty maxPasses, []⟩

/-- The chronicle after an operation. Identities that are still in force keep their places, and
those that were not in force before come last. -/
def step (log : Chronicle) (operation : Operation) : Chronicle :=
  let next := log.table.after operation
  ⟨next, (log.arrived.filter fun identity => identity ∈ next.identities) ++
    next.identities.filter fun identity => identity ∉ log.arrived⟩

def replay (maxPasses : Nat) (operations : List Operation) : Chronicle :=
  operations.foldl step (start maxPasses)

def IsInOrder (log : Chronicle) : Prop :=
  ∀ n, log.table.identities.filter (fun identity => identity.size == n) =
    log.arrived.filter fun identity => identity.size == n

variable {log : Chronicle}

section

variable (inOrder : log.IsInOrder)

include inOrder

theorem IsInOrder.mem_arrived (ident : Identity) :
    ident ∈ log.arrived ↔ ident ∈ log.table.identities := by
  have eq := congrArg (ident ∈ ·) (inOrder ident.size)
  simpa using eq.symm

theorem IsInOrder.arrived_of_keeps (op : Operation) (keeps : Identity → Bool)
    (next : (log.table.after op).identities = log.table.identities.filter
      keeps) : (log.step op).arrived = log.arrived.filter keeps := by
  have newcomers : ((log.table.after op).identities.filter
      fun ident => decide (ident ∉ log.arrived)) = [] := by
    rw [filter_eq_nil_iff, next]
    intro ident mem
    have present := (inOrder.mem_arrived ident).mpr (mem_of_mem_filter mem)
    simp [present]
  have stayers : (log.arrived.filter
      fun ident => decide (ident ∈ (log.table.after op).identities)) =
      log.arrived.filter keeps := by
    apply filter_congr
    intro ident mem
    have present := (inOrder.mem_arrived ident).mp mem
    simp [next, present]
  simp only [step, newcomers, stayers, append_nil]

theorem IsInOrder.arrived_of_fresh (op : Operation) (fresh : Identity)
    (absent : fresh ∉ log.table.identities)
    (next : (log.table.after op).identities = insertBySize size fresh
      log.table.identities) :
    (log.step op).arrived = log.arrived ++ [fresh] := by
  have single : ((fresh :: log.table.identities).filter
      fun ident => decide (ident ∉ log.arrived)) = [fresh] := by
    rw [filter_cons_of_pos (by simpa [inOrder.mem_arrived] using absent)]
    congr 1
    rw [filter_eq_nil_iff]
    intro ident mem
    simp [inOrder.mem_arrived, mem]
  have newcomers : ((log.table.after op).identities.filter
      fun ident => decide (ident ∉ log.arrived)) = [fresh] := by
    rw [next, ← perm_singleton, ← single]
    exact (insertBySize_perm size fresh log.table.identities).filter _
  have stayers : (log.arrived.filter
      fun ident => decide (ident ∈ (log.table.after op).identities)) =
      log.arrived := by
    rw [filter_eq_self]
    intro ident mem
    have present := (inOrder.mem_arrived ident).mp mem
    simp [next, present]
  simp only [step, newcomers, stayers]

theorem IsInOrder.step (formed : log.table.WellFormed) (operation : Operation) :
    (log.step operation).IsInOrder := by
  intro n
  have tbl : (log.step operation).table = log.table.after operation := rfl
  rcases log.table.identities_after formed.distinct operation with
    ⟨keeps, next⟩ | ⟨site, given, -, -, unused, next⟩
  · rw [inOrder.arrived_of_keeps operation keeps next, tbl, next, filter_comm,
      inOrder n, filter_comm]
  · have absent : given.declaredAt site ∉ log.table.identities := by
      intro mem
      exact unused (mem_map_of_mem mem)
    rw [inOrder.arrived_of_fresh operation _ absent next, tbl, next,
      filter_size_insertBySize _ _ _ formed.falling, filter_append, filter_append,
      inOrder n]

end

theorem wellFormed_replay (maxPasses : Nat) (operations : List Operation) :
    (replay maxPasses operations).table.WellFormed ∧ (replay maxPasses operations).IsInOrder := by
  have base : (start maxPasses).table.WellFormed ∧ (start maxPasses).IsInOrder := by
    refine ⟨⟨nodup_nil, Pairwise.nil, ?_, ?_⟩, fun n => rfl⟩
    · intro ident mem
      exact absurd mem not_mem_nil
    · intro e mem
      exact absurd mem not_mem_nil
  exact foldlRecOn (motive := fun log => log.table.WellFormed ∧ log.IsInOrder)
    operations step base fun _ held op _ => ⟨held.1.after op, held.2.step held.1 op⟩

theorem maxPasses_replay_pos (maxPasses : Nat) (operations : List Operation) :
    0 < (replay maxPasses operations).table.maxPasses := by
  have base : 0 < (start maxPasses).table.maxPasses := Nat.le_max_left 1 maxPasses
  refine foldlRecOn (motive := fun log => 0 < log.table.maxPasses) operations step base
    fun log held op _ => ?_
  exact Nat.lt_of_lt_of_eq held (log.table.maxPasses_after op).symm

theorem exists_append_of_mem {maxPasses : Nat} {operations : List Operation} {ident : Identity}
    (live : ident ∈ (replay maxPasses operations).table.identities) :
    ∃ site given, Operation.append site given ∈ operations ∧
      Text.trim given.identifier ≠ [] ∧ ident = given.declaredAt site := by
  induction operations using reverseRecOn with
  | nil => exact absurd live not_mem_nil
  | append_singleton operations op ih =>
    have formed := (wellFormed_replay maxPasses operations).1
    rw [replay, foldl_append] at live
    rcases (replay maxPasses operations).table.identities_after formed.distinct op with
      ⟨keeps, next⟩ | ⟨site, given, rfl, hn, -, next⟩
    · have kept : ident ∈ (replay maxPasses operations).table.identities.filter keeps := next ▸ live
      obtain ⟨site, given, mem, r⟩ := ih (mem_of_mem_filter kept)
      exact ⟨site, given, by simp [mem], r⟩
    · have placed : ident ∈ insertBySize size (given.declaredAt site)
          (replay maxPasses operations).table.identities := next ▸ live
      rcases (mem_insertBySize _).mp placed with rfl | prior
      · exact ⟨site, given, by simp, hn, rfl⟩
      · obtain ⟨site, given, mem, r⟩ := ih prior
        exact ⟨site, given, by simp [mem], r⟩

end Chronicle

/-- The table that any operations lead to from an empty one: names are distinct, identities stand by
falling length and within one length in the order of their arrival, each has a level and is kept
with what finds it under the namespaces in use now; and an identity that is refused there leaves
entries and namespaces as they were. -/
theorem table_invariant (maxPasses : Nat) (operations : List Operation) :
    (Chronicle.replay maxPasses operations).table.WellFormed ∧
    (Chronicle.replay maxPasses operations).IsInOrder ∧
    ∀ (site : Site) (identity : Identity),
      ((Chronicle.replay maxPasses operations).table.offer site identity).2.1 = false →
      ((Chronicle.replay maxPasses operations).table.offer site identity).1.entries =
        (Chronicle.replay maxPasses operations).table.entries ∧
      ((Chronicle.replay maxPasses operations).table.offer site identity).1.namespaces =
        (Chronicle.replay maxPasses operations).table.namespaces := by
  obtain ⟨formed, inOrder⟩ := Chronicle.wellFormed_replay maxPasses operations
  refine ⟨formed, inOrder, ?_⟩
  intro site identity refused
  rcases Table.offer_cases _ site identity with ⟨same, -⟩ | ⟨_, -, -, taken, -⟩
  · rw [same]
    exact ⟨rfl, rfl⟩
  · rw [taken] at refused
    exact Bool.noConfusion refused

/-- A member that comes after a shorter name and before a namespace stands first, and its name is
refused from then on. -/
theorem table_invariant_member :
    let operations : List Operation := [.append default { identifier := "x".toList, real := [] },
      .append default { identifier := "_yy".toList, real := [] }, .addNamespace "N".toList 1]
    let table := (Chronicle.replay 8 operations).table
    let again : Identity := { identifier := "yy".toList, real := "z".toList }
    table.identities.map identifier = ["yy".toList, "x".toList] ∧
      (table.offer default again).2.1 = false ∧
      (table.offer default again).1.entries = table.entries := by
  intro operations table again
  have refused : (table.offer default again).2.1 = false := by decide
  exact ⟨by decide, refused, ((table_invariant 8 operations).2.2 default again refused).1⟩

end Alias

end PrimePlus
