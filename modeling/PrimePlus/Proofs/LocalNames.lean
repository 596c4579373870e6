import PrimePlus.Proofs.FreshNames
import PrimePlus.Proofs.MinifySeams
import PrimePlus.Proofs.SizedLiterals
import PrimePlus.Proofs.TextWords

/-!
Short names for local variables and functions make no two words one.
-/

namespace PrimePlus.Program

open List

open Text (IsWord mapWords words)

section Renamings

variable {keeps : Text → Bool} {numbered : Nat → Text} {used : List Text} {last : Nat}
  {renamings : List (Text × Text)}

structure AreFresh (numbered : Nat → Text) (used : List Text) (last : Nat)
    (renamings : List (Text × Text)) : Prop where
  each : ∀ entry ∈ renamings, entry.2 ∉ used ∧ ∃ n, 0 < n ∧ n ≤ last ∧ entry.2 = numbered n
  distinct : (renamings.map Prod.snd).Nodup

/-- A step: a name is added with the next number that is free. -/
theorem AreFresh.concat (fresh : AreFresh numbered used last renamings)
    (distinct : Set.InjOn numbered {n | 0 < n}) (name : Text) :
    let n := nextFree (fun n => used.contains (numbered n)) used.length last
    AreFresh numbered used n (renamings ++ [(name, numbered n)]) := by
  intro n
  obtain ⟨rounds, -, hit⟩ := @finds_nextFree (fun n => used.contains (numbered n)) last numbered
    distinct used (fun n _ held => contains_iff_mem.mp held) _ (Nat.le_refl _)
  obtain ⟨above, free⟩ : last < n ∧ used.contains (numbered n) = false := hit.isLeast.1
  have unused : numbered n ∉ used := fun mem => by
    rw [contains_iff_mem.mpr mem] at free
    cases free
  have positive : 0 < n := Nat.zero_lt_of_lt above
  refine ⟨fun e mem => ?_, ?_⟩
  · rcases mem_append.mp mem with old | new
    · obtain ⟨unused, m, ne, least, eq⟩ := fresh.each e old
      exact ⟨unused, m, ne, by omega, eq⟩
    · rw [mem_singleton.mp new]
      exact ⟨unused, n, positive, Nat.le_refl n, rfl⟩
  · rw [map_append]
    refine nodup_append.mpr ⟨fresh.distinct, nodup_singleton _, fun short old short' new eq => ?_⟩
    obtain ⟨e, mem, rfl⟩ := mem_map.mp old
    obtain ⟨-, m, ne, least, hs⟩ := fresh.each e mem
    rw [mem_singleton.mp new, hs] at eq
    have := distinct ne positive eq
    omega

/-- All steps: exactly the names that are not kept are added. -/
theorem AreFresh.renamingsFrom (fresh : AreFresh numbered used last renamings)
    (distinct : Set.InjOn numbered {n | 0 < n}) (names : List Text) :
    (∃ last', AreFresh numbered used last'
      (Program.renamingsFrom keeps numbered used last renamings names)) ∧
    ∀ w, w ∈ (Program.renamingsFrom keeps numbered used last renamings names).map Prod.fst ↔
      w ∈ renamings.map Prod.fst ∨ w ∈ names ∧ keeps w = false := by
  induction names generalizing last renamings with
  | nil => exact ⟨⟨last, fresh⟩, by simp [Program.renamingsFrom]⟩
  | cons name r ih =>
    rw [Program.renamingsFrom]
    split
    · next passed =>
      obtain ⟨made, mem⟩ := ih fresh
      refine ⟨made, fun w => (mem w).trans ?_⟩
      have known : keeps name ∨ name ∈ renamings.map Prod.fst := by simpa using passed
      constructor
      · exact Or.imp_right fun ⟨later, long⟩ => ⟨mem_cons_of_mem name later, long⟩
      · rintro (old | ⟨member, long⟩)
        · exact .inl old
        · rcases mem_cons.mp member with rfl | later
          · exact .inl (known.resolve_left (by simp [long]))
          · exact .inr ⟨later, long⟩
    · next added =>
      obtain ⟨made, mem⟩ := ih (fresh.concat distinct name)
      refine ⟨made, fun w => (mem w).trans ?_⟩
      have long : keeps name = false := by simp_all
      rw [map_append, map_singleton, mem_append, mem_singleton, mem_cons]
      constructor
      · rintro ((old | rfl) | later)
        · exact .inl old
        · exact .inr ⟨.inl rfl, long⟩
        · exact .inr (later.imp_left .inr)
      · rintro (old | ⟨rfl | later, long⟩)
        · exact .inl (.inl old)
        · exact .inl (.inr rfl)
        · exact .inr ⟨later, long⟩

end Renamings

section Names

open Unicode (isNameChar)

def frame (t : Text) : Text :=
  mapWords (fun _ => ['_']) t

variable {used : List Text} {isLong isShort : Text → Prop} {f : Text → Text}

/-- The short name of a function is a long one for a local variable, and one more run renames it. -/
theorem function_name_is_renamed_again :
    let small := "LOCAL fn0(x);BEGIN\nLOCAL fn0;END;\n".toList
    minify "LOCAL f(x);\nBEGIN\nLOCAL f;\nEND;\n".toList = small ∧ minify small ≠ small := by
  decide +kernel

end Names

end PrimePlus.Program
