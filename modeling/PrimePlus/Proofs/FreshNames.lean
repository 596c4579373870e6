import Mathlib.Data.List.Nodup
import Mathlib.Data.Set.Function
import Mathlib.Order.Bounds.Defs
import PrimePlus.Construct.Naming

/-!
Generated names: the search for a free number ends, and no two of them are the same.
-/

namespace PrimePlus

open List

section Search

/-- The search for a free number behind `last`: it takes a number of rounds, one for each number
that it looks at, and ends at a number. -/
inductive Finds (taken : Nat → Bool) : Nat → Nat → Nat → Prop
  | here {last : Nat} (free : taken (last + 1) = false) : Finds taken last 1 (last + 1)
  | onward {last rounds n : Nat} (passed : taken (last + 1) = true)
    (found : Finds taken (last + 1) rounds n) : Finds taken last (rounds + 1) n

variable {taken : Nat → Bool} {last rounds n : Nat}

theorem Finds.isLeast (hit : Finds taken last rounds n) :
    IsLeast {m | last < m ∧ taken m = false} n := by
  induction hit with
  | here free => exact ⟨⟨Nat.lt_succ_self _, free⟩, fun m least => least.1⟩
  | @onward last rounds n passed hit ih =>
    refine ⟨⟨by have := ih.1.1; omega, ih.1.2⟩, fun m ⟨above, free⟩ => ih.2 ⟨?_, free⟩⟩
    have ho : m ≠ last + 1 := by
      rintro rfl
      cases passed.symm.trans free
    omega

theorem finds_nextFree {name : Nat → Text} (distinct : Set.InjOn name {n | 0 < n})
    {used : List Text} (mem : ∀ n, last < n → taken n → name n ∈ used) {tries : Nat}
    (room : used.length ≤ tries) :
    ∃ rounds ≤ tries + 1, Finds taken last rounds (nextFree taken tries last) := by
  induction tries generalizing last used with
  | zero =>
    refine ⟨1, Nat.le_refl 1, .here (Bool.eq_false_iff.mpr fun passed => ?_)⟩
    have member := mem (last + 1) (Nat.lt_succ_self last) passed
    rw [length_eq_zero_iff.mp (Nat.le_zero.mp room)] at member
    cases member
  | succ tries ih =>
    rw [nextFree]
    split
    · next passed =>
      have member := mem (last + 1) (Nat.lt_succ_self last) passed
      have fewer : (used.erase (name (last + 1))).length ≤ tries := by
        rw [length_erase_of_mem member]
        omega
      -- the name that is passed is not met again
      have others : ∀ n, last + 1 < n → taken n → name n ∈ used.erase (name (last + 1)) := by
        intro n above held
        have ho : name n ≠ name (last + 1) := fun eq => by
          have := distinct (Nat.zero_lt_of_lt above) (Nat.succ_pos last) eq
          omega
        exact (mem_erase_of_ne ho).mpr (mem n (by omega) held)
      obtain ⟨rounds, few, hit⟩ := ih others fewer
      exact ⟨rounds + 1, Nat.succ_le_succ few, .onward passed hit⟩
    · next free => exact ⟨1, by omega, .here (Bool.eq_false_iff.mpr free)⟩

end Search

namespace Numeral

/-- The number that digits of base 32 stand for behind a number. -/
def valueFrom32 (digits : Text) (n : Nat) : Nat :=
  digits.foldl (fun n c => 32 * n + ((range 32).map base32Digit).idxOf c) n

theorem valueFrom32_base32Go (n : Nat) (written : Text) :
    valueFrom32 (base32Go n written) 0 = valueFrom32 written n := by
  have digit : ∀ d < 32, ((range 32).map base32Digit).idxOf (base32Digit d) = d := by decide
  induction n using Nat.strongRecOn generalizing written with
  | ind n ih =>
    rw [base32Go]
    split
    · next zero => rw [zero]
    · next positive =>
      rw [ih (n / 32) (by omega), valueFrom32, foldl_cons, digit _ (Nat.mod_lt n (by decide)),
        Nat.div_add_mod, valueFrom32]

theorem valueFrom32_base32 (n : Nat) : valueFrom32 (base32 n) 0 = n := by
  rw [base32]
  split
  · next zero =>
    rw [zero]
    rfl
  · exact valueFrom32_base32Go n []

theorem base32_injective : Function.Injective base32 :=
  Function.LeftInverse.injective (g := fun digits => valueFrom32 digits 0) valueFrom32_base32

end Numeral

namespace Construct

theorem NameClass.letters_append_inj {cls cls' : NameClass} {n n' : Nat} :
    cls.letters ++ Numeral.base32 n = cls'.letters ++ Numeral.base32 n' ↔ cls = cls' ∧ n = n' := by
  constructor
  · intro eq
    obtain rfl : cls = cls' := by
      cases cls <;> cases cls' <;> simp_all [letters]
    exact ⟨rfl, Numeral.base32_injective (append_cancel_left eq)⟩
  · rintro ⟨rfl, rfl⟩
    rfl

namespace Naming

variable {naming : Naming} {cls : NameClass} {name : Text}

theorem last_setLast (naming : Naming) (n : Nat) (cls cls' : NameClass) :
    (naming.setLast n cls).last cls' = if cls' = cls then n else naming.last cls' := by
  cases cls <;> cases cls' <;> rfl

theorem numbered_injective (cls : NameClass) : Function.Injective (numbered cls) :=
  fun _ _ eq => (NameClass.letters_append_inj.mp eq).2

theorem hasReal_eq_false_iff {tbl : Alias.Table} {real : Text} :
    tbl.hasReal real = false ↔ ∀ ident ∈ tbl.identities, ident.real ≠ real := by
  simp [Alias.Table.hasReal]

theorem exists_finds (naming : Naming) (cls : NameClass) (tbl : Alias.Table) :
    ∃ k rounds, naming.generate cls tbl = (numbered cls k, naming.setLast k cls) ∧
      Finds (fun n => tbl.hasReal (numbered cls n)) (naming.last cls) rounds k ∧
      rounds ≤ tbl.identities.length + 1 := by
  have mem : ∀ n, naming.last cls < n → tbl.hasReal (numbered cls n) →
      numbered cls n ∈ tbl.identities.map Alias.Identity.real := by
    intro n _ held
    obtain ⟨ident, member, eq⟩ := any_eq_true.mp held
    exact mem_map.mpr ⟨ident, member, beq_iff_eq.mp eq⟩
  obtain ⟨rounds, few, hit⟩ := finds_nextFree (numbered_injective cls).injOn mem
    (Nat.le_of_eq (length_map _))
  exact ⟨_, rounds, rfl, hit, few⟩

theorem exists_generate (naming : Naming) (cls : NameClass) (tbl : Alias.Table) :
    ∃ k, naming.generate cls tbl = (numbered cls k, naming.setLast k cls) ∧
      naming.last cls < k ∧ tbl.hasReal (numbered cls k) = false := by
  obtain ⟨k, rounds, generated, hit, -⟩ := naming.exists_finds cls tbl
  exact ⟨k, generated, hit.isLeast.1⟩

def generateAll : Naming → List (NameClass × Alias.Table) → List Text
  | _, [] => []
  | naming, (cls, table) :: rest =>
    (naming.generate cls table).1 :: generateAll (naming.generate cls table).2 rest

theorem exists_of_mem_generateAll {requests : List (NameClass × Alias.Table)}
    (mem : name ∈ naming.generateAll requests) :
    ∃ cls n, name = numbered cls n ∧ naming.last cls < n := by
  induction requests generalizing naming with
  | nil => cases mem
  | cons request r ih =>
    obtain ⟨cls, tbl⟩ := request
    obtain ⟨k, generated, above, -⟩ := naming.exists_generate cls tbl
    rw [generateAll, generated] at mem
    rcases mem_cons.mp mem with rfl | later
    · exact ⟨cls, k, rfl, above⟩
    · obtain ⟨cls', n, rfl, higher⟩ := ih later
      refine ⟨cls', n, rfl, ?_⟩
      rw [last_setLast] at higher
      split at higher
      · next eq =>
        rw [eq]
        omega
      · exact higher

theorem nodup_generateAll (naming : Naming) (requests : List (NameClass × Alias.Table)) :
    (naming.generateAll requests).Nodup := by
  induction requests generalizing naming with
  | nil => exact .nil
  | cons request r ih =>
    obtain ⟨cls, tbl⟩ := request
    obtain ⟨k, generated, -⟩ := naming.exists_generate cls tbl
    rw [generateAll, generated]
    refine nodup_cons.mpr ⟨fun again => ?_, ih _⟩
    obtain ⟨cls', n, eq, higher⟩ := exists_of_mem_generateAll again
    obtain ⟨rfl, rfl⟩ := NameClass.letters_append_inj.mp eq
    rw [last_setLast, if_pos rfl] at higher
    exact Nat.lt_irrefl k higher

/-- A generated name has the least free number, which is found within one round more than there are
identities. Names are different if their classes or their numbers are, so those that are generated
one after another are pairwise distinct. -/
theorem generated_names_are_fresh :
    (∀ (naming : Naming) (cls : NameClass) (table : Alias.Table), ∃ k rounds,
      naming.generate cls table = (cls.letters ++ Numeral.base32 k, naming.setLast k cls) ∧
      Finds (fun n => table.hasReal (cls.letters ++ Numeral.base32 n)) (naming.last cls) rounds k ∧
      rounds ≤ table.identities.length + 1 ∧
      IsLeast {n | naming.last cls < n ∧ ∀ identity ∈ table.identities,
        identity.real ≠ cls.letters ++ Numeral.base32 n} k) ∧
    Function.Injective Numeral.base32 ∧
    (∀ (naming : Naming) (requests : List (NameClass × Alias.Table)),
      (naming.generateAll requests).Nodup) ∧
    ∀ (cls cls' : NameClass) (n n' : Nat),
      cls.letters ++ Numeral.base32 n = cls'.letters ++ Numeral.base32 n' ↔
        cls = cls' ∧ n = n' := by
  refine ⟨fun naming cls table => ?_, Numeral.base32_injective, nodup_generateAll,
    fun _ _ _ _ => NameClass.letters_append_inj⟩
  obtain ⟨k, rounds, generated, found, few⟩ := naming.exists_finds cls table
  refine ⟨k, rounds, generated, found, few, ?_⟩
  have least := found.isLeast
  simp only [hasReal_eq_false_iff] at least
  exact least

end Naming

end Construct

end PrimePlus
