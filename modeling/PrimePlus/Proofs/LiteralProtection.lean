import PrimePlus.Lexical.Literal
import PrimePlus.Proofs.Seams

/-!
Taking the literals out of a text and putting them back. That all placeholders are whole is a seamed
property.
-/

namespace PrimePlus.Lexical

open List
open Part (text)

variable {t : Text} {c : Char}

section Placeholder

variable {d : Nat} {t : Text}

theorem markedDigit?_markedDigit (small : d < 16) : markedDigit? (markedDigit d) = some d := by
  have each : ∀ d < 16, markedDigit? (markedDigit d) = some d := by decide
  exact each d small

theorem markedDigit_ne_quote (small : d < 16) : markedDigit d ≠ '"' := by
  have each : ∀ d < 16, markedDigit d ≠ '"' := by decide
  exact each d small

theorem markedDigitsGo_eq_append (n : Nat) (written : Text) :
    markedDigitsGo n written = markedDigitsGo n [] ++ written := by
  induction n using Nat.strongRecOn generalizing written with
  | ind n ih =>
    unfold markedDigitsGo
    split
    · rfl
    · next large =>
      rw [ih (n / 16) (by omega), ih (n / 16) (by omega) [markedDigit (n % 16)],
        append_assoc, singleton_append]

theorem placeholder_eq (index : Nat) :
    placeholder index = '"' :: marker :: (markedDigitsGo index [] ++ ['"']) := by
  rw [placeholder, markedDigitsGo_eq_append]

theorem markedNumber?_cons (small : d < 16) (value : Nat) (seen : Bool) (r : Text) :
    markedNumber? value seen (markedDigit d :: r) =
      (markedNumber? (16 * value + d) true r).map fun hit => (hit.1, hit.2 + 1) := by
  have ho : ¬(markedDigit d = '"' && seen) := by
    simp [markedDigit_ne_quote small]
  rw [markedNumber?, if_neg ho, markedDigit?_markedDigit small]
  rfl

theorem markedNumber?_append (n : Nat) (seen : Bool) (r : Text) :
    markedNumber? 0 seen (markedDigitsGo n [] ++ r) =
      (markedNumber? n true r).map fun hit => (hit.1, hit.2 + (markedDigitsGo n []).length) := by
  induction n using Nat.strongRecOn generalizing seen r with
  | ind n ih =>
    unfold markedDigitsGo
    split
    · next small =>
      rw [singleton_append, markedNumber?_cons small, Nat.zero_add]
      rfl
    · next large =>
      have smaller : n / 16 < n := by omega
      rw [markedDigitsGo_eq_append, append_assoc, ih _ smaller, singleton_append,
        markedNumber?_cons (Nat.mod_lt n (by decide)), Nat.div_add_mod, Option.map_map,
        length_append]
      congr 1
      funext hit
      simp only [Function.comp, length_singleton, Nat.add_assoc, Nat.add_comm 1]

theorem placeholder?_append (index : Nat) (r : Text) :
    placeholder? (placeholder index ++ r) = some (index, (placeholder index).length) := by
  rw [placeholder_eq, cons_append, cons_append, append_assoc]
  simp only [placeholder?, if_true, markedNumber?_append, singleton_append, markedNumber?,
    decide_true, Bool.and_self, Option.map_some, length_cons, length_append,
    length_nil]
  congr 2
  omega

theorem exists_of_placeholder? {hit : Nat × Nat} (read : placeholder? t = some hit) :
    ∃ rest, t = '"' :: marker :: rest := by
  unfold placeholder? at read
  split at read
  · next c rest =>
    split at read
    · next marked => exact ⟨rest, by rw [marked]⟩
    · cases read
  · cases read

theorem length_pos_of_placeholder? {i length : Nat}
    (read : placeholder? t = some (i, length)) : 0 < length := by
  unfold placeholder? at read
  split at read
  · split at read
    · obtain ⟨hit, -, eq⟩ := Option.map_eq_some_iff.mp read
      cases eq
      exact Nat.succ_pos _
    · cases read
  · cases read

theorem placeholder?_eq_none (hu : marker ∉ t) : placeholder? t = none := by
  cases read : placeholder? t with
  | none => rfl
  | some hit =>
    obtain ⟨rest, rfl⟩ := exists_of_placeholder? read
    simp at hu

end Placeholder

section Parts

def IsLiteral (t : Text) : Prop :=
  ∃ body, t = '"' :: body ∧ literalLength? false body = some body.length

def IsUnclosed (t : Text) : Prop :=
  ∃ body, t = '"' :: body ∧ literalLength? false body = none

inductive Cut : List Part → Prop where
  | nil : Cut []
  | code {c : Char} {rest : List Part} : c ≠ '"' → Cut rest → Cut (.code c :: rest)
  | literal {t : Text} {rest : List Part} : IsLiteral t → Cut rest → Cut (.literal t :: rest)
  | unclosed {t : Text} : IsUnclosed t → Cut [.unclosed t]

theorem literalLength?_take {escaped : Bool} {n : Nat} (hc : literalLength? escaped t = some n) :
    n ≤ t.length ∧ literalLength? escaped (t.take n) = some n := by
  induction t generalizing escaped n with
  | nil => simp [literalLength?] at hc
  | cons c r ih =>
    cases escaped with
    | true =>
      simp only [literalLength?, Option.map_eq_some_iff] at hc
      obtain ⟨m, inner, rfl⟩ := hc
      obtain ⟨le, eq⟩ := ih inner
      exact ⟨Nat.succ_le_succ le, by simp [literalLength?, eq]⟩
    | false =>
      rw [literalLength?] at hc
      split at hc
      · next quote =>
        cases hc
        exact ⟨by simp, by simp [literalLength?, quote]⟩
      · next o =>
        obtain ⟨m, inner, rfl⟩ := Option.map_eq_some_iff.mp hc
        obtain ⟨le, eq⟩ := ih inner
        exact ⟨Nat.succ_le_succ le, by simp [literalLength?, o, eq]⟩

theorem cut_partsFrom (skip : Nat) (t : Text) : Cut (partsFrom skip t) := by
  induction t generalizing skip with
  | nil =>
    cases skip <;> exact .nil
  | cons c r ih =>
    cases skip with
    | succ skip => exact ih skip
    | zero =>
      rw [partsFrom]
      split
      · next quote =>
        split
        · next n hc =>
          obtain ⟨le, eq⟩ := literalLength?_take hc
          refine .literal ⟨r.take n, by rw [quote], ?_⟩ (ih n)
          rw [eq, length_take, Nat.min_eq_left le]
        · next unclosed => exact .unclosed ⟨r, by rw [quote], unclosed⟩
      · next o => exact .code o (ih 0)

theorem cut_parts (t : Text) : Cut (parts t) :=
  cut_partsFrom 0 t

theorem flatMap_text_partsFrom (skip : Nat) (t : Text) :
    (partsFrom skip t).flatMap text = t.drop skip := by
  induction t generalizing skip with
  | nil => cases skip <;> rfl
  | cons c r ih =>
    cases skip with
    | succ skip => exact ih skip
    | zero =>
      rw [partsFrom]
      split
      · split
        · next n hc =>
          rw [flatMap_cons, ih, text, cons_append, take_append_drop]
          rfl
        · simp [text]
      · rw [flatMap_cons, ih]
        rfl

theorem flatMap_text_parts (t : Text) : (parts t).flatMap text = t :=
  flatMap_text_partsFrom 0 t

theorem text_subset {part : Part} (mem : part ∈ parts t) : part.text ⊆ t := by
  intro c hi
  rw [← flatMap_text_parts t]
  exact mem_flatMap.mpr ⟨part, mem, hi⟩

theorem partsFrom_eq_parts_drop (skip : Nat) (t : Text) :
    partsFrom skip t = parts (t.drop skip) := by
  induction t generalizing skip with
  | nil => cases skip <;> rfl
  | cons c r ih =>
    cases skip with
    | zero => rfl
    | succ skip => exact ih skip

theorem parts_cons_of_ne (o : c ≠ '"') (t : Text) : parts (c :: t) = .code c :: parts t := by
  rw [parts, partsFrom, if_neg o]
  rfl

theorem literalLength?_append {s : Text} (free : ∀ c ∈ s, c ≠ '"' ∧ c ≠ '\\') (t : Text) :
    literalLength? false (s ++ '"' :: t) = some (s.length + 1) := by
  induction s with
  | nil => rfl
  | cons c r ih =>
    obtain ⟨⟨quote, escape⟩, others⟩ := forall_mem_cons.mp free
    rw [cons_append, literalLength?, if_neg quote, beq_false_of_ne escape, ih others]
    rfl

theorem literalLength?_append_of_some {escaped : Bool} {n : Nat}
    (hc : literalLength? escaped t = some n) (r : Text) :
    literalLength? escaped (t ++ r) = some n := by
  induction t generalizing escaped n with
  | nil => cases escaped <;> cases hc
  | cons c t ih =>
    cases escaped with
    | true =>
      obtain ⟨m, hi, rfl⟩ := Option.map_eq_some_iff.mp hc
      rw [cons_append, literalLength?, ih hi]
      rfl
    | false =>
      rw [cons_append, literalLength?]
      rw [literalLength?] at hc
      split at hc
      · next quote => rwa [if_pos quote]
      · next o =>
        obtain ⟨m, hi, rfl⟩ := Option.map_eq_some_iff.mp hc
        rw [if_neg o, ih hi]
        rfl

theorem parts_literal_append {a : Text} (literal : IsLiteral a) (rest : Text) :
    parts (a ++ rest) = .literal a :: parts rest := by
  obtain ⟨b, rfl, closed⟩ := literal
  rw [cons_append, parts, partsFrom, if_pos rfl, literalLength?_append_of_some closed rest]
  dsimp only
  rw [partsFrom_eq_parts_drop, drop_append_of_le_length (Nat.le_refl _), drop_length,
    take_append_of_le_length (Nat.le_refl _), take_length, nil_append]

end Parts

section Restore

variable (store : Store)

theorem restoreFrom_append (lead rest : Text) :
    restoreFrom store lead.length (lead ++ rest) = restore store rest := by
  induction lead with
  | nil => rfl
  | cons c lead ih => exact ih

@[simp] theorem restore_nil : restore store [] = [] :=
  rfl

theorem restore_placeholder_append (index : Nat) (rest : Text) :
    restore store (placeholder index ++ rest) =
      (store[index]?).getD (placeholder index) ++ restore store rest := by
  obtain ⟨body, shape⟩ : ∃ body, placeholder index = '"' :: body := ⟨_, rfl⟩
  have read := placeholder?_append index rest
  rw [shape, cons_append] at read ⊢
  rw [restore, restoreFrom, read]
  simp only [length_cons, take_succ_cons, take_left, Nat.add_sub_cancel, restoreFrom_append]

theorem restore_cons {rest : Text} (absent : placeholder? (c :: rest) = none) :
    restore store (c :: rest) = c :: restore store rest := by
  rw [restore, restoreFrom, absent]
  rfl

theorem restore_cons_of_ne (o : c ≠ '"') (rest : Text) :
    restore store (c :: rest) = c :: restore store rest := by
  apply restore_cons
  cases read : placeholder? (c :: rest) with
  | none => rfl
  | some hit =>
    obtain ⟨tail, same⟩ := exists_of_placeholder? read
    exact absurd (cons.inj same).1 o

theorem restore_quote {rest : Text} (ha : rest.head? ≠ some marker) :
    restore store ('"' :: rest) = '"' :: restore store rest := by
  apply restore_cons
  cases read : placeholder? ('"' :: rest) with
  | none => rfl
  | some hit =>
    obtain ⟨tail, same⟩ := exists_of_placeholder? read
    rw [(cons.inj same).2] at ha
    exact absurd rfl ha

theorem restore_append_of_quoteFree (free : '"' ∉ t) (rest : Text) :
    restore store (t ++ rest) = t ++ restore store rest := by
  induction t with
  | nil => rfl
  | cons c t ih =>
    have other : c ≠ '"' := fun same => free (by simp [same])
    have inner : '"' ∉ t := mt (mem_cons_of_mem c) free
    rw [cons_append, restore_cons_of_ne store other, ih inner, cons_append]

theorem restore_of_unmarked (hu : marker ∉ t) : restore store t = t := by
  induction t with
  | nil => rfl
  | cons c t ih =>
    rw [restore_cons store (placeholder?_eq_none hu), ih (mt (mem_cons_of_mem c) hu)]

theorem head?_restore {store : Store} (stored : ∀ a ∈ store, IsLiteral a) (t : Text) :
    (restore store t).head? = t.head? := by
  cases t with
  | nil => rfl
  | cons c cs =>
    cases read : placeholder? (c :: cs) with
    | none =>
      rw [restore_cons store read]
      rfl
    | some hit =>
      obtain ⟨i, length⟩ := hit
      obtain ⟨length, rfl⟩ := Nat.exists_eq_add_of_lt (length_pos_of_placeholder? read)
      obtain ⟨rest, shape⟩ := exists_of_placeholder? read
      obtain ⟨rfl, -⟩ := cons.inj shape
      rw [restore, restoreFrom, read]
      dsimp only
      cases e : store[i]? with
      | none => simp
      | some a =>
        obtain ⟨b, rfl, -⟩ := stored a (mem_of_getElem? e)
        rfl

theorem notMem_restoreFrom {store : Store} (stored : ∀ a ∈ store, c ∉ a) (free : c ∉ t)
    (skip : Nat) : c ∉ restoreFrom store skip t := by
  induction t generalizing skip with
  | nil => exact not_mem_nil
  | cons d t ih =>
    have hv := ih (mt (mem_cons_of_mem d) free)
    cases skip with
    | succ skip => exact hv skip
    | zero =>
      unfold restoreFrom
      split
      · next i length read =>
        rw [mem_append, not_or]
        refine ⟨?_, hv _⟩
        cases e : store[i]? with
        | none => exact fun mem => free (mem_of_mem_take mem)
        | some a => exact stored a (mem_of_getElem? e)
      · rw [mem_cons, not_or]
        exact ⟨fun eq => free (by simp [eq]), hv 0⟩

theorem restore_of_nothing (t : Text) : restore [] t = t := by
  have hr (skip : Nat) (t : Text) : restoreFrom [] skip t = t.drop skip := by
    induction t generalizing skip with
    | nil => simp [restoreFrom]
    | cons c t ih =>
      cases skip with
      | succ skip => exact ih skip
      | zero =>
        unfold restoreFrom
        split
        · next i length read =>
          obtain ⟨length, rfl⟩ := Nat.exists_eq_add_of_lt (length_pos_of_placeholder? read)
          simp [ih]
        · simp [ih]
  exact hr 0 t

end Restore

section RoundTrip

/-- A piece of a protected text: a text without quotes, or the placeholder of a literal. -/
inductive Protected where
  | bare (t : Text)
  | held (index : Nat)
  deriving Repr, DecidableEq

namespace Protected

def text : Protected → Text
  | .bare t => t
  | .held index => placeholder index

def meaning (store : Store) : Protected → Text
  | .bare t => t
  | .held index => store.getD index []

def IsOf (store : Store) : Protected → Prop
  | .bare t => '"' ∉ t
  | .held index => index < store.length

instance (store : Store) (piece : Protected) : Decidable (piece.IsOf store) := by
  cases piece with
  | bare t => exact inferInstanceAs (Decidable ('"' ∉ t))
  | held index => exact inferInstanceAs (Decidable (index < store.length))

theorem restore_text_append {store : Store} {piece : Protected} (valid : piece.IsOf store)
    (rest : Text) :
    restore store (piece.text ++ rest) = piece.meaning store ++ restore store rest := by
  cases piece with
  | bare t => exact restore_append_of_quoteFree store valid rest
  | held i =>
    have inside : i < store.length := valid
    rw [text, restore_placeholder_append, meaning, getD_eq_getElem?_getD,
      getElem?_eq_getElem inside]
    rfl

end Protected

/-- Whether a text consists of pieces without quotes, of placeholders of literals of a store, and of
at most one unclosed literal at its end. -/
def IsProtected (store : Store) (t : Text) : Prop :=
  ∃ (pieces : List Protected) (tail : Text), (∀ piece ∈ pieces, piece.IsOf store) ∧
    (tail = [] ∨ IsUnclosed tail) ∧ t = pieces.flatMap Protected.text ++ tail

theorem restore_flatMap_text {store : Store} {pieces : List Protected}
    (valid : ∀ piece ∈ pieces, piece.IsOf store) :
    restore store (pieces.flatMap Protected.text) = pieces.flatMap (Protected.meaning store) := by
  induction pieces with
  | nil => rfl
  | cons piece rest ih =>
    obtain ⟨first, others⟩ := forall_mem_cons.mp valid
    rw [flatMap_cons, Protected.restore_text_append first, ih others, flatMap_cons]

theorem prefix_protectParts (store : Store) (xs : List Part) :
    store <+: (protectParts store xs).2 := by
  induction xs generalizing store with
  | nil => exact prefix_refl store
  | cons part r ih =>
    cases part with
    | code c | unclosed t => exact ih store
    | literal t =>
      unfold protectParts
      split
      · exact ih store
      · exact (prefix_append store [t]).trans (ih (store ++ [t]))

theorem length_lt_protectParts (store : Store) (t : Text) (xs : List Part) :
    store.length < (protectParts (store ++ [t]) xs).2.length := by
  have longer := (prefix_protectParts (store ++ [t]) xs).length_le
  rwa [length_append] at longer

variable {t : Text}

theorem isPlaceholder_eq_false (hu : marker ∉ t) : isPlaceholder t = false := by
  rw [isPlaceholder, placeholder?_eq_none hu]
  rfl

theorem protectParts_literal (store : Store) (hu : marker ∉ t) (r : List Part) :
    protectParts store (.literal t :: r) =
      (placeholder store.length ++ (protectParts (store ++ [t]) r).1,
        (protectParts (store ++ [t]) r).2) := by
  rw [protectParts, isPlaceholder_eq_false hu]
  rfl

/-- What protected parts without the marker look like, and that restoring them with a store that
holds their literals gives the parts back. -/
theorem Cut.protectParts_spec {xs : List Part} (cut : Cut xs) (store : Store)
    (hu : ∀ part ∈ xs, marker ∉ part.text) :
    (∀ fin, (protectParts store xs).2 <+: fin →
      restore fin (protectParts store xs).1 = xs.flatMap text) ∧
    IsProtected (protectParts store xs).2 (protectParts store xs).1 := by
  induction cut generalizing store with
  | nil => exact ⟨fun _ _ => rfl, [], [], by simp, .inl rfl, rfl⟩
  | @code c rest o _ ih =>
    obtain ⟨back, pieces, tail, valid, ending, same⟩ := ih store (forall_mem_cons.mp hu).2
    have first : (Protected.bare [c]).IsOf (protectParts store rest).2 :=
      fun hit => o (mem_singleton.mp hit).symm
    refine ⟨fun fin within => ?_, .bare [c] :: pieces, tail, forall_mem_cons.mpr ⟨first, valid⟩,
      ending, ?_⟩
    · show restore fin (c :: (protectParts store rest).1) = _
      rw [restore_cons_of_ne fin o, back fin within]
      rfl
    · show c :: (protectParts store rest).1 = _
      rw [same]
      rfl
  | @literal t rest _ _ ih =>
    have hp : marker ∉ t := hu (.literal t) mem_cons_self
    obtain ⟨back, pieces, tail, valid, ending, same⟩ := ih (store ++ [t]) (forall_mem_cons.mp hu).2
    have stored := prefix_protectParts (store ++ [t]) rest
    rw [protectParts_literal store hp]
    refine ⟨fun fin within => ?_, .held store.length :: pieces, tail,
      forall_mem_cons.mpr ⟨length_lt_protectParts store t rest, valid⟩, ending, ?_⟩
    · -- the store only grows, so the literal stays where it was put
      have e : fin[store.length]? = some t := by
        obtain ⟨further, rfl⟩ := stored.trans within
        simp
      rw [restore_placeholder_append, e, back fin within]
      rfl
    · rw [same, flatMap_cons, append_assoc]
      rfl
  | @unclosed t unclosed =>
    have hp : marker ∉ t := hu (.unclosed t) mem_cons_self
    have alone : protectParts store [.unclosed t] = (t ++ [], store) := rfl
    rw [alone, append_nil]
    refine ⟨fun fin _ => ?_, [], t, by simp, .inr unclosed, rfl⟩
    rw [restore_of_unmarked fin hp]
    simp [text]

theorem unmarked_of_mem_parts (hu : marker ∉ t) : ∀ part ∈ parts t, marker ∉ part.text :=
  fun _ mem hit => hu (text_subset mem hit)

end RoundTrip

/-- Protecting a text without the marker and restoring it gives the text back. The literals that the
store held before keep their numbers, and the protected text consists of pieces without quotes, of
placeholders, and of at most one unclosed literal at its end. Whatever is done to such pieces,
restoration replaces the placeholders among them and nothing else. -/
theorem restore_protect (store : Store) (t : Text) (unmarked : marker ∉ t) (other : Store)
    (rearranged : List Protected) (valid : ∀ piece ∈ rearranged, piece.IsOf other) :
    restore (protect store t).2 (protect store t).1 = t ∧
      store <+: (protect store t).2 ∧
      IsProtected (protect store t).2 (protect store t).1 ∧
      restore other (rearranged.flatMap Protected.text) =
        rearranged.flatMap (Protected.meaning other) := by
  obtain ⟨back, shape⟩ := (cut_parts t).protectParts_spec store (unmarked_of_mem_parts unmarked)
  have whole := back _ (prefix_refl _)
  rw [flatMap_text_parts] at whole
  exact ⟨whole, prefix_protectParts store (parts t), shape, restore_flatMap_text valid⟩

/-- A text with an escaped quote, an empty literal and an unclosed one, protected behind a literal
that is stored already; and placeholders that are left out, repeated and put in another order. -/
theorem restore_protect_unclosed :
    let store : Store := ["\"a\"".toList]
    let t : Text := "x := \"b\\\"c\" + \"\" + \"d".toList
    let rearranged : List Protected :=
      [.held 2, .bare "if".toList, .held 0, .held 0, .bare [marker]]
    let final := (protect store t).2
    final = ["\"a\"".toList, "\"b\\\"c\"".toList, "\"\"".toList] ∧
      restore final (protect store t).1 = t ∧
      restore final (rearranged.flatMap Protected.text) =
        "\"\"if\"a\"\"a\"".toList ++ [marker] := by
  intro store t rearranged final
  have stored : final = ["\"a\"".toList, "\"b\\\"c\"".toList, "\"\"".toList] := by decide
  obtain ⟨back, -, -, rearrangedBack⟩ :=
    restore_protect store t (by decide) final rearranged (by decide)
  refine ⟨stored, back, rearrangedBack.trans ?_⟩
  decide

def Part.isClosed : Part → Bool
  | .code _ | .literal _ => true
  | .unclosed _ => false

def IsClosed (t : Text) : Prop :=
  ∀ part ∈ parts t, part.isClosed = true

instance (t : Text) : Decidable (IsClosed t) :=
  decidableBAll _ (parts t)

inductive Built : Text → Prop where
  | nil : Built []
  | code {c : Char} {t : Text} (other : c ≠ '"') (rest : Built t) : Built (c :: t)
  | literal {a t : Text} (first : IsLiteral a) (rest : Built t) : Built (a ++ t)

theorem IsClosed.built (hc : IsClosed t) : Built t := by
  have each {xs : List Part} (cut : Cut xs) (hc : ∀ part ∈ xs, part.isClosed) :
      Built (xs.flatMap text) := by
    induction cut with
    | nil => exact .nil
    | code o _ ih => exact .code o (ih (forall_mem_cons.mp hc).2)
    | literal first _ ih => exact .literal first (ih (forall_mem_cons.mp hc).2)
    | unclosed => exact absurd (hc _ mem_cons_self) (by simp [Part.isClosed])
  rw [← flatMap_text_parts t]
  exact each (cut_parts t) hc

section Placeholder

theorem forall_mem_markedDigits {p : Char → Prop} (digit : ∀ d < 16, p (markedDigit d)) (n : Nat) :
    ∀ c ∈ markedDigitsGo n [], p c := by
  induction n using Nat.strongRecOn with
  | ind n ih =>
    unfold markedDigitsGo
    split
    · next small => exact forall_mem_singleton.mpr (digit n small)
    · rw [markedDigitsGo_eq_append, forall_mem_append, forall_mem_singleton]
      exact ⟨ih (n / 16) (by omega), digit _ (Nat.mod_lt n (by decide))⟩

theorem not_isPlain_of_mem_placeholder {i : Nat} {c : Char} (mem : c ∈ placeholder i) :
    isPlain c = false := by
  have all : ∀ c ∈ placeholder i, isPlain c = false := by
    rw [placeholder_eq, forall_mem_cons, forall_mem_cons, forall_mem_append, forall_mem_singleton]
    exact ⟨by decide, by decide, forall_mem_markedDigits (by decide) i, by decide⟩
  exact all c mem

theorem isPlaceholder_placeholder (i : Nat) : isPlaceholder (placeholder i) := by
  have read := placeholder?_append i []
  rw [append_nil] at read
  simp [isPlaceholder, read]

theorem unmarked_not_mem {t : Text} (hu : Unmarked t) : marker ∉ t := by
  intro mem
  have marked : isMarked marker := by decide
  rw [hu marker mem] at marked
  cases marked

end Placeholder

section Composed

theorem IsSeam.of_append {lead left right : Text} (seam : IsSeam (lead ++ left) right) :
    IsSeam left right := by
  refine seam.imp (fun pre => ?_) id
  cases left with
  | nil => rfl
  | cons c left => simpa [getLast?_cons] using pre

/-- A text composed of characters of a class and of the placeholders of the first literals. -/
inductive Composed (bare : Char → Bool) (n : Nat) : Text → Prop
  | nil : Composed bare n []
  | char {c : Char} {t : Text} (shown : bare c = true) (rest : Composed bare n t) :
    Composed bare n (c :: t)
  | held {index : Nat} {t : Text} (stored : index < n) (rest : Composed bare n t) :
    Composed bare n (placeholder index ++ t)

variable {bare : Char → Bool} {n : Nat} {left right t : Text}

namespace Composed

theorem of_forall (all : ∀ c ∈ t, bare c) : Composed bare n t := by
  induction t with
  | nil => exact .nil
  | cons c r ih =>
    obtain ⟨first, others⟩ := forall_mem_cons.mp all
    exact .char first (ih others)

theorem append (first : Composed bare n left) (second : Composed bare n right) :
    Composed bare n (left ++ right) := by
  induction first with
  | nil => exact second
  | char hs _ ih => exact .char hs ih
  | held stored _ ih =>
    rw [append_assoc]
    exact .held stored ih

theorem cut {w : Text} (composed : Composed bare n w) (parts : w = left ++ right)
    (seam : IsSeam left right) : Composed bare n left ∧ Composed bare n right := by
  induction composed generalizing left with
  | nil =>
    obtain ⟨rfl, rfl⟩ := append_eq_nil_iff.mp parts.symm
    exact ⟨.nil, .nil⟩
  | @char c t hs r ih =>
    cases left with
    | nil =>
      rw [nil_append] at parts
      exact ⟨.nil, parts ▸ .char hs r⟩
    | cons d left =>
      obtain ⟨rfl, rfl⟩ := cons.inj parts
      obtain ⟨front, back⟩ := ih rfl (@IsSeam.of_append [c] left right seam)
      exact ⟨.char hs front, back⟩
  | @held index t stored r ih =>
    rcases append_eq_append_iff.mp parts with ⟨front, rfl, rfl⟩ | ⟨back, split, rfl⟩
    · obtain ⟨first, second⟩ := ih rfl seam.of_append
      exact ⟨.held stored first, second⟩
    · -- a seam inside the placeholder would be beside a plain character
      cases back with
      | nil =>
        rw [append_nil] at split
        subst split
        exact ⟨by simpa using held stored .nil, r⟩
      | cons e back =>
        cases front : left.getLast? with
        | none =>
          rw [getLast?_eq_none_iff] at front
          subst front
          rw [nil_append] at split
          exact ⟨.nil, split ▸ .held stored r⟩
        | some d =>
          have lastIn : d ∈ placeholder index := by
            rw [split]
            exact mem_append_left _ (mem_of_getLast? front)
          have firstIn : e ∈ placeholder index := by simp [split]
          rw [IsSeam, front] at seam
          simp [not_isPlain_of_mem_placeholder lastIn,
            not_isPlain_of_mem_placeholder firstIn] at seam

theorem seamed (plain : ∀ c, isPlain c → bare c) : Seamed (Composed bare n) where
  plain _ all := .of_forall fun c mem => plain c (all c mem)
  append _ _ := append
  cut _ _ whole := whole.cut rfl

end Composed

end Composed

section Intact

/-- A text whose marked characters all belong to placeholders of the first literals. -/
def Intact (n : Nat) : Text → Prop :=
  Composed (fun c => !isMarked c) n

variable {n : Nat} {t : Text}

theorem seamed_intact (n : Nat) : Seamed (Intact n) :=
  Composed.seamed fun c hp => by simp [not_isMarked_of_isPlain hp]

theorem intact_of_unmarked (hu : Unmarked t) : Intact n t :=
  Composed.of_forall fun c mem => by simp [hu c mem]

theorem Intact.head?_ne_marker (intact : Intact n t) : t.head? ≠ some marker := by
  cases intact with
  | nil => simp
  | char hs _ =>
    intro eq
    rw [head?_cons, Option.some.injEq] at eq
    subst eq
    exact absurd hs (by decide)
  | held _ _ => simp [placeholder_eq, marker]

theorem Intact.unmarked_restore {st : Store} (intact : Intact st.length t)
    (stored : ∀ literal ∈ st, Unmarked literal) : Unmarked (restore st t) := by
  induction intact with
  | nil => simp [Unmarked]
  | @char c t hs r ih =>
    have kept : restore st (c :: t) = c :: restore st t := by
      by_cases quote : c = '"'
      · subst quote
        exact restore_quote st (head?_ne_marker r)
      · exact restore_cons_of_ne st quote t
    rw [kept]
    exact forall_mem_cons.mpr ⟨by simpa using hs, ih⟩
  | @held i t hi _ ih =>
    rw [restore_placeholder_append, getElem?_eq_getElem hi]
    exact unmarked_append.mpr ⟨stored _ (getElem_mem hi), ih⟩

def IsApart (n : Nat) (t : Text) : Prop :=
  Unmarked t ∨ ∃ index < n, t = placeholder index

instance (n : Nat) (t : Text) : Decidable (IsApart n t) :=
  inferInstanceAs (Decidable (_ ∨ ∃ index < n, _))

theorem IsApart.intact (ha : IsApart n t) : Intact n t := by
  rcases ha with hu | ⟨i, stored, rfl⟩
  · exact intact_of_unmarked hu
  · simpa [Intact] using Composed.held stored .nil

theorem IsApart.mono {m : Nat} (le : n ≤ m) (ha : IsApart n t) : IsApart m t :=
  ha.imp id fun ⟨i, stored, eq⟩ => ⟨i, Nat.lt_of_lt_of_le stored le, eq⟩

theorem intact_protectParts (st : Store) (xs : List Part)
    (ha : ∀ part ∈ xs, IsApart st.length part.text) (stored : ∀ literal ∈ st, Unmarked literal) :
    Intact (protectParts st xs).2.length (protectParts st xs).1 ∧
      ∀ literal ∈ (protectParts st xs).2, Unmarked literal := by
  induction xs generalizing st with
  | nil => exact ⟨.nil, stored⟩
  | cons part r ih =>
    obtain ⟨first, others⟩ := forall_mem_cons.mp ha
    -- a part that stays where it is
    have kept : Intact (protectParts st r).2.length (part.text ++ (protectParts st r).1) ∧
          ∀ literal ∈ (protectParts st r).2, Unmarked literal := by
      obtain ⟨intact, all⟩ := ih st others stored
      have longer := (prefix_protectParts st r).length_le
      exact ⟨(first.mono longer).intact.append intact, all⟩
    cases part with
    | code c | unclosed t => exact kept
    | literal t =>
      unfold protectParts
      split
      · exact kept
      · next fresh =>
        have hu : Unmarked t := by
          refine first.resolve_right ?_
          rintro ⟨i, -, rfl⟩
          exact fresh (isPlaceholder_placeholder i)
        have longer : st.length ≤ (st ++ [t]).length := by simp
        obtain ⟨intact, all⟩ := ih (st ++ [t]) (fun part mem => (others part mem).mono longer)
          (forall_mem_append.mpr ⟨stored, forall_mem_singleton.mpr hu⟩)
        exact ⟨.held (length_lt_protectParts st t r) intact, all⟩

theorem intact_protect (hu : Unmarked t) :
    Intact (protect [] t).2.length (protect [] t).1 ∧
      ∀ literal ∈ (protect [] t).2, Unmarked literal :=
  intact_protectParts [] (parts t) (fun part mem => .inl (hu.subset (text_subset mem))) (by simp)

end Intact

end PrimePlus.Lexical
