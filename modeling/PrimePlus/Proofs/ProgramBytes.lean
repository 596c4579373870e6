import PrimePlus.Encoding.Utf16

/-!
The bytes of a program and its text.
-/

namespace PrimePlus.Encoding.Utf16

open List

variable {codes : List Nat} {t : Text}

section Bytes

theorem toNat_unitBytes {unit : Nat} (small : unit < 0x10000) :
    (unit % 256).toUInt8.toNat + 256 * (unit / 256).toUInt8.toNat = unit := by
  simp only [UInt8.toNat_ofNat']
  omega

theorem unitBytes_toNat (low high : UInt8) :
    unitBytes (low.toNat + 256 * high.toNat) = [low, high] := by
  have lowest := low.toNat_lt
  have whole : (low.toNat + 256 * high.toNat) / 256 = high.toNat := by omega
  simp [unitBytes, whole]

theorem unitsOf?_eq_some_iff {bytes : List UInt8} : unitsOf? bytes = some codes ↔
      bytes = codes.flatMap unitBytes ∧ ∀ unit ∈ codes, unit < 0x10000 := by
  constructor
  · intro read
    fun_induction unitsOf? bytes generalizing codes with
    | case1 =>
      cases read
      simp
    | case2 => cases read
    | case3 low high r ih =>
      obtain ⟨others, readRest, rfl⟩ := Option.map_eq_some_iff.mp read
      obtain ⟨eq, small⟩ := ih readRest
      have lowest := low.toNat_lt
      have highest := high.toNat_lt
      rw [flatMap_cons, unitBytes_toNat, eq]
      refine ⟨rfl, fun unit mem => ?_⟩
      rcases mem_cons.mp mem with rfl | mem
      · omega
      · exact small unit mem
  · rintro ⟨rfl, small⟩
    induction codes with
    | nil => rfl
    | cons unit r ih =>
      have read := ih (forall_mem_cons.mp small).2
      rw [flatMap_cons, unitBytes, cons_append, singleton_append, unitsOf?, read,
        toNat_unitBytes (small unit mem_cons_self)]
      rfl

end Bytes

section Units

theorem toNat_valid (c : Char) : c.toNat < 0xD800 ∨ 0xDFFF < c.toNat ∧ c.toNat < 0x110000 :=
  c.valid

theorem units_lt (c : Char) : ∀ unit ∈ units c, unit < 0x10000 := by
  have valid := toNat_valid c
  intro unit mem
  unfold units at mem
  dsimp only at mem
  split at mem
  · simp only [mem_singleton] at mem
    omega
  · simp only [mem_cons, not_mem_nil, or_false] at mem
    omega

theorem charsFrom_units_append (c : Char) (r : List Nat) :
    charsFrom none (units c ++ r) = (charsFrom none r).map (c :: ·) := by
  have valid := toNat_valid c
  unfold units
  dsimp only
  split
  · have high : isHigh c.toNat = false := by simp [isHigh]; omega
    have low : isLow c.toNat = false := by simp [isLow]; omega
    rw [singleton_append, charsFrom, high, low, Char.ofNat_toNat]
    rfl
  · next large =>
    have high : isHigh (0xD800 + (c.toNat - 0x10000) / 0x400) := by simp [isHigh]; omega
    have low : isLow (0xDC00 + (c.toNat - 0x10000) % 0x400) := by simp [isLow]; omega
    have whole : 0x10000 + (0xD800 + (c.toNat - 0x10000) / 0x400 - 0xD800) * 0x400 +
        (0xDC00 + (c.toNat - 0x10000) % 0x400 - 0xDC00) = c.toNat := by omega
    rw [cons_append, singleton_append, charsFrom, if_pos high, charsFrom, if_pos low, whole,
      Char.ofNat_toNat]

theorem units_ofNat {n : Nat} (valid : n.isValidChar) :
    units (Char.ofNat n) = if n < 0x10000 then [n]
      else [0xD800 + (n - 0x10000) / 0x400, 0xDC00 + (n - 0x10000) % 0x400] := by
  rw [Char.ofNat, dif_pos valid]
  rfl

theorem exists_of_charsFrom_some {high : Nat} (first : isHigh high)
    (read : charsFrom (some high) codes = some t) :
    ∃ c low r more, codes = low :: r ∧ t = c :: more ∧ units c = [high, low] ∧
      charsFrom none r = some more := by
  cases codes with
  | nil => cases read
  | cons low r =>
    rw [charsFrom] at read
    split at read
    · next second =>
      obtain ⟨more, readRest, rfl⟩ := Option.map_eq_some_iff.mp read
      refine ⟨_, low, r, more, rfl, rfl, ?_, readRest⟩
      simp only [isHigh, isLow, Bool.and_eq_true, decide_eq_true_eq] at first second
      have valid : (0x10000 + (high - 0xD800) * 0x400 + (low - 0xDC00)).isValidChar :=
        .inr ⟨by omega, by omega⟩
      have upper : 0xD800 + (0x10000 + (high - 0xD800) * 0x400 + (low - 0xDC00) - 0x10000) / 0x400 =
          high := by omega
      have lower : 0xDC00 + (0x10000 + (high - 0xD800) * 0x400 + (low - 0xDC00) - 0x10000) % 0x400 =
          low := by omega
      rw [units_ofNat valid, if_neg (by omega), upper, lower]
    · cases read

theorem charsFrom_eq_some_iff (small : ∀ unit ∈ codes, unit < 0x10000) :
    charsFrom none codes = some t ↔ codes = t.flatMap units := by
  constructor
  · intro read
    induction h : codes.length using Nat.strongRecOn generalizing codes t with
    | _ n ih =>
      cases codes with
      | nil =>
        cases read
        rfl
      | cons unit r =>
        subst h
        have others {more : List Nat} (tail : more <:+ r) {u : Text}
            (readMore : charsFrom none more = some u) : more = u.flatMap units :=
          ih more.length (Nat.lt_succ_of_le tail.length_le)
            (fun o mem => small o (mem_cons_of_mem unit (tail.subset mem)))
            readMore rfl
        rw [charsFrom] at read
        split at read
        · next first =>
          obtain ⟨c, low, r, more, rfl, rfl, pair, readRest⟩ := exists_of_charsFrom_some first read
          rw [flatMap_cons, pair, ← others (suffix_cons low r) readRest]
          rfl
        · next first =>
          split at read
          · cases read
          · next second =>
            obtain ⟨more, readRest, rfl⟩ := Option.map_eq_some_iff.mp read
            have bound := small unit mem_cons_self
            have valid : unit.isValidChar := by
              simp only [isHigh, isLow, Bool.and_eq_true, decide_eq_true_eq] at first second
              omega
            rw [flatMap_cons, units_ofNat valid, if_pos bound, ← others suffix_rfl readRest]
            rfl
  · rintro rfl
    clear small
    induction t with
    | nil => rfl
    | cons c r ih => rw [flatMap_cons, charsFrom_units_append, ih]; rfl

end Units

section Programs

theorem filter_units {c : Char} (o : c ≠ '\r') : (units c).filter (· != 0x0D) = units c := by
  have code : c.toNat ≠ 0x0D := by
    intro eq
    apply o
    rw [← Char.ofNat_toNat c, eq]
  refine filter_eq_self.mpr fun unit mem => ?_
  rw [units] at mem
  split at mem
  · rw [mem_singleton.mp mem]
    simpa using code
  · simp only [mem_cons, not_mem_nil, or_false] at mem
    simp only [bne_iff_ne]
    omega

theorem filter_flatMap_units (t : Text) :
    (t.flatMap units).filter (· != 0x0D) = (t.filter (· != '\r')).flatMap units := by
  induction t with
  | nil => rfl
  | cons c r ih =>
    rw [flatMap_cons, filter_append, ih]
    by_cases eq : c = '\r'
    · rw [eq]
      rfl
    · rw [filter_units eq, filter_cons_of_pos (by simpa using eq), flatMap_cons]

theorem decode?_byteOrderMark_append (bytes : List UInt8) :
    decode? (byteOrderMark ++ bytes) = (unitsOf? bytes).bind (charsFrom none) := by
  simp [decode?, byteOrderMark]

theorem decode?_byteOrderMark_append_eq_some_iff {bytes : List UInt8} :
    decode? (byteOrderMark ++ bytes) = some t ↔ bytes = (t.flatMap units).flatMap unitBytes := by
  have small : ∀ unit ∈ t.flatMap units, unit < 0x10000 := by
    intro unit mem
    obtain ⟨c, -, mem⟩ := mem_flatMap.mp mem
    exact units_lt c unit mem
  rw [decode?_byteOrderMark_append, Option.bind_eq_some_iff]
  constructor
  · rintro ⟨codes, read, readText⟩
    obtain ⟨rfl, bound⟩ := unitsOf?_eq_some_iff.mp read
    rw [(charsFrom_eq_some_iff bound).mp readText]
  · rintro rfl
    exact ⟨t.flatMap units, unitsOf?_eq_some_iff.mpr ⟨rfl, small⟩,
      (charsFrom_eq_some_iff small).mpr rfl⟩

/-- A program is read back from its bytes without its carriage returns, whatever its characters; and
bytes with a byte order mark and no carriage return, if they hold a text at all, are the bytes of
that text. -/
theorem program_bytes_round_trip :
    (∀ t : Text, decode? (encode t) = some (t.filter (· != '\r'))) ∧
    ∀ (bytes : List UInt8) (t : Text), byteOrderMark <+: bytes →
      (∀ codes ∈ unitsOf? bytes, 0x0D ∉ codes) → decode? bytes = some t → encode t = bytes := by
  refine ⟨fun t => decode?_byteOrderMark_append_eq_some_iff.mpr
    (congrArg (flatMap unitBytes) (filter_flatMap_units t)), ?_⟩
  rintro _ t ⟨bytes, rfl⟩ free read
  have written := decode?_byteOrderMark_append_eq_some_iff.mp read
  have all : unitsOf? (byteOrderMark ++ bytes) = some (0xFEFF :: t.flatMap units) := by
    refine unitsOf?_eq_some_iff.mpr ⟨by rw [written]; rfl, fun unit listed => ?_⟩
    rcases mem_cons.mp listed with rfl | listed
    · decide
    · obtain ⟨c, -, listed⟩ := mem_flatMap.mp listed
      exact units_lt c unit listed
  have kept : (t.flatMap units).filter (· != 0x0D) = t.flatMap units := by
    refine filter_eq_self.mpr fun unit listed => ?_
    have other : unit ≠ 0x0D := fun same =>
      free _ all (mem_cons_of_mem 0xFEFF (same ▸ listed))
    simpa using other
  rw [encode, kept, ← written]

/-- A mark of its own at the front of the text and a character written as a pair. -/
theorem program_bytes_round_trip_pair :
    encode ['\uFEFF', '😀'] = [0xFF, 0xFE, 0xFF, 0xFE, 0x3D, 0xD8, 0x00, 0xDE] :=
  program_bytes_round_trip.2 [0xFF, 0xFE, 0xFF, 0xFE, 0x3D, 0xD8, 0x00, 0xDE] ['\uFEFF', '😀']
    ⟨_, rfl⟩ (by decide) (by decide)

end Programs

end PrimePlus.Encoding.Utf16
