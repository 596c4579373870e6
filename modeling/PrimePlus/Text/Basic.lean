import PrimePlus.Unicode.Word

/-!
Source text as a list of characters. Offsets that leave the library are counted in UTF-8 bytes.
-/

namespace PrimePlus

abbrev Text := List Char

namespace Text

open Unicode (isBlank)

def trimStart (t : Text) : Text :=
  t.dropWhile isBlank

def trimEnd (t : Text) : Text :=
  (t.reverse.dropWhile isBlank).reverse

def trim (t : Text) : Text :=
  trimEnd (trimStart t)

def isBlankText (t : Text) : Bool :=
  t.all isBlank

def startsWith (t lead : Text) : Bool :=
  lead.isPrefixOf t

def endsWith (t tail : Text) : Bool :=
  tail.isSuffixOf t

def dropLead? (t lead : Text) : Option Text :=
  if lead.isPrefixOf t then some (t.drop lead.length) else none

/-- Cut at the first occurrence of `needle`, which is dropped. -/
def cutAt? (needle : Text) : Text → Option (Text × Text)
  | [] => if needle.isEmpty then some ([], []) else none
  | c :: cs =>
    if needle.isPrefixOf (c :: cs) then some ([], (c :: cs).drop needle.length)
    else (cutAt? needle cs).map fun parts => (c :: parts.1, parts.2)

def hasPart (t needle : Text) : Bool :=
  (cutAt? needle t).isSome

/-- Replacement from left to right, `skip` characters of an occurrence being still to pass. -/
def replaceGo (old new : Text) : Nat → Text → Text
  | _, [] => []
  | skip + 1, _ :: cs => replaceGo old new skip cs
  | 0, c :: cs =>
    if old.isPrefixOf (c :: cs) then new ++ replaceGo old new (old.length - 1) cs
    else c :: replaceGo old new 0 cs

def replace (t old new : Text) : Text :=
  replaceGo old new 0 t

/-- The parts of a text between the occurrences of a separating character; at least one part. -/
def splitOn (sep : Char) : Text → List Text
  | [] => [[]]
  | c :: cs =>
    if c = sep then [] :: splitOn sep cs
    else match splitOn sep cs with
      | [] => [[c]]
      | part :: parts => (c :: part) :: parts

/-- The lines of a text. A line ends at a line feed, which may follow one carriage return; text
after the last line feed is a line of its own unless it is empty. -/
def lines : Text → List Text
  | [] => []
  | '\n' :: cs => [] :: lines cs
  | '\r' :: '\n' :: cs => [] :: lines cs
  | c :: cs =>
    match lines cs with
    | [] => [[c]]
    | line :: rest => (c :: line) :: rest

def join (sep : Text) (parts : List Text) : Text :=
  sep.intercalate parts

def byteLength (t : Text) : Nat :=
  t.foldr (fun c n => c.utf8Size + n) 0

def ofNat (n : Nat) : Text :=
  Nat.toDigits 10 n

def toNat (digits : Text) : Nat :=
  digits.foldl (fun n c => 10 * n + (c.toNat - '0'.toNat)) 0

def toNat? (t : Text) : Option Nat :=
  if t.isEmpty || !t.all Char.isDigit then none else some (toNat t)

theorem dropLead?_eq_some_iff {t lead rest : Text} :
    dropLead? t lead = some rest ↔ t = lead ++ rest := by
  unfold dropLead?
  constructor
  · intro dropped
    split at dropped
    · next stands =>
      obtain ⟨tail, rfl⟩ := List.isPrefixOf_iff_prefix.mp stands
      rw [List.drop_left, Option.some_inj] at dropped
      rw [dropped]
    · cases dropped
  · rintro rfl
    simp

theorem exists_append_trimStart (t : Text) : ∃ lead, t = lead ++ trimStart t :=
  ⟨t.takeWhile isBlank, (List.takeWhile_append_dropWhile).symm⟩

theorem trimStart_eq_self {t : Text} (shown : ∀ c ∈ t.head?, isBlank c = false) :
    trimStart t = t := by
  cases t with
  | nil => rfl
  | cons c rest => exact List.dropWhile_cons_of_neg (by simp [shown c rfl])

theorem not_isBlank_head_trimStart (t : Text) : ∀ c ∈ (trimStart t).head?, isBlank c = false := by
  intro c head
  have first := List.head?_dropWhile_not isBlank t
  rw [trimStart] at head
  rw [Option.mem_def.mp head] at first
  simpa using first

theorem head?_trim (t : Text) : (trim t).head? = t.find? fun c => !isBlank c := by
  have first : (trimStart t).head? = t.find? fun c => !isBlank c := by
    induction t with
    | nil => rfl
    | cons c rest ih =>
      rw [trimStart] at ih ⊢
      cases shown : isBlank c with
      | true => simpa [shown] using ih
      | false => simp [shown]
  rw [← first, trim, trimEnd]
  cases start : trimStart t with
  | nil => rfl
  | cons c rest =>
    have shown : isBlank c = false := not_isBlank_head_trimStart t c (by rw [start]; rfl)
    rw [List.reverse_cons, List.dropWhile_append]
    split <;> simp [shown]

theorem trim_trim (t : Text) : trim (trim t) = trim t := by
  have start : trimStart (trim t) = trim t := by
    apply trimStart_eq_self
    intro c head
    rw [head?_trim] at head
    simpa using List.find?_some head
  have finish : trimEnd (trim t) = trim t := by
    simp only [trim, trimEnd, List.reverse_reverse]
    rw [← trimStart, ← trimStart, trimStart_eq_self (not_isBlank_head_trimStart _)]
  rw [trim, start, finish]

theorem eq_of_cutAt? {needle t lead tail : Text} (cut : cutAt? needle t = some (lead, tail)) :
    t = lead ++ needle ++ tail := by
  induction t generalizing lead with
  | nil =>
    unfold cutAt? at cut
    split at cut
    · next empty =>
      cases cut
      simp [List.isEmpty_iff.mp empty]
    · cases cut
  | cons c rest ih =>
    unfold cutAt? at cut
    split at cut
    · next here =>
      cases cut
      obtain ⟨behind, shape⟩ := List.isPrefixOf_iff_prefix.mp here
      rw [← shape, List.drop_left, List.nil_append]
    · obtain ⟨⟨inner, behind⟩, later, same⟩ := Option.map_eq_some_iff.mp cut
      cases same
      rw [ih later, List.cons_append, List.cons_append]

theorem splitOn_ne_nil (sep : Char) (t : Text) : splitOn sep t ≠ [] := by
  cases t with
  | nil => simp [splitOn]
  | cons c cs =>
    unfold splitOn
    split
    · simp
    · split <;> simp

theorem join_splitOn (sep : Char) (t : Text) : join [sep] (splitOn sep t) = t := by
  induction t with
  | nil => rfl
  | cons c cs ih =>
    unfold splitOn
    have nonempty := splitOn_ne_nil sep cs
    split
    · next h =>
      subst h
      cases parts : splitOn c cs with
      | nil => exact absurd parts nonempty
      | cons part rest =>
        rw [parts] at ih
        simpa [join, List.intercalate] using ih
    · cases parts : splitOn sep cs with
      | nil => exact absurd parts nonempty
      | cons part rest =>
        rw [parts] at ih
        cases rest <;> simpa [join, List.intercalate] using ih

end Text

end PrimePlus
