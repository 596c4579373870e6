import PrimePlus.Shape.Bracket
import PrimePlus.Shape.Footprint

/-!
Reading a pattern from its written form, in one pass with a stack of open groups.
-/

namespace PrimePlus.Shape

open Unicode

/-- A part of a pattern that has been read: its shape, and how deeply its parts are nested. -/
structure Fragment where
  shape : Shape
  nesting : Nat := 0

def nestingLimit : Nat := 250

/-- An entry of a sequence: a part to match, or a change of flags. -/
inductive Entry where
  | flags
  | part (fragment : Fragment)

def readDigits (flags : Flags) : Nat → Text → Text × Text
  | 0, rest => ([], rest)
  | fuel + 1, rest =>
    match rest with
    | [] => ([], [])
    | c :: cs =>
      if c.isDigit then
        let (digits, rest) := readDigits flags fuel (skipped flags cs)
        (c :: digits, rest)
      else ([], c :: cs)

def readCount (flags : Flags) (rest : Text) : Option Nat × Text :=
  let (digits, rest) := readDigits flags rest.length (rest.dropWhile isBlank)
  let rest := skipped flags (rest.dropWhile isBlank)
  let n := Text.toNat digits
  (if digits.isEmpty || 0x100000000 ≤ n then none else some n, rest)

def readBounds (flags : Flags) (rest : Text) : Option ((Nat × Option Nat) × Text) :=
  let (least, rest) := readCount flags (skipped flags rest)
  match rest with
  | '}' :: cs => least.map fun n => ((n, some n), cs)
  | ',' :: cs =>
    match skipped flags cs with
    | '}' :: cs => least.map fun n => ((n, none), cs)
    | cs =>
      let (most, rest) := readCount flags cs
      match least, most, rest with
      | some low, some high, '}' :: cs =>
        if low ≤ high then some ((low, some high), cs) else none
      | _, _, _ => none
  | _ => none

/-- A group that has been opened: what preceded it in the sequence and among the alternatives
around it, its number where it captures, and the flags to return to. -/
structure OpenGroup where
  entries : List Entry
  branches : List Fragment
  capture : Option Nat
  flags : Flags

structure Reader where
  flags : Flags
  entries : List Entry := []
  branches : List Fragment := []
  groups : List OpenGroup := []
  captures : Nat := 0
  names : List (Text × Nat) := []

namespace Reader

def push (reader : Reader) (fragment : Fragment) : Reader :=
  { reader with entries := .part fragment :: reader.entries }

def sequence (entries : List Entry) : Fragment :=
  let parts := entries.reverse.filterMap fun entry =>
    match entry with
    | .flags => none
    | .part fragment => some fragment
  { shape := Shape.sequence (parts.map Fragment.shape),
    nesting := (parts.map Fragment.nesting).foldl max 0 + (if entries.length ≤ 1 then 0 else 1) }

def alternatives (reader : Reader) : Fragment :=
  let last := sequence reader.entries
  match reader.branches with
  | [] => last
  | branches =>
    let parts := (last :: branches).reverse
    { shape := Shape.choice (parts.map Fragment.shape),
      nesting := (parts.map Fragment.nesting).foldl max 0 + 1 }

def bar (reader : Reader) : Reader :=
  { reader with entries := [], branches := sequence reader.entries :: reader.branches }

def openGroup (reader : Reader) (capture : Option Nat) (flags : Flags) : Reader :=
  { reader with
    flags := flags, entries := [], branches := [],
    groups := ⟨reader.entries, reader.branches, capture, reader.flags⟩ :: reader.groups }

def closeGroup (reader : Reader) : Option Reader :=
  match reader.groups with
  | [] => none
  | outer :: groups =>
    let body := reader.alternatives
    let shape := match outer.capture with
      | some index => .group index body.shape
      | none => body.shape
    some ({ reader with
      flags := outer.flags, entries := outer.entries, branches := outer.branches,
      groups := groups }.push ⟨shape, body.nesting + 1⟩)

def repeatLast (reader : Reader) (greedy : Bool) (low : Nat) (high : Option Nat) : Option Reader :=
  match reader.entries with
  | .part fragment :: entries =>
    let greedy := greedy != reader.flags.lazyFirst
    some { reader with
      entries := .part ⟨fragment.shape.repeated low high greedy, fragment.nesting + 1⟩ :: entries }
  | _ => none

end Reader

/-- Flag letters up to the colon or parenthesis that ends them, with the flags they lead to. -/
def readFlags (flags : Flags) : Nat → Bool → List Char → Text → Option (Flags × List Char × Text)
  | 0, _, _, _ => none
  | fuel + 1, negated, seen, rest =>
    match rest with
    | [] => none
    | c :: cs =>
      if c == ':' || c == ')' then
        if seen.head? == some '-' then none else some (flags, seen, rest)
      else if seen.contains c then none
      else if c == '-' then readFlags flags fuel true (c :: seen) cs
      else
        let on := !negated
        let changed := match c with
          | 'i' => some { flags with ignoreCase := on }
          | 'm' => some { flags with multiLine := on }
          | 's' => some { flags with dotAll := on }
          | 'U' => some { flags with lazyFirst := on }
          | 'u' => some { flags with unicode := on }
          | 'R' => some { flags with crlf := on }
          | 'x' => some { flags with extended := on }
          | _ => none
        changed.bind fun changed => readFlags changed fuel negated (c :: seen) cs

def isGroupNameChar (first : Bool) (c : Char) : Bool :=
  if first then c == '_' || isAlphabetic c
  else c == '_' || c == '.' || c == '[' || c == ']' || isAlphanumeric c

def readGroupName (names : List (Text × Nat)) (rest : Text) : Option (Text × Text) :=
  let name := rest.takeWhile (· != '>')
  match name, rest.drop name.length with
  | first :: more, '>' :: rest =>
    if isGroupNameChar true first && more.all (isGroupNameChar false) &&
        !(names.map Prod.fst).contains name
    then some (name, rest) else none
  | _, _ => none

def readGroup (reader : Reader) (rest : Text) : Option (Reader × Text) :=
  let rest := skipped reader.flags rest
  let isLookAround := ["?=", "?!", "?<=", "?<!"].any fun lead => rest.startsWith lead.toList
  if isLookAround then none
  else match (rest.dropLead? "?P<".toList).or (rest.dropLead? "?<".toList) with
    | some rest =>
      (readGroupName reader.names rest).map fun (name, rest) =>
        let index := reader.captures + 1
        let reader := { reader with captures := index, names := reader.names ++ [(name, index)] }
        (reader.openGroup (some index) reader.flags, rest)
    | none =>
      match rest with
      | '?' :: cs =>
        (readFlags reader.flags (cs.length + 1) false [] cs).bind fun (flags, seen, rest) =>
          match rest with
          | ')' :: rest =>
            if seen.isEmpty then none
            else some ({ reader with flags := flags, entries := .flags :: reader.entries }, rest)
          | _ :: rest => some (reader.openGroup none flags, rest)
          | [] => none
      | _ =>
        let index := reader.captures + 1
        some ({ reader with captures := index }.openGroup (some index) reader.flags, rest)

def Reader.pushPrimitive (reader : Reader) : Primitive → Option Reader
  | .literal c => some (reader.push ⟨reader.flags.literal c, 0⟩)
  | .byte _ => none
  | .category members => some (reader.push ⟨ofSet (!reader.flags.unicode) members, 0⟩)
  | .condition place => some (reader.push ⟨.look place, 0⟩)

def readLaziness (rest : Text) : Bool × Text :=
  match rest with
  | '?' :: cs => (false, cs)
  | _ => (true, rest)

/-- One step of the reader over a pattern that is not at its end. -/
def Reader.step (reader : Reader) (c : Char) (rest : Text) : Option (Reader × Text) :=
  match c with
  | '(' => readGroup reader rest
  | ')' => reader.closeGroup.map fun reader => (reader, rest)
  | '|' => some (reader.bar, rest)
  | '[' =>
    (readClass reader.flags rest).map fun (part, rest) =>
      (reader.push ⟨ofSet (!reader.flags.unicode) part.members, part.nesting⟩, rest)
  | '?' =>
    let (greedy, rest) := readLaziness rest
    (reader.repeatLast greedy 0 (some 1)).map fun reader => (reader, rest)
  | '*' =>
    let (greedy, rest) := readLaziness rest
    (reader.repeatLast greedy 0 none).map fun reader => (reader, rest)
  | '+' =>
    let (greedy, rest) := readLaziness rest
    (reader.repeatLast greedy 1 none).map fun reader => (reader, rest)
  | '{' =>
    (readBounds reader.flags rest).bind fun ((low, high), rest) =>
      let (greedy, rest) := readLaziness (skipped reader.flags rest)
      (reader.repeatLast greedy low high).map fun reader => (reader, rest)
  | '\\' =>
    (readEscape reader.flags rest).bind fun (primitive, rest) =>
      (reader.pushPrimitive primitive).map fun reader => (reader, rest)
  | '.' =>
    reader.flags.dot?.map fun members => (reader.push ⟨ofSet false members, 0⟩, rest)
  | '^' => some (reader.push ⟨.look reader.flags.lineStart, 0⟩, rest)
  | '$' => some (reader.push ⟨.look reader.flags.lineEnd, 0⟩, rest)
  | c => (reader.pushPrimitive (.literal c)).map fun reader => (reader, rest)

def Reader.readAll : Nat → Reader → Text → Option Reader
  | 0, _, _ => none
  | fuel + 1, reader, rest =>
    match skipped reader.flags rest with
    | [] => some reader
    | c :: cs => (reader.step c cs).bind fun (reader, rest) => readAll fuel reader rest

def read? (ignoreCase : Bool) (pattern : Text) : Option (Shape × List (Text × Nat)) :=
  (Reader.readAll (pattern.length + 1) { flags := { ignoreCase := ignoreCase } } pattern).bind
    fun reader =>
      let whole := reader.alternatives
      if reader.groups.isEmpty && whole.nesting ≤ nestingLimit then
        some (whole.shape, reader.names)
      else none

/-- The shape of a pattern and the names of its groups, if the pattern is well formed and not too
large. -/
def parse? (ignoreCase : Bool) (pattern : Text) : Option (Shape × List (Text × Nat)) :=
  (read? ignoreCase pattern).filter fun result => result.1.isCompilable

end PrimePlus.Shape
