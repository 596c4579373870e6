import PrimePlus.Shape.Escape

/-!
Reading a class in brackets.
-/

namespace PrimePlus.Shape

def asciiClass? (name : Text) : Option CharSet :=
  (match String.ofList name with
    | "alnum" => some [(0x30, 0x39), (0x41, 0x5A), (0x61, 0x7A)]
    | "alpha" => some [(0x41, 0x5A), (0x61, 0x7A)]
    | "ascii" => some [(0, 0x7F)]
    | "blank" => some [(0x9, 0x9), (0x20, 0x20)]
    | "cntrl" => some [(0, 0x1F), (0x7F, 0x7F)]
    | "digit" => some [(0x30, 0x39)]
    | "graph" => some [(0x21, 0x7E)]
    | "lower" => some [(0x61, 0x7A)]
    | "print" => some [(0x20, 0x7E)]
    | "punct" => some [(0x21, 0x2F), (0x3A, 0x40), (0x5B, 0x60), (0x7B, 0x7E)]
    | "space" => some [(0x9, 0xD), (0x20, 0x20)]
    | "upper" => some [(0x41, 0x5A)]
    | "word" => some [(0x30, 0x39), (0x41, 0x5A), (0x5F, 0x5F), (0x61, 0x7A)]
    | "xdigit" => some [(0x30, 0x39), (0x41, 0x46), (0x61, 0x66)]
    | _ => none).map CharSet.mk

/-- An ASCII class such as `[:alpha:]`, read from after its opening bracket. Where there is none,
nothing; where there is one that could match half a character, nothing in place of the class. -/
def readAsciiClass (flags : Flags) (rest : Text) : Option (Option CharSet × Text) :=
  match rest with
  | ':' :: cs =>
    let (negated, cs) := match cs with
      | '^' :: more => (true, more)
      | _ => (false, cs)
    let name := cs.takeWhile (· != ':')
    match cs.drop name.length with
    | ':' :: ']' :: rest =>
      (asciiClass? name).map fun members =>
        (flags.whole? (flags.negateIf negated (flags.fold members)), rest)
    | _ => none
  | _ => none

inductive ClassOp where
  | both
  | without
  | either

def ClassOp.apply (op : ClassOp) (left right : CharSet) : CharSet :=
  match op with
  | .both => left.inter right
  | .without => left.diff right
  | .either => left.symmDiff right

/-- Characters that were read as a part of a class, and how deeply their parts are nested. -/
structure ClassPart where
  members : CharSet
  nesting : Nat := 0

/-- A class that is being read: whether it is negated, the operation that waits for its right side,
the items read since, and how many there are. -/
structure OpenClass where
  negated : Bool := false
  pending : Option (ClassOp × ClassPart) := none
  items : ClassPart := ⟨.none, 0⟩
  count : Nat := 0

namespace OpenClass

def add (cls : OpenClass) (part : ClassPart) : OpenClass :=
  { cls with
    items := ⟨cls.items.members.union part.members, max cls.items.nesting part.nesting⟩,
    count := cls.count + 1 }

def addChar (cls : OpenClass) (c : Char) : OpenClass :=
  cls.add { members := .point c.toNat }

/-- The items read since the last operation as one part; several items nest once more. -/
def union (cls : OpenClass) : ClassPart :=
  { cls.items with nesting := cls.items.nesting + (if cls.count ≤ 1 then 0 else 1) }

def combined (cls : OpenClass) (flags : Flags) : ClassPart :=
  match cls.pending with
  | none => cls.union
  | some (op, left) =>
    ⟨op.apply (flags.fold left.members) (flags.fold cls.union.members),
      max left.nesting cls.union.nesting + 1⟩

def operate (cls : OpenClass) (flags : Flags) (op : ClassOp) : OpenClass :=
  { negated := cls.negated, pending := some (op, cls.combined flags) }

def close (cls : OpenClass) (flags : Flags) : Option ClassPart :=
  let part := cls.combined flags
  (flags.whole? (flags.negateIf cls.negated (flags.fold part.members))).map fun members =>
    ⟨members, part.nesting + 1⟩

end OpenClass

def leadingHyphens (flags : Flags) : Nat → OpenClass → Text → OpenClass × Text
  | 0, cls, rest => (cls, rest)
  | fuel + 1, cls, rest =>
    match rest with
    | '-' :: cs => leadingHyphens flags fuel (cls.addChar '-') (skipped flags cs)
    | _ => (cls, rest)

/-- The front of a class after its opening bracket: a negation, literal hyphens, and a closing
bracket that stands for itself because it comes first. -/
def readClassFront (flags : Flags) (rest : Text) : Option (OpenClass × Text) :=
  let rest := skipped flags rest
  let (negated, rest) := match rest with
    | '^' :: cs => (true, skipped flags cs)
    | _ => (false, rest)
  let (cls, rest) := leadingHyphens flags rest.length { negated := negated } rest
  match rest with
  | [] => none
  | ']' :: cs =>
    if 0 < cls.count then some (cls, rest)
    else
      let rest := skipped flags cs
      if rest.isEmpty then none else some (cls.addChar ']', rest)
  | _ => some (cls, rest)

def readClassItem (flags : Flags) : Text → Option (Primitive × Text)
  | [] => none
  | '\\' :: cs => readEscape flags cs
  | c :: cs => some (.literal c, cs)

/-- The character that an item of a class is. Without Unicode a class holds ASCII characters only.
-/
def Primitive.asChar? (flags : Flags) : Primitive → Option Char
  | .literal c => if flags.unicode || c.toNat ≤ 0x7F then some c else none
  | _ => none

def Primitive.asClass? (flags : Flags) : Primitive → Option CharSet
  | .category members => some members
  | primitive => (primitive.asChar? flags).map fun c => .point c.toNat

def readClassRange (flags : Flags) (rest : Text) : Option (CharSet × Text) :=
  (readClassItem flags rest).bind fun (first, rest) =>
    let rest := skipped flags rest
    match rest with
    | [] => none
    | '-' :: cs =>
      match skipped flags cs with
      | [] => none
      | next :: more =>
        if next == ']' || next == '-' then
          (first.asClass? flags).map fun members => (members, rest)
        else
          (readClassItem flags (next :: more)).bind fun (last, rest) =>
            match first.asChar? flags, last.asChar? flags with
            | some low, some high =>
              if low ≤ high then some (.interval low.toNat high.toNat, rest) else none
            | _, _ => none
    | _ => (first.asClass? flags).map fun members => (members, rest)

def readClassItems (flags : Flags) : Nat → OpenClass → Text → Option (ClassPart × Text)
  | 0, _, _ => none
  | fuel + 1, cls, rest =>
    match skipped flags rest with
    | [] => none
    | ']' :: cs => (cls.close flags).map fun part => (part, cs)
    | '&' :: '&' :: cs => readClassItems flags fuel (cls.operate flags .both) cs
    | '-' :: '-' :: cs => readClassItems flags fuel (cls.operate flags .without) cs
    | '~' :: '~' :: cs => readClassItems flags fuel (cls.operate flags .either) cs
    | '[' :: cs =>
      match readAsciiClass flags cs with
      | some (members, rest) =>
        members.bind fun members =>
          readClassItems flags fuel (cls.add { members := members }) rest
      | none =>
        (readClassFront flags cs).bind fun (inner, rest) =>
          (readClassItems flags fuel inner rest).bind fun (part, rest) =>
            readClassItems flags fuel (cls.add part) rest
    | rest =>
      (readClassRange flags rest).bind fun (members, rest) =>
        readClassItems flags fuel (cls.add { members := members }) rest

def readClass (flags : Flags) (rest : Text) : Option (ClassPart × Text) :=
  (readClassFront flags rest).bind fun (cls, rest) =>
    readClassItems flags (rest.length + 1) cls rest

end PrimePlus.Shape
