import PrimePlus.Shape.Flags

/-!
Reading what a backslash introduces in a pattern.
-/

namespace PrimePlus.Shape

open Unicode

def hexDigit? (c : Char) : Option Nat :=
  if c.isDigit then some (c.toNat - '0'.toNat)
  else if 'a' ≤ c && c ≤ 'f' then some (c.toNat - 'a'.toNat + 10)
  else if 'A' ≤ c && c ≤ 'F' then some (c.toNat - 'A'.toNat + 10)
  else none

def charOf? (point : Nat) : Option Char :=
  if h : point.isValidChar then some (Char.ofNatAux point h) else none

def hexDigits (flags : Flags) : Nat → Nat → Text → Option (Nat × Text)
  | 0, value, rest => some (value, rest)
  | n + 1, value, rest =>
    match rest with
    | [] => none
    | c :: cs => (hexDigit? c).bind fun d => hexDigits flags n (16 * value + d) (skipped flags cs)

def bracedHex (flags : Flags) : Nat → List Nat → Text → Option (Nat × Text)
  | 0, _, _ => none
  | fuel + 1, digits, rest =>
    match skipped flags rest with
    | [] => none
    | '}' :: cs =>
      if digits.isEmpty then none
      else some (digits.foldr (fun d n => 16 * n + d) 0, skipped flags cs)
    | c :: cs => (hexDigit? c).bind fun d => bracedHex flags fuel (d :: digits) cs

/-- The characters up to a closing brace, blanks left out in the extended mode. -/
def bracedName (flags : Flags) : Nat → Text → Text → Option (Text × Text)
  | 0, _, _ => none
  | fuel + 1, name, rest =>
    match skipped flags rest with
    | [] => none
    | '}' :: cs => some (name.reverse, cs)
    | c :: cs => bracedName flags fuel (c :: name) cs

def namedClass (name : Text) : Option (Bool × CharSet) :=
  match Text.cutAt? "!=".toList name with
  | some (key, value) => (propertyValue? key value).map fun members => (true, members)
  | none =>
    match Text.cutAt? [':'] name with
    | some (key, value) => (propertyValue? key value).map fun members => (false, members)
    | none =>
      match Text.cutAt? ['='] name with
      | some (key, value) => (propertyValue? key value).map fun members => (false, members)
      | none => (property? name).map fun members => (false, members)

def readProperty (flags : Flags) (negated : Bool) (rest : Text) : Option (Primitive × Text) :=
  let finish := fun (negated : Bool) (members : CharSet) (rest : Text) =>
    if flags.unicode then
      some (Primitive.category (flags.negateIf negated (flags.fold members)), rest)
    else none
  match skipped flags rest with
  | [] => none
  | '{' :: cs =>
    (bracedName flags (cs.length + 1) [] cs).bind fun (name, rest) =>
      (namedClass name).bind fun (inverted, members) => finish (negated != inverted) members rest
  | '\\' :: _ => none
  | c :: cs => (property? [c]).bind fun members => finish negated members (skipped flags cs)

/-- A class given by a letter after a backslash, in lower case the class and in upper case its
complement. -/
def letterClass? (flags : Flags) (c : Char) : Option (Option Primitive) :=
  let build := fun (negated : Bool) (members : CharSet) =>
    some ((flags.whole? (flags.negateIf negated members)).map Primitive.category)
  match c with
  | 'd' => build false flags.digits
  | 'D' => build true flags.digits
  | 's' => build false flags.blanks
  | 'S' => build true flags.blanks
  | 'w' => build false flags.words
  | 'W' => build true flags.words
  | _ => none

def isMeta (c : Char) : Bool :=
  "\\.+*?()|[]\x7b\x7d^$#&-~".toList.contains c

def isEscapable (c : Char) : Bool :=
  isMeta c || (c.toNat < 0x80 && !c.isAlphanum && c != '<' && c != '>')

def edgeName (flags : Flags) : Nat → Text → Text → Option (Text × Text)
  | 0, _, _ => none
  | fuel + 1, name, rest =>
    match rest with
    | '}' :: cs => some (name.reverse, cs)
    | c :: cs =>
      if c.isAlpha || c == '-' then edgeName flags fuel (c :: name) (skipped flags cs) else none
    | [] => none

def Flags.word (flags : Flags) (look : WordLook) : Primitive :=
  .condition (.word flags.unicode look)

/-- The condition after `\b`, which may carry a name in braces. A brace that starts no name is left
for a repetition. -/
def readEdge (flags : Flags) (rest : Text) : Option (Primitive × Text) :=
  let plain := some (flags.word .edge, rest)
  match rest with
  | '{' :: cs =>
    match skipped flags cs with
    | [] => none
    | c :: more =>
      if !(c.isAlpha || c == '-') then plain
      else
        (edgeName flags (more.length + 2) [] (c :: more)).bind fun (name, rest) =>
          match String.ofList name with
          | "start" => some (flags.word .start, rest)
          | "end" => some (flags.word .stop, rest)
          | "start-half" => some (flags.word .startHalf, rest)
          | "end-half" => some (flags.word .stopHalf, rest)
          | _ => none
  | _ => plain

def readCode (flags : Flags) (letter : Char) (rest : Text) : Option (Primitive × Text) :=
  let finish := fun (point : Nat) (rest : Text) =>
    (charOf? point).map fun c => (Primitive.literal c, rest)
  match skipped flags rest with
  | [] => none
  | '{' :: cs => (bracedHex flags (cs.length + 1) [] cs).bind fun (point, rest) => finish point rest
  | cs =>
    let count := if letter = 'x' then 2 else if letter = 'u' then 4 else 8
    (hexDigits flags count 0 cs).bind fun (point, rest) =>
      if letter = 'x' && !flags.unicode && 0x7F < point then some (Primitive.byte point, rest)
      else finish point rest

def readEscape (flags : Flags) : Text → Option (Primitive × Text)
  | [] => none
  | c :: cs =>
    if c == 'x' || c == 'u' || c == 'U' then readCode flags c cs
    else if c == 'p' then readProperty flags false cs
    else if c == 'P' then readProperty flags true cs
    else match letterClass? flags c with
      | some category => category.map fun category => (category, cs)
      | none =>
        if isEscapable c then some (.literal c, cs)
        else match c with
          | 'a' => some (.literal '\x07', cs)
          | 'f' => some (.literal '\x0C', cs)
          | 't' => some (.literal '\t', cs)
          | 'n' => some (.literal '\n', cs)
          | 'r' => some (.literal '\r', cs)
          | 'v' => some (.literal '\x0B', cs)
          | 'A' => some (.condition .textStart, cs)
          | 'z' => some (.condition .textEnd, cs)
          | 'b' => readEdge flags cs
          | 'B' => some (flags.word .noEdge, cs)
          | '<' => some (flags.word .start, cs)
          | '>' => some (flags.word .stop, cs)
          | _ => none

end PrimePlus.Shape
