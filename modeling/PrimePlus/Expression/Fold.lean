import PrimePlus.Expression.Postfix
import PrimePlus.Numeral.Fixed
import PrimePlus.Numeral.Sized
import PrimePlus.Regex.Search

/-!
Folding of constant expressions in program text.
-/

namespace PrimePlus.Expression

open Regex

def defaultPlaces : Nat := 10

def sizedPattern : Regex :=
  all [char '#', .capture 1 (plus (oneOf "0123456789ABCDEF")),
    opt (all [char ':', opt (.capture 2 (char '-')), .capture 3 (plus digit)]),
    opt (.capture 4 (oneOf "bodh")), edge]

/-- An expression between a backslash with a backtick and a backtick, and its suffix: a width or a
number of places with a base, or a letter for a way to round. -/
def inlinePattern : Regex :=
  all [lit "\\`", .capture 1 (plus (noneOf "`")), char '\x60',
    opt (.seq (char ':')
      (.alt
        (all [opt (.capture 2 (char '-')), .capture 3 (plus digit),
          opt (.capture 4 (oneOf "bodh"))])
        (.capture 5 (oneOf "fcr"))))]

def literalWidth? (width : Text) : Option Nat :=
  (Text.toNat? width).filter fun n => 1 ≤ n && n ≤ 64

def assembleCollecting (image : Match → Text × List Fault) : List Piece → Text × List Fault
  | [] => ([], [])
  | .gap c :: rest =>
    let (t, faults) := assembleCollecting image rest
    (c :: t, faults)
  | .hit found :: rest =>
    let (t, faults) := assembleCollecting image rest
    ((image found).1 ++ t, (image found).2 ++ faults)

/-- Every match of an expression replaced, with the faults met from left to right. A text without a
match is not taken apart. -/
def replaceCollecting (pattern : Regex) (t : Text) (image : Match → Text × List Fault) :
    Text × List Fault :=
  if pattern.isMatch t then assembleCollecting image (pattern.pieces t) else (t, [])

/-- The decimal number that a sized literal stands for. The literal stays as it is where its digits
do not fit, and is a fault as well where its width does not exist. -/
def sizedImage (found : Match) : Text × List Fault :=
  let value := fun width =>
    let base := Numeral.Base.ofLetter ((found.group 4).head?.getD 'd')
    (Numeral.sizedValue (found.group 1) (found.group? 2).isSome width base).getD found.text
  match found.group? 3 with
  | none => (value 64, [])
  | some width =>
    match literalWidth? width with
    | some n => (value n, [])
    | none => (found.text, [.literalWidth found.text width])

def normalizeSized (t : Text) : Text × List Fault :=
  replaceCollecting sizedPattern t sizedImage

/-- The value of a text that is a constant expression; any other text as it is. A text with an
unknown word, or without any digit where it is malformed, is no expression and no fault. -/
def foldWhole (t : Text) : Text × List Fault :=
  let trimmed := Text.trim t
  if trimmed.isEmpty then (t, [])
  else
    let (normal, widthFaults) := normalizeSized trimmed
    if !widthFaults.isEmpty then (t, widthFaults)
    else match evaluate normal with
      | .ok (value, faults) => (Numeral.trimmed value defaultPlaces, faults)
      | .error (.unknown _ _) => (t, [])
      | .error (.malformed e) =>
        (t, if normal.any Char.isDigit then [.malformed e] else [])
      | .error fault => (t, [fault])

/-- The text of a value under the suffix of a quoted expression. With more places than there can be
it has none. -/
def inlineText (found : Match) (value : Float) : Text × List Fault :=
  match found.group? 3, found.group? 4 with
  | some width, some base =>
    match literalWidth? width with
    | some n =>
      (Numeral.sizedLiteral (Numeral.Binary64.toInt64 value) (found.group? 2).isSome n
        (Numeral.Base.ofLetter (base.head?.getD 'd')), [])
    | none => (found.text, [.literalWidth found.text width])
  | some places, none =>
    match Numeral.fixed? value
        (((Text.toNat? places).filter Numeral.fitsWord).getD defaultPlaces) with
    | some t => (t, [])
    | none => (found.text, [.places Numeral.placesLimit])
  | none, _ =>
    let value :=
      match found.group 5 with
      | ['f'] => value.floor
      | ['c'] => value.ceil
      | ['r'] => value.round
      | _ => value
    (Numeral.trimmed value defaultPlaces, [])

/-- What a quoted expression is replaced by. A faulty expression counts as zero. -/
def inlineImage (found : Match) : Text × List Fault :=
  let (expression, widthFaults) := normalizeSized (found.group 1)
  let (value, faults) := match evaluate expression with
    | .ok result => result
    | .error fault => (0.0, [fault])
  let (text, suffixFaults) := inlineText found value
  (text, widthFaults ++ faults ++ suffixFaults)

def foldInline (t : Text) : Text × List Fault :=
  replaceCollecting inlinePattern t inlineImage

end PrimePlus.Expression
