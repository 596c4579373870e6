import PrimePlus.Text.Basic

/-!
Paths of files as they are written. Empty parts and parts that are one dot do not count.
-/

namespace PrimePlus.Path

def isAbsolute (path : Text) : Bool :=
  path.head? == some '/'

/-- The number of characters of the root, or of a dot in front of a relative path. -/
def headLength (path : Text) : Nat :=
  if isAbsolute path then 1
  else if path == ['.'] || Text.startsWith path "./".toList then 1
  else 0

def isVoid (part : Text) : Bool :=
  part.isEmpty || part == ['.']

/-- The parts of a path behind its head, without those at the end that do not count. -/
def bodyParts (path : Text) : List Text :=
  ((Text.splitOn '/' (path.drop (headLength path))).reverse.dropWhile isVoid).reverse

/-- The parts of a path that count, with its head in front. Two spellings of a path are the same
path when these agree. -/
def components (path : Text) : List Text :=
  (if headLength path = 0 then [] else [path.take 1]) ++
    (bodyParts path).filter fun part => !isVoid part

/-- A path written after a directory. An absolute path stays as it is. -/
def join (directory path : Text) : Text :=
  if isAbsolute path then path
  else if directory.isEmpty || directory.getLast? == some '/' then directory ++ path
  else directory ++ '/' :: path

/-- The directory that a path lies in. The root and the empty path lie in none. -/
def parent? (path : Text) : Option Text :=
  let head := path.take (headLength path)
  match (bodyParts path).reverse with
  | [] => if head = ['.'] then some [] else none
  | _ :: outer => some (head ++ Text.join ['/'] (outer.dropWhile isVoid).reverse)

def fileName? (path : Text) : Option Text :=
  (bodyParts path).getLast?.filter fun name => name != "..".toList

/-- A file name cut at its last dot, where there is something in front of that dot. -/
def splitName (name : Text) : Text × Option Text :=
  let back := name.reverse
  let stem := (back.dropWhile (· != '.')).drop 1
  if name.contains '.' && !stem.isEmpty then
    (stem.reverse, some (back.takeWhile (· != '.')).reverse)
  else (name, none)

def extension? (path : Text) : Option Text :=
  (fileName? path).bind fun name => (splitName name).2

/-- The path with an extension in place of that of its file name. A path without a file name stays
as it is. -/
def setExtension (path extension : Text) : Text :=
  match fileName? path with
  | none => path
  | some name =>
    let lead := (bodyParts path).dropLast ++ [(splitName name).1]
    path.take (headLength path) ++ Text.join ['/'] lead ++ '.' :: extension

/-- The path with another extension. The old one is cut off at the end of the path first. -/
def withExtension (path extension : Text) : Text :=
  let old := (extension? path).getD []
  setExtension (path.take (path.length - old.length)) extension

end PrimePlus.Path
