import PrimePlus.Encoding.Utf8
import PrimePlus.Error
import PrimePlus.File.Path

/-!
File systems as values. A path is followed part by part.
-/

namespace PrimePlus

/-- Where a path is followed from: a number of levels above the working directory, or the root. -/
inductive Anchor where
  | above (levels : Nat)
  | root
  deriving Repr, DecidableEq

/-- A place of a file system: names from an anchor on, the innermost name first. -/
structure Place where
  anchor : Anchor
  names : List Text
  deriving Repr, DecidableEq

namespace Place

def here : Place :=
  ⟨.above 0, []⟩

def child (place : Place) (name : Text) : Place :=
  { place with names := name :: place.names }

def up (place : Place) : Place :=
  match place.names, place.anchor with
  | _ :: outer, _ => { place with names := outer }
  | [], .above levels => ⟨.above (levels + 1), []⟩
  | [], .root => place

end Place

inductive Node where
  | file (bytes : List UInt8)
  | directory
  deriving Repr, DecidableEq

/-- The places that hold something. The anchors are directories without being listed. -/
structure FileSystem where
  entries : List (Place × Node) := []
  deriving Repr, DecidableEq

namespace FileSystem

def node? (files : FileSystem) (place : Place) : Option Node :=
  if place.names.isEmpty then some .directory
  else (files.entries.find? fun entry => entry.1 == place).map Prod.snd

def put (files : FileSystem) (place : Place) (node : Node) : FileSystem :=
  ⟨(place, node) :: files.entries.filter fun entry => entry.1 != place⟩

def erase (files : FileSystem) (place : Place) : FileSystem :=
  ⟨files.entries.filter fun entry => entry.1 != place⟩

def enterFault? (files : FileSystem) (place : Place) : Option FileFault :=
  match files.node? place with
  | none => some .missing
  | some (.file _) => some .notDirectory
  | some .directory => none

def nameLimit : Nat := 255

def pathLimit : Nat := 4095

def follow (files : FileSystem) : Place → List Text → Except FileFault Place
  | place, [] => .ok place
  | place, part :: rest =>
    match files.enterFault? place with
    | some fault => .error fault
    | none =>
      if Path.isVoid part then follow files place rest
      else if part = "..".toList then follow files place.up rest
      else if nameLimit < Text.byteLength part then .error .nameTooLong
      else follow files (place.child part) rest

/-- Why a path cannot be followed whatever the file system holds, if it cannot. -/
def spellingFault? (path : Text) : Option FileFault :=
  if path.contains '\x00' then some .nulInName
  else if path.isEmpty then some .missing
  else if pathLimit < Text.byteLength path then some .nameTooLong
  else none

def startOf (path : Text) : Place :=
  if Path.isAbsolute path then ⟨.root, []⟩ else Place.here

def locate (files : FileSystem) (path : Text) : Except FileFault Place :=
  match spellingFault? path with
  | some fault => .error fault
  | none => files.follow (startOf path) (Text.splitOn '/' path)

def lookup (files : FileSystem) (path : Text) : Except FileFault (Place × Node) :=
  match files.locate path with
  | .error fault => .error fault
  | .ok place =>
    match files.node? place with
    | none => .error .missing
    | some node => .ok (place, node)

def has (files : FileSystem) (path : Text) : Bool :=
  (files.lookup path).isOk

def isDirectory (files : FileSystem) (path : Text) : Bool :=
  match files.lookup path with
  | .ok (_, .directory) => true
  | _ => false

/-- Whether two paths lead to the same thing. Paths of which one leads nowhere are the same when
they are the same but for spelling. -/
def isSame (files : FileSystem) (left right : Text) : Bool :=
  match files.lookup left, files.lookup right with
  | .ok (a, _), .ok (b, _) => a == b
  | _, _ => Path.components left == Path.components right

def readBytes (files : FileSystem) (path : Text) : Except FileFault (List UInt8) :=
  match files.lookup path with
  | .error fault => .error fault
  | .ok (_, .directory) => .error .isDirectory
  | .ok (_, .file bytes) => .ok bytes

def readText (files : FileSystem) (path : Text) : Except FileFault Text :=
  match files.readBytes path with
  | .error fault => .error fault
  | .ok bytes =>
    match Encoding.Utf8.decode? bytes with
    | none => .error .notText
    | some t => .ok t

/-- The parts of a path up to its last name; slashes at its end do not count. -/
def nameParts (path : Text) : List Text :=
  let bare := (path.reverse.dropWhile (· == '/')).reverse
  Text.splitOn '/' (if bare.isEmpty then path else bare)

/-- The place that the last name of a path stands for; slashes at its end do not count. -/
def locateName (files : FileSystem) (path : Text) : Except FileFault Place :=
  match spellingFault? path with
  | some fault => .error fault
  | none => files.follow (startOf path) (nameParts path)

def locateAround (files : FileSystem) (path : Text) : Except FileFault Place :=
  match spellingFault? path with
  | some fault => .error fault
  | none => files.follow (startOf path) ((nameParts path).dropLast ++ [[]])

/-- The file system with a file of the given bytes where a path leads to, in place of any file that
is there. The directory around it has to exist. A path that ends in a slash names a directory,
whether there is one or not. -/
def write (files : FileSystem) (path : Text) (bytes : List UInt8) : Except FileFault FileSystem :=
  if path.getLast? == some '/' then
    match files.locateAround path with
    | .error fault => .error fault
    | .ok _ => .error .isDirectory
  else
    match files.locate path with
    | .error fault => .error fault
    | .ok place =>
      match files.node? place with
      | some .directory => .error .isDirectory
      | _ => .ok (files.put place (.file bytes))

def removeFile (files : FileSystem) (path : Text) : FileSystem :=
  match files.lookup path with
  | .ok (place, .file _) => files.erase place
  | _ => files

def makeDirectory (files : FileSystem) (path : Text) : Except FileFault FileSystem :=
  match files.locateName path with
  | .error fault => .error fault
  | .ok place =>
    match files.node? place with
    | some _ => .error .present
    | none => .ok (files.put place .directory)

/-- The file system with a directory and those around it that were not there, and why one of them
could not be made. The first argument bounds the number of directories; the length of the path is
always enough. -/
def makeDirectoriesFrom : Nat → FileSystem → Text → FileSystem × Option FileFault
  | 0, files, _ => (files, none)
  | fuel + 1, files, path =>
    if path.isEmpty then (files, none)
    else match files.makeDirectory path with
      | .ok made => (made, none)
      | .error .missing =>
        match Path.parent? path with
        | none => (files, some .missing)
        | some outer =>
          match makeDirectoriesFrom fuel files outer with
          | (made, some fault) => (made, some fault)
          | (made, none) =>
            match made.makeDirectory path with
            | .ok final => (final, none)
            | .error fault => (made, if made.isDirectory path then none else some fault)
      | .error fault => (files, if files.isDirectory path then none else some fault)

def makeDirectories (files : FileSystem) (path : Text) : FileSystem × Option FileFault :=
  makeDirectoriesFrom (path.length + 1) files path

end FileSystem

end PrimePlus
