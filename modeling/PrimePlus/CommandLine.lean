import PrimePlus.Compile

/-!
The command line: one input file, options with a value, and flags.
-/

namespace PrimePlus.CommandLine

inductive Refusal where
  | missingArgument
  | unknownArgument
  | conflict
  | missingValue
  | unneededValue
  | help
  | version
  deriving Repr, DecidableEq

def Refusal.message : Refusal → Text
  | .missingArgument => "an input file is required".toList
  | .unknownArgument => "an argument is not known".toList
  | .conflict => "arguments cannot be used together or more than once".toList
  | .missingValue => "an option lacks its value".toList
  | .unneededValue => "an option takes no value".toList
  | .help => "help".toList
  | .version => "version".toList

def usage : Text :=
  "Usage: pplus [-o FILE] [-v FLAGS] [-l PATH] ".toList ++
    "[--minify | --reformat] [--pragma] [--build] FILE".toList

inductive Slot where
  | input
  | output
  | verbose
  | library
  deriving Repr, DecidableEq

inductive Flag where
  | minify
  | reformat
  | pragma
  | build
  | help
  | version
  deriving Repr, DecidableEq

inductive Item where
  | slot (slot : Slot)
  | flag (flag : Flag)
  deriving Repr, DecidableEq

def longItems : List (String × Item) :=
  [("output", .slot .output), ("verbose", .slot .verbose), ("lib", .slot .library),
    ("minify", .flag .minify), ("reformat", .flag .reformat), ("pragma", .flag .pragma),
    ("build", .flag .build), ("help", .flag .help), ("version", .flag .version)]

def longItem? (name : Text) : Option Item :=
  (longItems.find? fun entry => entry.1.toList == name).map Prod.snd

def shortItem? : Char → Option Item
  | 'o' => some (.slot .output)
  | 'v' => some (.slot .verbose)
  | 'l' => some (.slot .library)
  | 'h' => some (.flag .help)
  | 'V' => some (.flag .version)
  | _ => none

structure Reading where
  values : List (Slot × Text) := []
  flags : List Flag := []
  /-- What is still to be settled, and its value if it has one. -/
  pending : Option (Slot × Option Text) := none
  hasInput : Bool := false
  onlyNames : Bool := false
  deriving Repr, DecidableEq

namespace Reading

def value? (reading : Reading) (slot : Slot) : Option Text :=
  (reading.values.find? fun entry => entry.1 == slot).map Prod.snd

def give (reading : Reading) (slot : Slot) (value : Text) : Except Refusal Reading :=
  if (reading.value? slot).isSome then .error .conflict
  else .ok { reading with values := reading.values ++ [(slot, value)] }

def settle (reading : Reading) : Except Refusal Reading :=
  match reading.pending with
  | none => .ok reading
  | some (_, none) => .error .missingValue
  | some (slot, some value) => { reading with pending := none }.give slot value

def option (reading : Reading) (slot : Slot) (attached : Option Text) : Except Refusal Reading := do
  let reading ← reading.settle
  match attached with
  | some value => reading.give slot value
  | none => .ok { reading with pending := some (slot, none) }

def flag (reading : Reading) (flag : Flag) : Except Refusal Reading := do
  let reading ← reading.settle
  match flag with
  | .help => .error .help
  | .version => .error .version
  | flag =>
    if reading.flags.contains flag then .error .conflict
    else .ok { reading with flags := reading.flags ++ [flag] }

def longWord (reading : Reading) (word : Text) : Except Refusal Reading :=
  let (name, attached) := match Text.cutAt? ['='] word with
    | some (name, value) => (name, some value)
    | none => (word, none)
  match longItem? name, attached with
  | none, _ => .error .unknownArgument
  | some (.slot slot), attached => reading.option slot attached
  | some (.flag _), some _ => .error .unneededValue
  | some (.flag flag), none => reading.flag flag

def shortWord (reading : Reading) (letter : Char) (rest : Text) : Except Refusal Reading :=
  match shortItem? letter with
  | none => .error .unknownArgument
  | some (.flag flag) => reading.flag flag
  | some (.slot slot) =>
    reading.option slot (match rest with
      | [] => none
      | '=' :: value => some value
      | value => some value)

def inputWord (reading : Reading) (word : Text) : Except Refusal Reading := do
  if reading.hasInput then .error .unknownArgument
  else
    let reading ← reading.settle
    .ok { reading with pending := some (.input, some word), hasInput := true }

/-- Read a word that is no option: a value where one is waited for, or the input. -/
def nameWord (reading : Reading) (word : Text) : Except Refusal Reading :=
  match reading.pending with
  | some (slot, none) => .ok { reading with pending := some (slot, some word) }
  | _ => reading.inputWord word

def word (reading : Reading) (word : Text) : Except Refusal Reading :=
  if reading.onlyNames then reading.inputWord word
  else match word with
    | ['-', '-'] => .ok { reading with onlyNames := true }
    | '-' :: '-' :: rest => reading.longWord rest
    | '-' :: letter :: rest => reading.shortWord letter rest
    | word => reading.nameWord word

end Reading

structure Options where
  input : Text
  output : Text
  logDirectives : List Text
  config : Config
  deriving Repr, DecidableEq

inductive Task where
  | build
  | compile (options : Options)
  deriving Repr, DecidableEq

def logTargets : List (Char × String) :=
  [('a', "aliases"), ('p', "preprocessor"), ('r', "regexp"), ('l', "calc"), ('s', "desugar")]

/-- The log filters for letters; a hyphen asks for all. -/
def logDirectives (letters : Text) : List Text :=
  (logTargets.filter fun entry => letters.contains '-' || letters.contains entry.1).map fun entry =>
    "pplus_core::".toList ++ entry.2.toList ++ "=debug".toList

def programExtension : Text := "prgm".toList

def defaultOutput (input : Text) : Text :=
  Path.withExtension input programExtension

def Reading.options (reading : Reading) (input : Text) : Options :=
  let usual : Config := {}
  { input := input,
    output := (reading.value? .output).getD (defaultOutput input),
    logDirectives := ((reading.value? .verbose).map logDirectives).getD [],
    config := { usual with
      libraryPath := (reading.value? .library).getD usual.libraryPath,
      minify := reading.flags.contains .minify,
      reformat := reading.flags.contains .reformat,
      pragmaPreamble := reading.flags.contains .pragma } }

def Reading.task (reading : Reading) : Except Refusal Task := do
  let reading ← reading.settle
  if reading.flags.contains .minify && reading.flags.contains .reformat then .error .conflict
  else if reading.flags.contains .build then .ok .build
  else match reading.value? .input with
    | none => .error .missingArgument
    | some input => .ok (.compile (reading.options input))

/-- What a command line asks for. Its first word is the name of the program. -/
def parse (words : List Text) : Except Refusal Task := do
  let reading ← words.tail.foldlM Reading.word {}
  reading.task

def Options.run (options : Options) (files : FileSystem) : FileSystem × Except Error Bool :=
  let (files, result) := compileToFile options.config files options.input options.output
  (files, result.map Summary.isSuccess)

def Options.failureMessage (options : Options) (error : Error) : Text :=
  let cause := match error with
    | .file _ fault => ": ".toList ++ fault.message
    | _ => []
  "failed to compile ".toList ++ options.input ++ ": ".toList ++ error.message ++ cause

end PrimePlus.CommandLine
