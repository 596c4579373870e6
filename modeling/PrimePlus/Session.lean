import PrimePlus.Construct.Basic
import PrimePlus.Layout
import PrimePlus.Lexical.Comment

/-!
A session compiles sources line by line. A file that cannot be read or includes itself stops it.
-/

namespace PrimePlus

structure Session where
  env : Environment
  directives : DirectiveState := {}
  memory : Construct.Memory := {}
  tally : Construct.Tally := {}
  lines : List Text := []
  inComment : Bool := false

abbrev Progress := Session × Option Error

namespace Session

def predefined : List Text :=
  ["#define __pplus".toList, "#define __SCREEN G0".toList, "#define __LIST_LIMIT 10000".toList,
    "#define __VERSION ".toList ++ Text.ofNat version.1 ++ '.' :: Text.ofNat version.2.1]

def start (config : Config) : Session :=
  predefined.foldl (fun session line =>
    let (_, directives, env) := Directive.read {} line session.directives session.env
    { session with directives := directives, env := env }) { env := Environment.start config }

def output (session : Session) : Text :=
  session.lines.flatMap fun line => line ++ ['\n']

def emit (session : Session) (line : Text) : Session :=
  { session with lines := session.lines ++ [line] }

def emitIndented (session : Session) (line : Text) : Session :=
  session.emit (Layout.indent session.env.config.indentWidth session.env.depth ++ line)

/-- Whether the line generated last is blank; so it is before the first. -/
def endsBlank (session : Session) : Bool :=
  session.lines.getLast?.all Text.isBlankText

/-- Look for a construct in a line: the state after it, the line after it, and whether it was
found. -/
def look (session : Session) (construct : Construct) (line : Text) : Session × Text × Bool :=
  let outcome := construct.apply session.memory session.env line
  let session := { session with memory := outcome.memory, env := outcome.env }
  match outcome.line with
  | none => (session, line, false)
  | some next => ({ session with tally := session.tally.record construct next }, next, true)

def lookForFirst : List Construct → Session → Text → Session × Text × Bool
  | [], session, line => (session, line, false)
  | construct :: rest, session, line =>
    match session.look construct line with
    | (session, line, true) => (session, line, true)
    | (session, line, false) => lookForFirst rest session line

def lookForAll (constructs : List Construct) (session : Session) (line : Text) : Session × Text :=
  constructs.foldl (fun done construct =>
    let (session, line, _) := done.1.look construct done.2
    (session, line)) (session, line)

/-- The state after a block word, and whether the word closed the outermost block. -/
def follow (done : Session × Bool) (token : Lexical.BlockToken) : Session × Bool :=
  let (session, closed) := done
  match token.effect with
  | .opens => ({ session with env := session.env.enter }, closed)
  | .closes =>
    let (env, left) := session.env.leave
    ({ session with env := env }, closed || (left && env.depth == 0))
  | .divides => (session, closed)

/-- The state after the block words of a line. At the end of a function all that belongs to it is
forgotten. -/
def followBlocks (session : Session) (line : Text) : Session :=
  let (session, closed) := (Lexical.blockTokens line).foldl follow (session, false)
  if closed && session.env.depth == 0 then { session with memory := session.memory.reset }
  else session

def plainDeclarations : List Construct :=
  [.definition, .synonym, .dictionary, .namespaceUse]

def resolvedDeclarations : List Construct :=
  [.record, .enumeration]

def lowerings : List Construct :=
  [.naming, .switch, .loop, .conditional, .keyword, .operator]

def finishLine (session : Session) (store : Lexical.Store) (comment : Option Text) (line : Text) :
    Session :=
  let (session, line) := session.lookForAll lowerings line
  let laid := Layout.lay session.env.config.indentWidth session.env.depth store comment line
  let session := session.followBlocks line
  { session with lines := session.lines ++ laid }

def resolveLine (session : Session) (comment : Option Text) (line : Text) : Session :=
  let (hidden, store) := Lexical.protect [] line
  let (line, env) := session.env.resolveAliases (Lexical.collapseBlanks hidden)
  let (line, env) := env.foldInline line
  let (line, store) := Lexical.protect store line
  let (session, line, found) := lookForFirst resolvedDeclarations { session with env := env } line
  if found && Text.isBlankText line then session else session.finishLine store comment line

def code (session : Session) (line : Text) : Session :=
  let (line, env) := session.env.resolveRules line
  let (session, line, _) := { session with env := env }.look .stash line
  let (bare, comment) := Lexical.splitComment line
  let line := Text.trim bare
  if line.isEmpty then
    match comment with
    | some comment => session.emitIndented comment
    | none => session
  else
    let (session, line, found) := lookForFirst plainDeclarations session line
    if found && Text.isBlankText line then session else session.resolveLine comment line

/-- The state after a line that is no directive, given as it stands in the source and without blanks
around it. -/
def plainLine (session : Session) (raw line : Text) : Session :=
  if session.directives.language?.isSome then
    if session.directives.isSkipping then session
    else session.emit ((raw.reverse.dropWhile fun c => c == '\r' || c == '\n').reverse)
  else if session.directives.isSkipping then session
  else match Text.dropLead? line "/*".toList with
    | some rest => { session with inComment := !Text.endsWith rest "*/".toList }
    | none =>
      if line.isEmpty then if session.endsBlank then session else session.emit []
      else if Text.startsWith line "//".toList then session.emitIndented line
      else match session.env.readRule? line with
        | some env => { session with env := env }
        | none => session.code line

def line (files : FileSystem) (inclusion : Text → Session → Progress) (raw : Text)
    (session : Session) : Progress :=
  let session := { session with env := session.env.nextLine }
  let trimmed := Text.trim (Lexical.expandTabs session.env.config.tabWidth raw)
  if session.inComment then
    ({ session with inComment := !Text.endsWith trimmed "*/".toList }, none)
  else
    let (directive, directives, env) :=
      Directive.read files trimmed session.directives session.env
    let session := { session with directives := directives, env := env }
    match directive with
    | .none => (session.plainLine raw trimmed, none)
    | .consumed => (session, none)
    | .inclusion path => inclusion path session
    | .pass text => (session.emit text, none)
    | .embeddedStart _ =>
      (if session.directives.isSkipping then session else session.emit trimmed, none)
    | .embeddedEnd _ =>
      (if session.directives.isSkipping then session else session.emit endMarker, none)

def allLines (files : FileSystem) (inclusion : Text → Session → Progress) :
    List Text → Session → Progress
  | [], session => (session, none)
  | raw :: rest, session =>
    match session.line files inclusion raw with
    | (session, some error) => (session, some error)
    | (session, none) => allLines files inclusion rest session

def source (files : FileSystem) (inclusion : Text → Session → Progress) (path text : Text)
    (session : Session) : Progress :=
  let (session, error) := allLines files inclusion (Text.lines text)
    { session with env := session.env.pushSource path }
  ({ session with env := session.env.popSource }, error)

def stop (session : Session) (error : Error) : Progress :=
  ({ session with env := session.env.report .critical error.message }, some error)

/-- The session after a file. The first argument bounds how deep inclusions are nested; as a file
that is being read is not included again, the number of files is enough. -/
def fileFrom (files : FileSystem) : Nat → Text → Session → Progress
  | fuel, path, session =>
    match files.readText path with
    | .error fault => session.stop (.file path fault)
    | .ok text =>
      match fuel with
      | 0 => session.stop (.includeCycle path)
      | fuel + 1 =>
        session.source files (fun path session =>
          if session.env.isReading files path then session.stop (.includeCycle path)
          else fileFrom files fuel path session) path text

def file (session : Session) (files : FileSystem) (path : Text) : Progress :=
  fileFrom files (files.entries.length + 1) path session

def inclusion (files : FileSystem) (path : Text) (session : Session) : Progress :=
  if session.env.isReading files path then session.stop (.includeCycle path)
  else session.file files path

def text (session : Session) (files : FileSystem) (t : Text) : Progress :=
  session.source files (inclusion files) [] t

end Session

end PrimePlus
