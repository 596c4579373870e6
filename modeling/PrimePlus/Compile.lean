import PrimePlus.Encoding.Utf16
import PrimePlus.Program.Minify
import PrimePlus.Program.Reformat
import PrimePlus.Session

/-!
Compilation as a whole. A program file is written only if no error was found.
-/

namespace PrimePlus

structure Compiled where
  text : Text
  diagnostics : List Diagnostic
  tally : Construct.Tally

def Compiled.hasErrors (compiled : Compiled) : Bool :=
  hasFailure compiled.diagnostics

def pragmaPreamble : Text :=
  "#pragma mode( separator(.,;) integer(h64) )".toList

def Session.program (session : Session) : Text :=
  let config := session.env.config
  let t := if config.pragmaPreamble then pragmaPreamble ++ '\n' :: session.output
    else session.output
  let t := if config.reformat then Program.reformat config.indentWidth t else t
  if config.minify then Program.minify t else t

def Session.openBlocks (session : Session) : Environment :=
  let depth := session.env.depth
  let env := if depth = 0 then session.env
    else session.env.report .warning
      (Text.ofNat depth ++ " block(s) still open at end of input".toList)
  match session.directives.language? with
  | some language => env.report .warning (language.marker ++ " block without #END".toList)
  | none => env

def Session.finish (session : Session) : Compiled :=
  ⟨session.program, session.openBlocks.diagnostics, session.tally⟩

/-- What a run comes to. Where it has broken off, nothing that it did afterwards counts. -/
def Progress.finish (progress : Progress) : Except Error Compiled :=
  if hasAbort progress.1.env.diagnostics then .error .aborted
  else match progress with
    | (_, some error) => .error error
    | (session, none) => .ok session.finish

def compileTextWith (config : Config) (files : FileSystem) (source : Text) :
    Except Error Compiled :=
  Progress.finish ((Session.start config).text files source)

def compileText (config : Config) (source : Text) : Except Error Compiled :=
  compileTextWith config {} source

def compileFile (config : Config) (files : FileSystem) (path : Text) : Except Error Compiled :=
  Progress.finish ((Session.start config).file files path)

structure Summary where
  filesProcessed : Nat := 1
  filesWritten : Nat := 0
  bytesWritten : Nat := 0
  warnings : Nat := 0
  errors : List Text := []
  deriving Repr, DecidableEq

def Summary.isSuccess (summary : Summary) : Bool :=
  summary.errors.isEmpty

def Compiled.summary (compiled : Compiled) : Summary :=
  let failures := compiled.diagnostics.filter fun diagnostic => diagnostic.severity.isFailure
  { warnings := compiled.diagnostics.length - failures.length,
    errors := failures.map Diagnostic.text }

def writeProgram (files : FileSystem) (output : Text) (bytes : List UInt8) :
    FileSystem × Option Error :=
  let outer := (Path.parent? output).getD []
  let (files, fault) := files.makeDirectories outer
  match fault with
  | some fault => (files, some (.file outer fault))
  | none =>
    match files.write output bytes with
    | .error fault => (files, some (.file output fault))
    | .ok files => (files, none)

/-- Compile a file into another one. A run that breaks off leaves all files as they are. -/
def compileToFile (config : Config) (files : FileSystem) (input output : Text) :
    FileSystem × Except Error Summary :=
  match compileFile config files input with
  | .error .aborted => (files, .error .aborted)
  | .error error => (files.removeFile output, .error error)
  | .ok compiled =>
    if compiled.hasErrors then (files.removeFile output, .ok compiled.summary)
    else
      let bytes := Encoding.Utf16.encode compiled.text
      match writeProgram files output bytes with
      | (files, some error) => (files, .error error)
      | (files, none) =>
        (files, .ok { compiled.summary with
          filesWritten := 1,
          bytesWritten := bytes.length })

end PrimePlus
