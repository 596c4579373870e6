import PrimePlus.CommandLine

/-!
The program itself. All files that it may include are read first.
-/

namespace PrimePlus.Main

def string (t : Text) : String :=
  String.ofList t

def fetch (files : FileSystem) (path : Text) : IO FileSystem := do
  match ← (IO.FS.readBinFile (string path)).toBaseIO with
  | .ok bytes => return (writeProgram files path bytes.toList).1
  | .error (.noFileOrDirectory ..) => return files
  | .error _ => return (files.makeDirectories path).1

partial def load (config : Config) (files : FileSystem) (path : Text) : IO FileSystem := do
  if files.has path then return files
  let mut files ← fetch files path
  match files.readText path with
  | .error _ => return files
  | .ok source =>
    for next in Directive.mentioned config path source do
      files ← load config files next
    return files

def store (files : FileSystem) (output : Text) : IO Unit := do
  match files.readBytes output with
  | .ok bytes =>
    let outer := (Path.parent? output).getD []
    if !outer.isEmpty then IO.FS.createDirAll (string outer)
    IO.FS.writeBinFile (string output) (ByteArray.mk bytes.toArray)
  | .error _ => discard (IO.FS.removeFile (string output)).toBaseIO

/-- The exit code of a compilation. One that breaks off touches no file. -/
def compile (options : CommandLine.Options) : IO UInt32 := do
  let files ← load options.config {} options.input
  let (files, result) := compileToFile options.config files options.input options.output
  if let .error .aborted := result then return 101
  store files options.output
  match result with
  | .error error =>
    IO.eprintln ("Error: " ++ string (options.failureMessage error))
    return 1
  | .ok summary =>
    for message in summary.errors do
      IO.eprintln (string message)
    return if summary.isSuccess then 0 else 1

end PrimePlus.Main

def main (arguments : List String) : IO UInt32 := do
  match PrimePlus.CommandLine.parse ([] :: arguments.map String.toList) with
  | .ok .build =>
    IO.println (PrimePlus.Main.string PrimePlus.buildInfo)
    return 0
  | .ok (.compile options) =>
    PrimePlus.Main.compile options
  | .error .help =>
    IO.println (PrimePlus.Main.string PrimePlus.CommandLine.usage)
    return 0
  | .error .version =>
    IO.println ("pplus " ++ PrimePlus.Main.string PrimePlus.versionText)
    return 0
  | .error refusal =>
    IO.eprintln ("error: " ++ PrimePlus.Main.string refusal.message)
    IO.eprintln (PrimePlus.Main.string PrimePlus.CommandLine.usage)
    return 2
