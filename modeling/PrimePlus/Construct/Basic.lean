import PrimePlus.Construct.Conditional
import PrimePlus.Construct.Definition
import PrimePlus.Construct.Dictionary
import PrimePlus.Construct.Keyword
import PrimePlus.Construct.Loop
import PrimePlus.Construct.Naming
import PrimePlus.Construct.Operator
import PrimePlus.Construct.Record
import PrimePlus.Construct.Stash
import PrimePlus.Construct.Switch
import PrimePlus.Construct.Synonym

/-!
The constructs that are lowered line by line, and what each of them remembers.
-/

namespace PrimePlus

inductive Construct where
  | synonym
  | naming
  | stash
  | definition
  | dictionary
  | enumeration
  | loop
  | conditional
  | namespaceUse
  | operator
  | record
  | keyword
  | switch
  deriving Repr, DecidableEq

namespace Construct

def everyOne : List Construct :=
  [.synonym, .naming, .stash, .definition, .dictionary, .enumeration, .loop, .conditional,
    .namespaceUse, .operator, .record, .keyword, .switch]

def name : Construct → Text
  | .synonym => "alias".toList
  | .naming => "auto".toList
  | .stash => "code-stack".toList
  | .definition => "def".toList
  | .dictionary => "dict".toList
  | .enumeration => "enum".toList
  | .loop => "for-next".toList
  | .conditional => "ifte".toList
  | .namespaceUse => "namespace".toList
  | .operator => "operators".toList
  | .record => "struct".toList
  | .keyword => "sugar".toList
  | .switch => "switch".toList

def description : Construct → Text
  | .synonym => "names a piece of PPL text, globally with @".toList
  | .naming => "lowers named and auto declarations of variables, functions and parameters".toList
  | .stash => "pushes, pops and peeks text saved by pattern rules".toList
  | .definition => "declares identifiers standing for PPL text, optionally deprecated".toList
  | .dictionary => "expands dict field lists into member aliases".toList
  | .enumeration => "registers enumerators as Name::item and Name.item".toList
  | .loop => "lowers C style for loops to WHILE and pairs next with its loop".toList
  | .conditional => "lowers (cond ? a : b) to IFTE(cond, a, b) inside blocks".toList
  | .namespaceUse => "opens and closes namespaces for alias lookup".toList
  | .operator => "maps C style operators and constants onto PPL".toList
  | .record => "records structure declarations and expands their instances".toList
  | .keyword => "maps P+ keyword spellings and flow shortcuts onto PPL".toList
  | .switch => "lowers switch/case to CASE with IF branches".toList

structure Memory where
  stash : Stash := []
  enumeration : Option Text := none
  records : Records := {}
  naming : Naming := {}
  switches : Switches := {}
  loops : List OpenLoop := []
  deriving Repr, DecidableEq

def Memory.reset (memory : Memory) : Memory :=
  { memory with
    records := memory.records.reset,
    naming := memory.naming.setLast 0 .inner,
    switches := {},
    loops := [] }

/-- The outcome for a line: the new line where the construct was found in it, and the memory and the
environment after it. -/
structure Outcome where
  line : Option Text
  memory : Memory
  env : Environment

def apply (construct : Construct) (memory : Memory) (env : Environment) (line : Text) : Outcome :=
  let absent : Outcome := ⟨none, memory, env⟩
  let declared := fun (result : Option Environment) =>
    match result with
    | some env => ⟨some [], memory, env⟩
    | none => absent
  match construct with
  | .synonym => declared (synonym? env line)
  | .definition => declared (definition? env line)
  | .dictionary => declared (dictionary? env line)
  | .namespaceUse => declared (namespaceUse? env line)
  | .naming =>
    match memory.naming.lower? env line with
    | some (line, next, env) => ⟨some line, { memory with naming := next }, env⟩
    | none => absent
  | .stash =>
    match stash? memory.stash env line with
    | some (line, next, env) => ⟨some line, { memory with stash := next }, env⟩
    | none => absent
  | .enumeration =>
    match enumeration? memory.enumeration env line with
    | some (next, env) => ⟨some [], { memory with enumeration := next }, env⟩
    | none => absent
  | .record =>
    match memory.records.lower? env line with
    | some (line, next, env) => ⟨some line, { memory with records := next }, env⟩
    | none => absent
  | .loop =>
    let (line, next) := loops memory.loops env.depth line
    ⟨line, { memory with loops := next }, env⟩
  | .switch =>
    let (line, next) := memory.switches.apply env.depth line
    ⟨line, { memory with switches := next }, env⟩
  | .conditional => ⟨conditional? env.depth line, memory, env⟩
  | .keyword =>
    let env' := if hasGuard env.depth line then env.report .deprecated guardAdvice else env
    ⟨keywords? env.depth line, memory, env'⟩
  | .operator => ⟨operators? line, memory, env⟩

/-- How often a construct was found, and how often nothing was left of the line. -/
structure Count where
  found : Nat := 0
  consumed : Nat := 0
  deriving Repr, DecidableEq

structure Tally where
  counts : List (Construct × Count) := []
  deriving Repr, DecidableEq

namespace Tally

def get? (tally : Tally) (construct : Construct) : Option Count :=
  (tally.counts.find? fun entry => entry.1 == construct).map Prod.snd

def record (tally : Tally) (construct : Construct) (line : Text) : Tally :=
  let count := (tally.get? construct).getD {}
  let consumed := if Text.isBlankText line then count.consumed + 1 else count.consumed
  ⟨(construct, ⟨count.found + 1, consumed⟩) ::
    tally.counts.filter fun entry => entry.1 != construct⟩

def entries (tally : Tally) : List (Construct × Count) :=
  everyOne.filterMap fun construct => (tally.get? construct).map fun count => (construct, count)

def total (tally : Tally) : Nat :=
  tally.counts.foldl (fun n entry => n + entry.2.found) 0

end Tally

end Construct

end PrimePlus
