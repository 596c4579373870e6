import PrimePlus.Alias.Basic
import PrimePlus.Error
import PrimePlus.Fresh
import PrimePlus.Settle

/-!
The table of identities in force, longest name first: no shorter name is replaced inside it.
-/

namespace PrimePlus

/-- Insert an element behind all those whose size is at least its own. In a list of falling sizes
this keeps the order, and elements of one size stand in the order of their insertion. -/
def insertBySize {α : Type} (size : α → Nat) (a : α) : List α → List α
  | [] => [a]
  | b :: rest => if size a ≤ size b then b :: insertBySize size a rest else a :: b :: rest

namespace Alias

/-- A namespace in use, and the least number of open blocks under which it stays so. -/
structure Namespace where
  name : Text
  level : Nat
  deriving Repr, DecidableEq

structure Entry where
  identity : Identity
  finder : Finder

def Entry.compile? (namespaces : List Text) (identity : Identity) : Option Entry :=
  (identity.finder? namespaces).map fun finder => ⟨identity, finder⟩

structure Table where
  /-- How many passes a substitution may take. -/
  maxPasses : Nat
  somePass : 0 < maxPasses
  entries : List Entry := []
  namespaces : List Namespace := []
  verbose : Bool := false

inductive Rejection where
  | unnamed
  | redefinition (kind : Kind) (identifier : Text) (prior : Location)
  | invalid (identifier : Text)
  deriving Repr, DecidableEq

def Rejection.diagnostics (location : Location) : Rejection → List Diagnostic
  | .unnamed => []
  | .redefinition kind identifier prior =>
    [⟨.warning, location, "redefinition of ".toList ++ kind.text ++ " '".toList ++ identifier ++
      "', previous definition at ".toList ++ prior.text⟩]
  | .invalid identifier => [(Error.invalidPattern identifier).diagnostic location]

/-- An identity as it is declared at a site: blanks around its texts are dropped, it lives as long
as the block around it unless it says otherwise, and a single underscore in front of its name makes
it a member and is dropped. -/
def Identity.declaredAt (site : Site) (identity : Identity) : Identity :=
  let scope := match identity.scope with
    | .auto => .level site.depth
    | .level n => .level n
  let settled := { identity with
    identifier := Text.trim identity.identifier,
    real := Text.trim identity.real,
    deprecated := identity.deprecated.map Text.trim,
    location := site.location,
    scope := scope }
  match settled.identifier with
  | '_' :: rest =>
    if rest.head? = some '_' then settled
    else { settled with identifier := rest, kind := .member }
  | _ => settled

namespace Table

def empty (maxPasses : Nat) : Table :=
  { maxPasses := max 1 maxPasses, somePass := zero_lt_max_one maxPasses }

def identities (table : Table) : List Identity :=
  table.entries.map Entry.identity

def get? (table : Table) (identifier : Text) : Option Identity :=
  table.identities.find? fun identity => identity.identifier == identifier

def hasName (table : Table) (identifier : Text) : Bool :=
  (table.get? identifier).isSome

def hasReal (table : Table) (real : Text) : Bool :=
  table.identities.any fun identity => identity.real == real

def namespaceNames (table : Table) : List Text :=
  table.namespaces.map Namespace.name

def append (table : Table) (site : Site) (identity : Identity) : Except Rejection Table :=
  if (Text.trim identity.identifier).isEmpty then .error .unnamed
  else
    let identity := identity.declaredAt site
    match table.get? identity.identifier with
    | some prior => .error (.redefinition identity.kind identity.identifier prior.location)
    | none =>
      match Entry.compile? table.namespaceNames identity with
      | none => .error (.invalid identity.identifier)
      | some entry =>
        .ok { table with
          entries := insertBySize (fun entry => entry.identity.size) entry table.entries }

/-- Declare an identity at a site: the table after it, whether it was taken, and what is reported. A
rejected identity leaves the table as it is. -/
def offer (table : Table) (site : Site) (identity : Identity) : Table × Bool × List Diagnostic :=
  match table.append site identity with
  | .ok next => (next, true, [])
  | .error rejection => (table, false, rejection.diagnostics site.location)

def remove (table : Table) (identifier : Text) : Table :=
  { table with
    entries := table.entries.eraseP fun entry => entry.identity.identifier == identifier }

def recompile (table : Table) : Table :=
  { table with
    entries := table.entries.map fun entry =>
      (Entry.compile? table.namespaceNames entry.identity).getD entry }

/-- The table with some of its namespaces in use. Identities are compiled again only if one of the
others was in use. -/
def keepNamespaces (table : Table) (keeps : Namespace → Bool) : Table :=
  let namespaces := table.namespaces.filter keeps
  let next := { table with namespaces := namespaces }
  if namespaces.length = table.namespaces.length then next else next.recompile

/-- The table after blocks were closed: identities and namespaces that need more open blocks are
gone. -/
def purge (table : Table) (depth : Nat) : Table :=
  let entries := table.entries.filter fun entry => entry.identity.level ≤ depth
  keepNamespaces { table with entries := entries } fun space => space.level ≤ depth

def purgeKind (table : Table) (kind : Kind) : Table :=
  { table with entries := table.entries.filter fun entry => entry.identity.kind != kind }

def addNamespace (table : Table) (name : Text) (depth : Nat) : Table :=
  let name := Text.trim name
  if name.isEmpty || table.namespaceNames.contains name then table
  else recompile { table with namespaces := table.namespaces ++ [⟨name, depth⟩] }

def removeNamespace (table : Table) (name : Text) : Table :=
  table.keepNamespaces fun space => space.name != Text.trim name

/-- The least number above `last` whose name replaces no name of the table. No more numbers can be
taken than there are identities. -/
def nextFree (table : Table) (name : Nat → Text) (last : Nat) : Nat :=
  PrimePlus.nextFree (fun n => table.hasReal (name n)) table.identities.length last

end Table

end Alias

end PrimePlus
