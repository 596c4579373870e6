import PrimePlus.Alias.Resolve
import PrimePlus.Proofs.AliasTable
import PrimePlus.Rule

/-!
Tables of identities and sets of pattern rules without the places of their declarations.
-/

namespace PrimePlus

open List

def severities (diagnostics : List Diagnostic) : List Severity :=
  diagnostics.map Diagnostic.severity

@[simp] theorem severities_append (first second : List Diagnostic) :
    severities (first ++ second) = severities first ++ severities second :=
  map_append

theorem hasAbort_eq (diagnostics : List Diagnostic) :
    hasAbort diagnostics = (severities diagnostics).any (· == .abort) := by
  rw [severities, any_map]
  rfl

structure AlikeReports (told told' : List Diagnostic) : Prop where
  same : severities told = severities told'
  unwarned : Severity.warning ∉ severities told

namespace AlikeReports

variable {told told' more more' : List Diagnostic}

theorem nil : AlikeReports [] [] :=
  ⟨rfl, not_mem_nil⟩

theorem append (first : AlikeReports told told') (second : AlikeReports more more') :
    AlikeReports (told ++ more) (told' ++ more') where
  same := by rw [severities_append, severities_append, first.same, second.same]
  unwarned := by
    rw [severities_append]
    exact fun warned => (mem_append.mp warned).elim first.unwarned second.unwarned

theorem flatMap {α : Type} {xs : List α} {f g : α → List Diagnostic}
    (each : ∀ a, AlikeReports (f a) (g a)) : AlikeReports (xs.flatMap f) (xs.flatMap g) := by
  induction xs with
  | nil => exact .nil
  | cons a r ih => exact (each a).append ih

end AlikeReports

def Reported.Alike {α : Type} (left right : Reported α) : Prop :=
  left.1 = right.1 ∧ AlikeReports left.2 right.2

theorem settle_alike {pass pass' : Text → Reported Text}
    (each : ∀ t, Reported.Alike (pass t) (pass' t)) (limit : Nat) (t : Text) :
    (settle pass limit t).text = (settle pass' limit t).text ∧
      (settle pass limit t).isFixed = (settle pass' limit t).isFixed ∧
      AlikeReports (settle pass limit t).diagnostics (settle pass' limit t).diagnostics := by
  induction limit generalizing t with
  | zero => exact ⟨rfl, rfl, .nil⟩
  | succ limit ih =>
    obtain ⟨eq, reported⟩ := each t
    unfold settle
    dsimp only
    rw [← eq]
    split
    · exact ⟨rfl, rfl, reported⟩
    · obtain ⟨text, fixed, r⟩ := ih (pass t).1
      exact ⟨text, fixed, reported.append r⟩

variable (loc loc' : Location)

theorem Error.severity_ne_warning (error : Error) : error.severity ≠ .warning := by
  unfold severity
  split <;> decide

theorem Error.diagnostic_alike (error : Error) :
    AlikeReports [error.diagnostic loc] [error.diagnostic loc'] :=
  ⟨rfl, by simp [severities, diagnostic, error.severity_ne_warning.symm]⟩

theorem Expression.reported_alike (result : Text × List Fault) :
    Reported.Alike (reported loc result) (reported loc' result) := by
  refine ⟨rfl, ?_, ?_⟩
  · simp only [severities, reported, map_map]
    rfl
  · simp [severities, reported, Error.diagnostic, Error.severity_ne_warning]

namespace Alias

def Identity.unplaced (identity : Identity) : Identity :=
  { identity with location := {} }

def Entry.unplaced (entry : Entry) : Entry :=
  ⟨entry.identity.unplaced, entry.finder⟩

def Table.unplaced (table : Table) : Table :=
  { table with entries := table.entries.map Entry.unplaced }

theorem Entry.compile?_unplaced (namespaces : List Text) (ident : Identity) :
    compile? namespaces ident.unplaced = (compile? namespaces ident).map unplaced := by
  rw [compile?, compile?, Option.map_map]
  rfl

theorem Identity.unplaced_declaredAt (site : Site) (ident : Identity) :
    (ident.declaredAt site).unplaced = (ident.declaredAt ⟨{}, site.depth⟩) := by
  unfold declaredAt
  dsimp only
  split
  · split <;> rfl
  · rfl

namespace Table

variable (tbl : Table)

theorem identities_unplaced : tbl.unplaced.identities = tbl.identities.map Identity.unplaced := by
  simp only [identities, unplaced, map_map]
  rfl

theorem get?_unplaced (identifier : Text) :
    tbl.unplaced.get? identifier = (tbl.get? identifier).map Identity.unplaced := by
  rw [get?, identities_unplaced, find?_map]
  rfl

theorem hasName_unplaced (identifier : Text) :
    tbl.unplaced.hasName identifier = tbl.hasName identifier := by
  rw [hasName, get?_unplaced, Option.isSome_map]
  rfl

theorem hasReal_unplaced (real : Text) : tbl.unplaced.hasReal real = tbl.hasReal real := by
  rw [hasReal, identities_unplaced, any_map]
  rfl

theorem nextFree_unplaced (n : Nat → Text) (last : Nat) :
    tbl.unplaced.nextFree n last = tbl.nextFree n last := by
  simp only [nextFree, hasReal_unplaced, identities_unplaced, length_map]

theorem unplaced_remove (identifier : Text) :
    (tbl.remove identifier).unplaced = tbl.unplaced.remove identifier := by
  simp only [remove, unplaced, eraseP_map]
  rfl

theorem unplaced_recompile : tbl.recompile.unplaced = tbl.unplaced.recompile := by
  have each (e : Entry) : ((Entry.compile? tbl.namespaceNames e.identity).getD e).unplaced =
        (Entry.compile? tbl.namespaceNames e.unplaced.identity).getD e.unplaced := by
    have hc : Entry.compile? tbl.namespaceNames e.unplaced.identity =
        (Entry.compile? tbl.namespaceNames e.identity).map Entry.unplaced :=
      Entry.compile?_unplaced _ _
    rw [hc]
    cases Entry.compile? tbl.namespaceNames e.identity <;> rfl
  simp only [recompile, unplaced, map_map]
  congr 1
  exact map_congr_left fun e _ => each e

theorem unplaced_keepNamespaces (keeps : Namespace → Bool) :
    (tbl.keepNamespaces keeps).unplaced = tbl.unplaced.keepNamespaces keeps := by
  have eq : tbl.unplaced.namespaces = tbl.namespaces := rfl
  unfold keepNamespaces
  dsimp only
  rw [eq]
  split
  · rfl
  · exact unplaced_recompile _

theorem unplaced_purge (depth : Nat) : (tbl.purge depth).unplaced = tbl.unplaced.purge depth := by
  unfold purge
  rw [unplaced_keepNamespaces]
  simp only [unplaced, filter_map]
  rfl

theorem unplaced_addNamespace (n : Text) (depth : Nat) :
    (tbl.addNamespace n depth).unplaced = tbl.unplaced.addNamespace n depth := by
  have same : tbl.unplaced.namespaceNames = tbl.namespaceNames := rfl
  unfold addNamespace
  dsimp only
  rw [same]
  split
  · rfl
  · exact unplaced_recompile _

theorem unplaced_removeNamespace (name : Text) :
    (tbl.removeNamespace name).unplaced = tbl.unplaced.removeNamespace name :=
  tbl.unplaced_keepNamespaces _

theorem unplaced_offer (site : Site) (ident : Identity) :
    (tbl.offer site ident).1.unplaced =
        (tbl.unplaced.offer ⟨{}, site.depth⟩ ident).1 ∧
      (tbl.offer site ident).2.1 = (tbl.unplaced.offer ⟨{}, site.depth⟩ ident).2.1 ∧
      severities (tbl.offer site ident).2.2 =
        severities (tbl.unplaced.offer ⟨{}, site.depth⟩ ident).2.2 := by
  have names : tbl.unplaced.namespaceNames = tbl.namespaceNames := rfl
  have identifier : (ident.declaredAt ⟨{}, site.depth⟩).identifier =
      (ident.declaredAt site).identifier := by
    rw [← Identity.unplaced_declaredAt]
    rfl
  unfold offer append
  dsimp only
  rw [identifier, get?_unplaced, names, ← Identity.unplaced_declaredAt, Entry.compile?_unplaced]
  cases (Text.trim ident.identifier).isEmpty with
  | true => exact ⟨rfl, rfl, rfl⟩
  | false =>
    cases tbl.get? (ident.declaredAt site).identifier with
    | some prior => exact ⟨rfl, rfl, rfl⟩
    | none =>
      cases Entry.compile? tbl.namespaceNames (ident.declaredAt site) with
      | none => exact ⟨rfl, rfl, rfl⟩
      | some e =>
        have placed := map_insertBySize (fun e : Entry => e.identity.size) Entry.unplaced
          e tbl.entries
        refine ⟨?_, rfl, rfl⟩
        exact congrArg (fun entries => { tbl with entries := entries }) placed

end Table

section Resolve

theorem Identity.deprecation_alike (ident : Identity) :
    AlikeReports (ident.deprecation loc) (ident.deprecation loc') := by
  unfold deprecation
  split
  · exact .nil
  · exact ⟨rfl, by simp [severities]⟩

theorem applyCall_alike (ident : Identity) (args : List Text) :
    Reported.Alike (applyCall ident loc args) (applyCall ident loc' args) := by
  unfold applyCall
  split
  · exact ⟨rfl, .nil⟩
  · exact ⟨rfl, rfl, by simp [severities]⟩

theorem expandFrom_alike (ident : Identity) (finder : Finder) (fuel : Nat) (cur : Cursor) :
    Reported.Alike (expandFrom ident finder loc fuel cur)
      (expandFrom ident.unplaced finder loc' fuel cur) := by
  induction fuel generalizing cur with
  | zero => exact ⟨rfl, .nil⟩
  | succ fuel ih =>
    unfold expandFrom
    cases findCall? finder cur with
    | none =>
      refine ⟨rfl, ?_⟩
      dsimp only
      split
      · exact Error.aborted.diagnostic_alike loc loc'
      · exact .nil
    | some call =>
      have args := fun arg : Text => ih (.start (Text.trim arg))
      have texts : ((Lexical.splitArguments call.inside).map fun arg =>
            expandFrom ident finder loc fuel (.start (Text.trim arg))).map Prod.fst =
          ((Lexical.splitArguments call.inside).map fun arg =>
            expandFrom ident.unplaced finder loc' fuel (.start (Text.trim arg))).map Prod.fst := by
        rw [map_map, map_map]
        exact map_congr_left fun arg _ => (args arg).1
      obtain ⟨image, told⟩ := applyCall_alike loc loc' ident
        (((Lexical.splitArguments call.inside).map fun arg =>
            expandFrom ident finder loc fuel (.start (Text.trim arg))).map Prod.fst)
      obtain ⟨r, further⟩ := ih call.after
      have unplaced (texts : List Text) : applyCall ident.unplaced loc' texts =
          applyCall ident loc' texts := rfl
      dsimp only
      rw [← texts, unplaced, flatMap_map, flatMap_map]
      refine ⟨by rw [image, r], ?_⟩
      exact (((AlikeReports.flatMap fun arg => (args arg).2).append
        (ident.deprecation_alike loc loc')).append told).append further

theorem Entry.resolve_alike (e : Entry) (t : Text) :
    Reported.Alike (e.resolve loc t) (e.unplaced.resolve loc' t) := by
  have finder : e.unplaced.finder = e.finder := rfl
  have call : e.unplaced.identity.isCall = e.identity.isCall := rfl
  unfold resolve
  rw [finder, call]
  split
  · exact ⟨rfl, .nil⟩
  · split
    · exact expandFrom_alike loc loc' e.identity e.finder _ _
    · exact ⟨rfl, e.identity.deprecation_alike loc loc'⟩

theorem Table.resolveOnce_alike (tbl : Table) (t : Text) :
    Reported.Alike (tbl.resolveOnce loc t) (tbl.unplaced.resolveOnce loc' t) := by
  unfold resolveOnce unplaced
  rw [foldl_map]
  -- the same text goes through every entry, and what is told so far is equally serious
  refine foldl_rel (r := Reported.Alike) ⟨rfl, .nil⟩ ?_
  intro e _ done done' pre
  obtain ⟨text, told⟩ := pre
  obtain ⟨next, further⟩ := e.resolve_alike loc loc' done.1
  rw [← text]
  exact ⟨next, told.append further⟩

theorem looping_alike (isFixed : Bool) (error : Error) :
    AlikeReports (if isFixed then [] else [error.diagnostic loc])
      (if isFixed then [] else [error.diagnostic loc']) := by
  split
  · exact .nil
  · exact error.diagnostic_alike loc loc'

theorem Table.resolve_alike (tbl : Table) (t : Text) :
    Reported.Alike (tbl.resolve loc t) (tbl.unplaced.resolve loc' t) := by
  have none : tbl.unplaced.entries.isEmpty = tbl.entries.isEmpty := isEmpty_map
  unfold resolve
  dsimp only
  rw [none]
  split
  · exact ⟨rfl, .nil⟩
  · have passes : tbl.unplaced.maxPasses = tbl.maxPasses := rfl
    obtain ⟨text, fixed, told⟩ := settle_alike (tbl.resolveOnce_alike loc loc')
      tbl.maxPasses (Lexical.protect [] t).1
    rw [passes, ← fixed]
    exact ⟨by rw [text], told.append (looping_alike loc loc' _ _)⟩

end Resolve

end Alias

def Rule.unplaced (rule : Rule) : Rule :=
  { rule with location := {} }

namespace RuleSet

def unplaced (set : RuleSet) : RuleSet :=
  { set with rules := set.rules.map Rule.unplaced }

variable (set : RuleSet)

theorem unplaced_purge (depth : Nat) : (set.purge depth).unplaced = set.unplaced.purge depth := by
  simp only [purge, unplaced, filter_map]
  rfl

theorem unplaced_readLine? (site : Site) (l : Text) :
    (set.readLine? site l).map (fun next => (next.1.unplaced, severities next.2)) =
      (set.unplaced.readLine? ⟨{}, site.depth⟩ l).map fun next => (next.1, severities next.2) := by
  unfold readLine?
  rw [Option.map_map]
  cases RuleDeclaration.ofLine? l with
  | none => rfl
  | some decl =>
    have prior : set.unplaced.rules.find? (fun rule => rule.pattern == decl.pattern) =
        (set.rules.find? fun rule => rule.pattern == decl.pattern).map Rule.unplaced := by
      rw [unplaced, find?_map]
      rfl
    simp only [Option.map_some, Function.comp_apply, declare, prior]
    cases set.rules.find? fun rule => rule.pattern == decl.pattern with
    | some o => rfl
    | none =>
      cases decl.pattern.matcher? decl.ignoreCase with
      | none => rfl
      | some matcher => simp only [unplaced, map_append]; rfl

theorem resolveOnce_alike (d : Nat) (l : Text) :
    Reported.Alike (set.resolveOnce d loc l) (set.unplaced.resolveOnce d loc' l) := by
  unfold resolveOnce unplaced
  rw [foldl_map]
  refine foldl_rel (r := Reported.Alike) ⟨rfl, .nil⟩ ?_
  intro rule _ done done' pre
  have fired : rule.unplaced.fire? d done.1 = rule.fire? d done.1 := rfl
  obtain ⟨text, told⟩ := pre
  rw [← text, fired]
  cases rule.fire? d done.1 with
  | none => exact ⟨text, told⟩
  | some changed =>
    obtain ⟨next, further⟩ := Expression.reported_alike loc loc' (Expression.foldInline changed)
    exact ⟨next, told.append further⟩

theorem resolve_alike (d : Nat) (l : Text) :
    Reported.Alike (set.resolve d loc l) (set.unplaced.resolve d loc' l) := by
  have none : set.unplaced.rules.isEmpty = set.rules.isEmpty := isEmpty_map
  unfold resolve
  dsimp only
  rw [none]
  split
  · exact ⟨rfl, .nil⟩
  · have passes : set.unplaced.maxPasses = set.maxPasses := rfl
    obtain ⟨text, fixed, told⟩ := settle_alike (set.resolveOnce_alike loc loc' d) set.maxPasses l
    rw [passes, ← fixed]
    exact ⟨text, told.append (Alias.looping_alike loc loc' _ _)⟩

end RuleSet

end PrimePlus
