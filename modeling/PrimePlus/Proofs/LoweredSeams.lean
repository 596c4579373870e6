import PrimePlus.Proofs.AliasTable
import PrimePlus.Proofs.RespelledSeams
import PrimePlus.Session

/-!
Constructs that carry texts from line to line keep seamed properties (`Carries.apply`).
-/

namespace PrimePlus

open List hiding all any
open Numeral

open Lexical (IsPlainText Seamed isPlain_of_isNameChar isPlainText_append isPlainText_cons
  isPlainText_toDigits)
open Text (trim)

variable {holds : Text → Prop} (hs : Seamed holds)

section Reals

def Alias.Table.RealsHold (holds : Text → Prop) (table : Table) : Prop :=
  ∀ identity ∈ table.identities, holds identity.real

variable {tbl : Alias.Table} {ident : Alias.Identity} {env : Environment}

theorem Alias.Table.RealsHold.get? (reals : tbl.RealsHold holds) {n : Text}
    (hit : tbl.get? n = some ident) : holds ident.real :=
  reals ident (mem_of_find?_eq_some hit)

theorem Alias.Identity.real_declaredAt (site : Site) (ident : Identity) :
    (ident.declaredAt site).real = trim ident.real := by
  unfold declaredAt
  dsimp only
  split
  · split <;> rfl
  · rfl

include hs

theorem Alias.Table.RealsHold.offer (reals : tbl.RealsHold holds) (site : Site)
    (real : holds ident.real) : (tbl.offer site ident).1.RealsHold holds := by
  rcases tbl.offer_cases site ident with ⟨eq, -⟩ | ⟨e, hc, -, -, next⟩
  · rwa [eq]
  · rw [next]
    intro o mem
    simp only [identities, mem_map, mem_insertBySize] at mem
    obtain ⟨chosen, rfl | old, rfl⟩ := mem
    · rw [Entry.compile?_identity hc, Identity.real_declaredAt]
      exact hs.trim real
    · exact reals _ (mem_map_of_mem old)

theorem realsHold_declare (reals : env.aliases.RealsHold holds) (real : holds ident.real) :
    (env.declare ident).aliases.RealsHold holds :=
  reals.offer hs env.site real

theorem realsHold_declareAs (reals : env.aliases.RealsHold holds) {n : Option Text}
    {identityOf : Text → Alias.Identity} (real : ∀ t, holds (identityOf t).real) :
    Alias.Table.RealsHold holds (match n with
      | some t => env.declare (identityOf t)
      | none => env).aliases := by
  cases n with
  | none => exact reals
  | some t => exact realsHold_declare hs reals (real t)

end Reals

section Numbers

theorem forall_mem_base32 {p : Char → Prop} (digit : ∀ d < 32, p (base32Digit d))
    (n : Nat) : ∀ c ∈ base32 n, p c := by
  have digits (n : Nat) (written : Text) (hp : ∀ c ∈ written, p c) :
      ∀ c ∈ base32Go n written, p c := by
    induction n using Nat.strongRecOn generalizing written with
    | ind n ih =>
      unfold base32Go
      split
      · exact hp
      · next positive =>
        exact ih (n / 32) (by omega) _ (forall_mem_cons.mpr ⟨digit _ (by omega), hp⟩)
  unfold base32
  split
  · have zero : p '0' := digit 0 (by decide)
    simpa using zero
  · exact digits n [] (by simp)

theorem isPlainText_base32 (n : Nat) : IsPlainText (base32 n) :=
  forall_mem_base32 (by decide) n

end Numbers

namespace Construct

open Regex
open EndsBack (guarded later)

variable {l next : Text} {env env' : Environment} (reals : env.aliases.RealsHold holds)
  (whole : holds l)

section Loops

theorem guarded_steppedPattern : steppedPattern.Guarded :=
  guarded (by simp +decide [steppedPattern, vocabulary])

theorem guarded_nextPattern : nextPattern.Guarded :=
  guarded (by simp +decide [nextPattern, vocabulary])

def StepsHold (holds : Text → Prop) (opened : List OpenLoop) : Prop :=
  ∀ loop ∈ opened, ∀ step ∈ loop.step, holds step

include hs

theorem holds_whileHeader {start cond : Text} (first : holds start) (second : holds cond) :
    holds (whileHeader start cond) := by
  refine hs.append _ _ (hs.append₃ ?_ (hs.plain _ (by decide)) second) (hs.plain _ (by decide))
  split
  · exact hs.nil
  · exact hs.append _ _ first (hs.plain _ (by decide))

variable {opened : List OpenLoop}

theorem holds_closeLoop (d : Nat) (steps : StepsHold holds opened) :
    holds (closeLoop d opened).1 ∧ StepsHold holds (closeLoop d opened).2 := by
  have closing : holds "END;".toList := hs.plain _ (by decide)
  cases opened with
  | nil => exact ⟨closing, steps⟩
  | cons inner outer =>
    obtain ⟨first, others⟩ := forall_mem_cons.mp steps
    rw [closeLoop]
    split
    · split
      · next step stepped =>
        exact ⟨hs.append _ _ (first step stepped) (hs.plain _ (by decide)), others⟩
      · exact ⟨closing, others⟩
    · exact ⟨closing, steps⟩

theorem holds_loops (d : Nat) (steps : StepsHold holds opened) (whole : holds l) :
    (∀ next ∈ (loops opened d l).1, holds next) ∧ StepsHold holds (loops opened d l).2 := by
  unfold loops
  split
  · exact ⟨by simp, steps⟩
  · have kept : StepsHold holds (opened.filter fun e => e.level ≤ d) :=
      fun loop mem => steps loop (mem_filter.mp mem).1
    -- a loop is kept with its step, which a later line writes
    have pushed (step : Option Text) (new : ∀ t ∈ step, holds t) :
        StepsHold holds (⟨d + 1, step⟩ :: opened.filter fun e => e.level ≤ d) :=
      forall_mem_cons.mpr ⟨new, kept⟩
    split
    · next hit first =>
      have parts := guarded_steppedPattern.find? hs first whole
      have part (n : Nat) := hs.trim (parts.group hs n)
      refine ⟨?_, pushed _ ?_⟩
      · rintro _ ⟨⟩
        exact hs.append₃ parts.lead (holds_whileHeader hs (part 1) (part 2)) parts.tail
      · intro t chosen
        split at chosen
        · cases chosen
        · cases chosen
          exact part 3
    · split
      · exact ⟨by simp, pushed none (by simp)⟩
      · split
        · exact ⟨by simp, kept⟩
        · next hit first =>
          have parts := guarded_nextPattern.find? hs first whole
          obtain ⟨closing, r⟩ := holds_closeLoop hs d kept
          refine ⟨?_, r⟩
          rintro _ ⟨⟩
          exact hs.append₃ parts.lead closing parts.tail

end Loops

section Switches

theorem guarded_casePattern : casePattern.Guarded :=
  guarded (by simp +decide [casePattern, vocabulary])

theorem guarded_switchPattern : switchPattern.Guarded :=
  guarded (by repeat first | exact .here | apply later)
    (by simp +decide [switchPattern, vocabulary])

def PlainSubjects (switches : Switches) : Prop :=
  ∀ entry ∈ switches.opened, IsPlainText entry.subject

theorem isPlainText_of_isPlainName {t : Text} (named : Pattern.isPlainName t) : IsPlainText t := by
  cases t with
  | nil => cases named
  | cons c r =>
    obtain ⟨letter, others⟩ := Bool.and_eq_true_iff.mp named
    refine isPlainText_cons (isPlain_of_isNameChar ?_) fun d mem =>
      isPlain_of_isNameChar (all_eq_true.mp others d mem)
    simp [Unicode.isNameChar, Unicode.isAlphanumeric, letter]

include hs in
theorem holds_of_branches? {subject next : Text} (hit : branches? subject l = some next)
    (hp : IsPlainText subject) (whole : holds l) : holds next := by
  unfold branches? at hit
  split at hit
  · cases hit
    refine guarded_casePattern.replaceAll hs (fun hit parts => ?_) whole
    exact hs.append _ _ (hs.append₃ (hs.append _ _ (hs.plain _ (by decide))
      (hs.plain _ hp)) (hs.plain _ (by decide)) (parts.group hs 1))
      (hs.plain _ (by decide))
  · cases hit

variable {switches : Switches} (hp : PlainSubjects switches) (d : Nat)

include hp

/-- A switch compares with a name: its subject itself or a variable that the subject is stored
in. -/
theorem plainSubjects_start (indent expr r : Text) :
    PlainSubjects (switches.start d indent expr r).2 := by
  refine forall_mem_cons.mpr ⟨?_, hp⟩
  split
  · next named => exact isPlainText_of_isPlainName named
  · exact isPlainText_append (by decide) (isPlainText_toDigits 10 _)

theorem plainSubjects_apply (l : Text) : PlainSubjects (switches.apply d l).2 := by
  unfold Switches.apply
  split
  · exact hp
  · split
    · next hit _ =>
      split
      · exact hp
      · next expr r _ =>
        dsimp only
        split
        · exact hp
        · exact plainSubjects_start hp d (hit.group 1) (trim expr) (trim (Text.join [';'] r))
    · have kept : ∀ e ∈ switches.opened.filter fun e => e.level ≤ d,
          IsPlainText e.subject := fun e mem => hp e (mem_filter.mp mem).1
      unfold Switches.proceed
      dsimp only
      split
      · simp [PlainSubjects]
      · next current outer opened =>
        rw [opened] at kept
        split
        · rwa [opened]
        · split
          · exact (forall_mem_cons.mp kept).2
          · rwa [opened]

include hs

theorem holds_start {indent expr r : Text} (hu : holds indent) (tested : holds expr)
    (branch : holds r) :
    holds (switches.start d indent expr r).1 := by
  have subject := plainSubjects_start hp d indent expr r _ mem_cons_self
  refine hs.append₃ (hs.append _ _ ?_ hu) (hs.plain _ (by decide)) ?_
  · split
    · exact hs.nil
    · next unnamed =>
      simp only [if_neg unnamed] at subject
      exact hs.append _ _ (hs.append₃ (hs.append₃ hu (hs.plain _ (by decide))
        (hs.plain _ subject)) (hs.plain _ (by decide)) tested) (hs.plain _ (by decide))
  · split
    · exact hs.nil
    · refine hs.append _ _ (hs.cons (by decide) hu) ?_
      cases hit : branches? _ r with
      | none => exact branch
      | some next => exact holds_of_branches? hs hit subject branch

theorem holds_proceed (depth : Nat) (whole : holds l) :
    ∀ next ∈ (switches.proceed depth l).1, holds next := by
  unfold Switches.proceed
  dsimp only
  split
  · simp
  · next current outer opened =>
    have inside : current ∈ switches.opened.filter fun e => e.level ≤ depth :=
      opened ▸ mem_cons_self
    split
    · simp
    · split
      · simp
      · exact fun next hit => holds_of_branches? hs hit (hp current (mem_filter.mp inside).1) whole

theorem holds_switches (whole : holds l) : ∀ next ∈ (switches.apply d l).1, holds next := by
  unfold Switches.apply
  split
  · simp
  · split
    · next hit first =>
      have parts := guarded_switchPattern.find? hs first whole
      have pieces := hs.splitTop ';' (by decide) (parts.group hs 2)
      split
      · simp
      · next expr r parted =>
        rw [parted, forall_mem_cons] at pieces
        dsimp only
        split
        · simp
        · rintro _ ⟨⟩
          exact holds_start hs hp d (parts.group hs 1) (hs.trim pieces.1)
            (hs.trim (hs.join (hs.singleton (by decide)) pieces.2))
    · exact holds_proceed hs hp d whole

end Switches

section Naming

open Naming

theorem guarded_namePairPattern : pairPattern.Guarded :=
  guarded (by simp +decide [pairPattern, vocabulary])

theorem guarded_variablesPattern : variablesPattern.Guarded :=
  guarded (by repeat first | exact .here | apply later)
    (by simp +decide [variablesPattern, any, vocabulary])

theorem guarded_functionPattern : functionPattern.Guarded :=
  guarded (by repeat first | exact .here | apply later)
    (by simp +decide [functionPattern, any, vocabulary])

variable {naming after : Naming}

theorem eq_of_cutInitial? {prev : Option Char} {t lead tail : Text}
    (cut : cutInitial? prev t = some (lead, tail)) : t = lead ++ '=' :: tail := by
  induction t generalizing prev lead with
  | nil => cases cut
  | cons c r ih =>
    unfold cutInitial? at cut
    dsimp only at cut
    split at cut
    · next here =>
      simp only [Bool.and_eq_true, decide_eq_true_eq] at here
      cases cut
      rw [here.1]
      rfl
    · obtain ⟨⟨inner, v⟩, later, eq⟩ := Option.map_eq_some_iff.mp cut
      cases eq
      rw [ih later, cons_append]

include hs

theorem holds_splitInitial {item : Text} (whole : holds item) :
    holds (splitInitial item).1 ∧ ∀ value ∈ (splitInitial item).2, holds value := by
  unfold splitInitial
  split
  · next lead value cut =>
    obtain ⟨first, second⟩ := hs.cut_around (by decide) (eq_of_cutInitial? cut ▸ whole)
    refine ⟨hs.trim ?_, by rintro _ ⟨⟩; exact second⟩
    split
    · next colon =>
      have shape : lead = lead.dropLast ++ [':'] := (dropLast_append_getLast? _ colon).symm
      rw [shape] at first
      exact hs.drop_right (by decide) first
    · exact first
  · exact ⟨hs.trim whole, by simp⟩

theorem holds_generate (cls : NameClass) (aliases : Alias.Table) :
    holds (naming.generate cls aliases).1 := by
  have letters : IsPlainText cls.letters := by cases cls <;> decide
  exact hs.append _ _ (hs.plain _ letters) (hs.plain _ (isPlainText_base32 _))

theorem holds_declared (naming : Naming) (cls : NameClass) {aliases : Alias.Table}
    (reals : aliases.RealsHold holds) {head : Text} (whole : holds head) :
    holds (naming.declared cls aliases head).1 := by
  unfold declared
  dsimp only
  split
  · next hit first =>
    have parts := guarded_namePairPattern.find? hs first (hs.trim whole)
    split
    · next prior known => exact reals.get? known
    · split
      · exact holds_generate hs cls aliases
      · exact parts.group hs 1
  · split
    · split
      · next prior known => exact reals.get? known
      · exact holds_generate hs cls aliases
    · exact hs.trim whole

include reals

theorem holds_variableItems (naming : Naming) (cls : NameClass) {items : List Text}
    (all : ∀ item ∈ items, holds item) :
    (∀ item ∈ (variableItems cls naming env items).1, holds item) ∧
      (variableItems cls naming env items).2.2.aliases.RealsHold holds := by
  induction items generalizing naming env with
  | nil => exact ⟨by simp [variableItems], reals⟩
  | cons item r ih =>
    obtain ⟨first, others⟩ := forall_mem_cons.mp all
    obtain ⟨head, value⟩ := holds_splitInitial hs first
    unfold variableItems
    dsimp only
    split
    · exact ih reals _ others
    · have real := holds_declared hs naming cls reals head
      have written : holds (match (splitInitial item).2 with
          | some value =>
            (naming.declared cls env.aliases (splitInitial item).1).1 ++ " := ".toList ++ trim value
          | none => (naming.declared cls env.aliases (splitInitial item).1).1) := by
        split
        · next initial given =>
          exact hs.append₃ real (hs.plain _ (by decide)) (hs.trim (value initial given))
        · exact real
      rw [forall_mem_cons, and_assoc]
      exact ⟨written, ih (realsHold_declareAs hs reals fun _ => real) _ others⟩

theorem holds_parameterNames (naming : Naming) (isForward : Bool) {parameters : List Text}
    (all : ∀ parameter ∈ parameters, holds parameter) :
    (∀ n ∈ (parameterNames isForward naming env parameters).1, holds n) ∧
      (parameterNames isForward naming env parameters).2.2.aliases.RealsHold holds := by
  induction parameters generalizing naming env with
  | nil => exact ⟨by simp [parameterNames], reals⟩
  | cons parameter r ih =>
    obtain ⟨first, others⟩ := forall_mem_cons.mp all
    unfold parameterNames
    split
    · exact ih reals _ others
    · have real := holds_declared hs naming .parameter reals first
      rw [forall_mem_cons, and_assoc]
      refine ⟨real, ih ?_ _ others⟩
      split
      · exact realsHold_declare hs reals real
      · exact reals

include whole

theorem holds_variables? (hit : naming.variables? env l = some (next, after, env')) :
    holds next ∧ env'.aliases.RealsHold holds := by
  unfold variables? at hit
  split at hit
  · cases hit
  · next m first =>
    have parts := guarded_variablesPattern.find? hs first whole
    split at hit
    · cases hit
    · have pieces := hs.splitTop ';' (by decide) (parts.group hs 3)
      obtain ⟨xs, r, shape⟩ := exists_cons_of_ne_nil (Lexical.splitTopFrom_ne_nil ';' 0 (m.group 3))
      rw [← Lexical.splitTop] at shape
      simp only [shape] at hit pieces
      cases hit
      obtain ⟨first, others⟩ := forall_mem_cons.mp pieces
      obtain ⟨items, after⟩ := holds_variableItems hs reals naming
        (if env.depth = 0 then NameClass.global else NameClass.inner)
        (hs.splitTop ',' (by decide) first)
      refine ⟨hs.append _ _ (hs.append₃ (parts.group hs 1) ?_
        (hs.join (hs.plain _ (by decide)) items)) ?_, after⟩
      · exact hs.plain _ (by split <;> decide)
      · split
        · exact hs.nil
        · exact hs.cons (by decide) (hs.join (hs.singleton (by decide)) others)

theorem holds_header? (hit : naming.header? env l = some (next, after, env')) :
    holds next ∧ env'.aliases.RealsHold holds := by
  unfold header? at hit
  split at hit
  · cases hit
  · split at hit
    · cases hit
    · next m first =>
      have parts := guarded_functionPattern.find? hs first whole
      split at hit
      · cases hit
      · have real := holds_declared hs naming .function reals (parts.group hs 3)
        have declared : Alias.Table.RealsHold holds
            (match (naming.declared .function env.aliases (m.group 3)).2.1 with
              | some identifier => env.declare
                  { identifier := identifier,
                    real := (naming.declared .function env.aliases (m.group 3)).1,
                    kind := .function,
                    scope := .level 0 }
              | none => env).aliases := realsHold_declareAs hs reals fun _ => real
        obtain ⟨names, known⟩ := holds_parameterNames hs declared
          ((naming.declared .function env.aliases (m.group 3)).2.2.setLast 0 .parameter)
          ((Text.trimEnd (m.group 5)).getLast? == some ';')
          (hs.splitTop ',' (by decide) (parts.group hs 4))
        cases hit
        have lead : holds (match m.group? 2 with
            | some word => (trim word).map Char.toUpper ++ [' ']
            | none => []) := by
          split
          · next word given =>
            exact hs.append _ _ (hs.map_toUpper (hs.trim (parts.group? given)))
              (hs.singleton (by decide))
          · exact hs.nil
        refine ⟨hs.append _ _ (hs.append _ _ (hs.append₃ (parts.group hs 1) lead real)
          (hs.cons (c := '(') (by decide) (hs.join (hs.singleton (by decide)) names)))
          (hs.cons (c := ')') (by decide) (parts.group hs 5)), known⟩

theorem holds_naming (hit : naming.lower? env l = some (next, after, env')) :
    holds next ∧ env'.aliases.RealsHold holds := by
  unfold lower? at hit
  cases first : naming.variables? env l with
  | some result =>
    rw [first] at hit
    cases hit
    exact holds_variables? hs reals whole first
  | none =>
    rw [first] at hit
    exact holds_header? hs reals whole hit

end Naming

section Records

open Records

theorem guarded_instancePairPattern : pairPattern.Guarded :=
  guarded (by simp +decide [pairPattern, vocabulary])

theorem guarded_memberPattern : memberPattern.Guarded :=
  guarded (by simp +decide [memberPattern, letter, dottedChar, vocabulary])

theorem guarded_instancesPattern : instancesPattern.Guarded :=
  guarded (by repeat first | exact .here | apply later)
    (by simp +decide [instancesPattern, vocabulary])

def MembersHold (holds : Text → Prop) (records : Records) : Prop :=
  ∀ record ∈ records.known ++ records.opened.toList, ∀ member ∈ record.members, holds member

variable {records after : Records} {record : Record} (members : MembersHold holds records)

include hs

theorem holds_membersOf (whole : holds l) : ∀ member ∈ membersOf l, holds member := by
  intro member mem
  obtain ⟨part, hi, rfl⟩ := mem_map.mp (mem_filter.mp mem).1
  exact hs.trim (hs.splitOn ';' (by decide) whole part hi)

include members

theorem holds_instanceNames (aliases : Alias.Table) {declared : Text} (whole : holds declared) :
    holds (records.instanceNames aliases declared).1 ∧
      holds (records.instanceNames aliases declared).2.1 ∧
      MembersHold holds (records.instanceNames aliases declared).2.2 := by
  have generated : holds (records.generate aliases).1 :=
    hs.cons (by decide) (hs.plain _ (isPlainText_toDigits 10 _))
  unfold instanceNames
  split
  · next hit first =>
    have parts := guarded_instancePairPattern.find? hs first whole
    split
    · exact ⟨generated, parts.group hs 2, members⟩
    · exact ⟨parts.group hs 1, parts.group hs 2, members⟩
  · split
    · exact ⟨generated, whole, members⟩
    · exact ⟨whole, whole, members⟩

theorem membersHold_continueWith (opened : records.opened = some record) (whole : holds l) :
    MembersHold holds (records.continueWith record l) := by
  rw [MembersHold, opened, forall_mem_append, Option.toList_some, forall_mem_singleton] at members
  obtain ⟨known, own⟩ := members
  unfold continueWith MembersHold
  split
  · rw [Option.toList_none, append_nil, forall_mem_append, forall_mem_singleton]
    exact ⟨fun o mem => known o (mem_filter.mp mem).1, own⟩
  · rw [forall_mem_append, Option.toList_some, forall_mem_singleton, forall_mem_append]
    exact ⟨known, own, holds_membersOf hs whole⟩

include reals

omit members in
theorem realsHold_declareMembers (own : ∀ member ∈ record.members, holds member) {real : Text}
    (known : holds real) (identifier : Text) :
    (declareMembers record real identifier env).aliases.RealsHold holds := by
  refine foldlRecOn (motive := fun env : Environment => env.aliases.RealsHold holds)
    record.members _ reals fun env pre member mem => ?_
  split
  · exact pre
  · exact realsHold_declare hs pre
      (guarded_memberPattern.replaceAll hs (fun _ _ => known) (own member mem))

theorem holds_instances (own : ∀ mem ∈ record.members, holds mem) {items : List Text}
    (all : ∀ item ∈ items, holds item) :
    (∀ decl ∈ (instances record records env items).1, holds decl) ∧
      MembersHold holds (instances record records env items).2.1 ∧
      (instances record records env items).2.2.aliases.RealsHold holds := by
  induction items generalizing records env with
  | nil => exact ⟨by simp [instances], members, reals⟩
  | cons item r ih =>
    obtain ⟨first, others⟩ := forall_mem_cons.mp all
    unfold instances
    dsimp only
    split
    · exact ih reals members others
    · obtain ⟨real, identifier, after⟩ := holds_instanceNames hs members env.aliases (hs.trim first)
      have declared := realsHold_declareMembers hs reals own real
        (records.instanceNames env.aliases (trim item)).2.1
      have later := ih declared after others
      split
      · exact later
      · refine ⟨forall_mem_cons.mpr ⟨hs.append _ _ ?_ (hs.plain _ (by decide)), later.1⟩, later.2⟩
        split
        · exact real
        · exact hs.append _ _ real (hs.cons (by decide) identifier)

include whole

theorem holds_instantiate? (hit : records.instantiate? env l = some (next, after, env')) :
    holds next ∧ MembersHold holds after ∧ env'.aliases.RealsHold holds := by
  unfold instantiate? at hit
  simp only [Option.bind_eq_bind, Option.bind_eq_some_iff] at hit
  obtain ⟨hm, first, record, known, eq⟩ := hit
  have parts := guarded_instancesPattern.find? hs first whole
  have mem : record ∈ records.known := mem_of_find?_eq_some known
  obtain ⟨declarations, declared⟩ := holds_instances hs reals members
    (members record (mem_append_left _ mem))
    (hs.splitTop ',' (by decide) (parts.group hs 3))
  cases eq
  refine ⟨?_, declared⟩
  split
  · exact hs.trim (parts.group hs 4)
  · exact hs.append _ _ (hs.append₃ (parts.group hs 1) (hs.plain _ (by decide))
      (hs.join (hs.plain _ (by decide)) declarations))
      (hs.cons (by decide) (parts.group hs 4))

theorem holds_records (hit : records.lower? env l = some (next, after, env')) :
    holds next ∧ MembersHold holds after ∧ env'.aliases.RealsHold holds := by
  unfold lower? at hit
  dsimp only at hit
  split at hit
  · next record opened =>
    cases hit
    exact ⟨hs.nil, membersHold_continueWith hs members opened (hs.trim whole), reals⟩
  · split at hit
    · cases hit
      refine ⟨hs.nil, ?_, ?_⟩
      · rw [MembersHold, forall_mem_append] at members ⊢
        exact ⟨members.1, forall_mem_singleton.mpr (forall_mem_nil _)⟩
      · split <;> exact reals
    · exact holds_instantiate? hs reals whole members hit

end Records

section Enumeration

theorem guarded_itemPattern : itemPattern.Guarded :=
  guarded (by simp +decide [itemPattern, signedDigits, vocabulary])

include hs reals whole

theorem realsHold_declareItems (enumeration : Text) :
    (declareItems enumeration env l).aliases.RealsHold holds := by
  refine foldlRecOn (motive := fun env : Environment => env.aliases.RealsHold holds)
    (itemPattern.findAll l) _ reals fun env pre hit mem => ?_
  refine foldlRecOn (motive := fun env : Environment => env.aliases.RealsHold holds)
    _ _ pre fun env pre n _ => ?_
  have parts := guarded_itemPattern.findAll hs whole hit mem
  exact realsHold_declare hs pre (parts.group hs 2)

theorem realsHold_enumeration? {opened after : Option Text}
    (hit : enumeration? opened env l = some (after, env')) : env'.aliases.RealsHold holds := by
  unfold enumeration? at hit
  dsimp only at hit
  split at hit
  · split at hit
    · cases hit
      exact reals
    · cases hit
      exact realsHold_declareItems hs reals (hs.trim whole) _
  · obtain ⟨hm, -, eq⟩ := Option.map_eq_some_iff.mp hit
    cases eq
    exact reals

end Enumeration

section Apply

/-- Whether all that can be written into a line, and was remembered from earlier lines, has a
property. -/
structure Carries (holds : Text → Prop) (memory : Memory) (env : Environment) : Prop where
  reals : env.aliases.RealsHold holds
  steps : StepsHold holds memory.loops
  subjects : PlainSubjects memory.switches
  members : MembersHold holds memory.records

variable {memory : Memory}

include hs

theorem Carries.apply (carries : Carries holds memory env) {construct : Construct}
    (mem : construct ∈ Session.resolvedDeclarations ++ Session.lowerings) (whole : holds l) :
    Carries holds (construct.apply memory env l).memory (construct.apply memory env l).env ∧
      ∀ next ∈ (construct.apply memory env l).line, holds next := by
  cases construct with
  | synonym | stash | definition | dictionary | namespaceUse => simp +decide at mem
  | record =>
    unfold Construct.apply
    dsimp only
    split
    · next next after env' hit =>
      obtain ⟨written, members, reals⟩ := holds_records hs carries.reals whole carries.members hit
      exact ⟨{ carries with reals := reals, members := members }, by rintro _ ⟨⟩; exact written⟩
    · exact ⟨carries, by simp⟩
  | enumeration =>
    unfold Construct.apply
    dsimp only
    split
    · next after env' hit =>
      exact ⟨{ carries with reals := realsHold_enumeration? hs carries.reals whole hit },
        by rintro _ ⟨⟩; exact hs.nil⟩
    · exact ⟨carries, by simp⟩
  | naming =>
    unfold Construct.apply
    dsimp only
    split
    · next next after env' hit =>
      obtain ⟨written, reals⟩ := holds_naming hs carries.reals whole hit
      exact ⟨{ carries with reals := reals }, by rintro _ ⟨⟩; exact written⟩
    · exact ⟨carries, by simp⟩
  | loop =>
    obtain ⟨written, steps⟩ := holds_loops hs env.depth carries.steps whole
    exact ⟨{ carries with steps := steps }, written⟩
  | switch =>
    exact ⟨{ carries with subjects := plainSubjects_apply carries.subjects env.depth l },
      holds_switches hs carries.subjects env.depth whole⟩
  | conditional =>
    exact ⟨carries, fun next hit => holds_of_conditional? hs hit whole⟩
  | keyword =>
    refine ⟨?_, fun next hit => holds_of_keywords? hs hit whole⟩
    unfold Construct.apply
    dsimp only
    split
    · exact { carries with reals := carries.reals }
    · exact carries
  | operator =>
    refine ⟨carries, fun next hit => ?_⟩
    dsimp only [Construct.apply] at hit
    exact holds_of_operators? hs hit whole

end Apply

end Construct

end PrimePlus
