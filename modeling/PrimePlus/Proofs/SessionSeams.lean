import PrimePlus.Proofs.AliasSeams
import PrimePlus.Proofs.LayoutSeams
import PrimePlus.Proofs.LoweredSeams
import PrimePlus.Proofs.ReadingSteps

/-!
Placeholders through a line of a session (`Session.Sound.ownLine`).
-/

namespace PrimePlus

open List

open Lexical
open Construct
open Text (trim)

namespace Environment

/-- A line after its names are replaced and the expressions quoted in it are computed, and the
literals that placeholders stand for in it. -/
def rewrite (env : Environment) (line : Text) : Text × Store :=
  let (masked, store) := protect [] line
  let (line, env) := env.resolveAliases (collapseBlanks masked)
  ((env.foldInline line).1, store)

/-- Whether the placeholders of a line stand apart when its names are replaced: each is a literal of
the new line as a whole, and there are no others. -/
def KeepsApart (env : Environment) (line : Text) : Prop :=
  ∀ part ∈ parts (env.rewrite line).1, IsApart (env.rewrite line).2.length part.text

instance (env : Environment) (line : Text) : Decidable (env.KeepsApart line) :=
  decidableBAll _ _

theorem keepsApart_of_isPlain {env : Environment} {line : Text} (hp : env.aliases.IsPlain)
    (compiled : env.aliases.IsCompiled) (hc : IsClosed line) (hu : Unmarked line) :
    env.KeepsApart line := by
  have collapsed := (seamed_sealed _).collapseBlanks (sealed_protect hu hc)
  have resolved := hp.sealed_resolve compiled env.location collapsed
  exact Sealed.isApart (holds_foldInline (seamed_sealed _) resolved)

end Environment

theorem Lexical.unmarked_expandTabs (wd : Nat) {t : Text} (hu : Unmarked t) :
    Unmarked (expandTabs wd t) := by
  intro c mem
  obtain ⟨d, hi, written⟩ := mem_flatMap.mp mem
  split at written
  · rw [(mem_replicate.mp written).2]
    decide
  · rw [mem_singleton.mp written]
    exact hu d hi

namespace Construct

theorem Carries.mono {p q : Text → Prop} (weaker : ∀ t, p t → q t) {memory : Memory}
    {env : Environment} (carries : Carries p memory env) : Carries q memory env where
  reals ident mem := weaker _ (carries.reals ident mem)
  steps loop mem step stepped := weaker _ (carries.steps loop mem step stepped)
  subjects := carries.subjects
  members record mem member inside := weaker _ (carries.members record mem member inside)

/-- Only switches change the subjects of switches, and these are plain. -/
theorem plainSubjects_of_apply (con : Construct) {memory : Memory}
    (hp : PlainSubjects memory.switches) (env : Environment) (line : Text) :
    PlainSubjects (con.apply memory env line).memory.switches := by
  cases con with
  | switch => exact plainSubjects_apply hp env.depth line
  | loop | conditional | keyword | operator => exact hp
  | synonym | definition | dictionary | namespaceUse | naming | stash | enumeration | record =>
    unfold apply
    dsimp only
    split <;> exact hp

theorem stash_apply {con : Construct} (o : con ≠ .stash) (memory : Memory)
    (env : Environment) (line : Text) :
    (con.apply memory env line).memory.stash = memory.stash := by
  cases con with
  | stash => exact absurd rfl o
  | loop | switch | conditional | keyword | operator => rfl
  | synonym | definition | dictionary | namespaceUse | naming | enumeration | record =>
    unfold apply
    dsimp only
    split <;> rfl

end Construct

namespace Session

def carried (s : Session) : List Text :=
  s.env.aliases.identities.map Alias.Identity.real ++
    (s.memory.loops.filterMap OpenLoop.step ++
      (s.memory.records.known ++ s.memory.records.opened.toList).flatMap Record.members)

theorem carries_of_carried {holds : Text → Prop} {s : Session}
    (all : ∀ t ∈ s.carried, holds t) (hp : PlainSubjects s.memory.switches) :
    Carries holds s.memory s.env := by
  simp only [carried, mem_append, or_imp, forall_and] at all
  obtain ⟨reals, steps, members⟩ := all
  exact {
    reals := fun ident mem => reals _ (mem_map_of_mem mem)
    steps := fun loop mem step stepped => steps _ (mem_filterMap.mpr ⟨loop, mem, stepped⟩)
    subjects := hp
    members := fun record mem member hi =>
      members _ (mem_flatMap.mpr ⟨record, mem, hi⟩) }

@[mk_iff] structure IsSafeFor (s : Session) (line : Text) : Prop where
  carried : ∀ t ∈ s.carried, Unmarked t
  apart : (s.env.aliases.IsPlain ∧ IsClosed line) ∨ s.env.KeepsApart line

instance (s : Session) (line : Text) : Decidable (s.IsSafeFor line) :=
  decidable_of_iff _ (s.isSafeFor_iff line).symm

/-- What every line leaves so. Lines are generated without marked characters; neither the rules nor
the stash nor switches can bring one into a line; and what finds names is made from them. -/
structure Sound (s : Session) : Prop where
  compiled : s.env.aliases.IsCompiled
  rules : ∀ rule ∈ s.env.rules.rules, Unmarked rule.replacement
  stash : ∀ t ∈ s.memory.stash, Unmarked t
  subjects : PlainSubjects s.memory.switches
  lines : ∀ t ∈ s.lines, Unmarked t

variable {s : Session} (sound : s.Sound) {line : Text}

section Constructs

theorem look_fst (s : Session) (con : Construct) (line : Text) :
    (s.look con line).1.env =
        (con.apply s.memory s.env line).env ∧
      (s.look con line).1.memory = (con.apply s.memory s.env line).memory := by
  unfold look
  dsimp only
  split <;> exact ⟨rfl, rfl⟩

variable {con : Construct} {constructs : List Construct}

include sound

theorem Sound.amended {next : Session}
    (amends : s.env.Amends next.env) (memory : next.memory = s.memory)
    (ls : next.lines = s.lines) : next.Sound where
  compiled := amends.isCompiled sound.compiled
  rules := amends.rules.symm ▸ sound.rules
  stash := memory.symm ▸ sound.stash
  subjects := memory.symm ▸ sound.subjects
  lines := ls.symm ▸ sound.lines

theorem Sound.withSources (sources : List Location) :
    Sound { s with env := { s.env with sources := sources } } :=
  { sound with }

theorem Sound.nextLine : Sound { s with env := s.env.nextLine } := by
  rw [Environment.nextLine_eq]
  exact sound.withSources _

theorem Sound.look (o : con ≠ .stash) (line : Text) :
    (s.look con line).1.Sound := by
  obtain ⟨env, memory⟩ := s.look_fst con line
  have amends := con.amends_apply s.memory s.env line
  rw [← env] at amends
  exact {
    compiled := amends.isCompiled sound.compiled
    rules := amends.rules.symm ▸ sound.rules
    stash := by rw [memory, stash_apply o]; exact sound.stash
    subjects := memory ▸ con.plainSubjects_of_apply sound.subjects s.env line
    lines := s.lines_look con line ▸ sound.lines }

variable (others : ∀ con ∈ constructs, con ≠ .stash)

include others

theorem Sound.lookForFirst (line : Text) : (lookForFirst constructs s line).1.Sound :=
  lookForFirst_keeps (p := fun done => done.1.Sound)
    (fun con mem _ line pre => pre.look (others con mem) line) sound

theorem Sound.lookForAll (line : Text) : (lookForAll constructs s line).1.Sound :=
  lookForAll_keeps (p := fun done => done.1.Sound)
    (fun con mem _ line pre => pre.look (others con mem) line) sound

def Holds (holds : Text → Prop) (done : Session × Text) : Prop :=
  Carries holds done.1.memory done.1.env ∧ holds done.2

omit sound others in
theorem holds_look {holds : Text → Prop} (hs : Seamed holds)
    (mem : con ∈ resolvedDeclarations ++ lowerings) (both : Holds holds (s, line)) :
    Holds holds ((s.look con line).1, (s.look con line).2.1) := by
  obtain ⟨carries, whole⟩ := both
  obtain ⟨after, written⟩ := carries.apply hs mem whole
  obtain ⟨env, memory⟩ := s.look_fst con line
  refine ⟨by rw [env, memory]; exact after, ?_⟩
  unfold look
  dsimp only
  split
  · exact whole
  · next next hit => exact written next hit

end Constructs

section Blocks

include sound

theorem Sound.leave : Sound { s with env := s.env.leave.1 } := by
  unfold Environment.leave
  split
  · exact sound.amended (.note s.env _) rfl rfl
  · next d _ =>
    exact {
      compiled := s.env.aliases.isCompiled_after sound.compiled (.purge d)
      rules := fun rule mem => sound.rules rule (mem_of_mem_filter mem)
      stash := sound.stash
      subjects := sound.subjects
      lines := sound.lines }

theorem Sound.followBlocks (line : Text) : (s.followBlocks line).Sound := by
  have followed := foldlRecOn (motive := fun done : Session × Bool => done.1.Sound)
    (blockTokens line) follow (b := (s, false)) sound fun done pre token _ => by
      unfold follow
      cases token.effect with
      | opens => exact { pre with }
      | closes => exact pre.leave
      | divides => exact pre
  unfold Session.followBlocks
  dsimp only
  split
  · exact { followed with subjects := by simp [Memory.reset, PlainSubjects] }
  · exact followed

end Blocks

section Code

theorem resolveLine_eq (s : Session) (comment : Option Text) (line : Text) :
    ∃ env, s.env.Amends env ∧ env.aliases = s.env.aliases ∧
      s.resolveLine comment line =
        let (masked, st) := protect (s.env.rewrite line).2 (s.env.rewrite line).1
        let (next, line, hit) :=
          lookForFirst resolvedDeclarations { s with env := env } masked
        if hit && Text.isBlankText line then next else next.finishLine st comment line :=
  ⟨_, (Environment.Amends.note s.env _).trans (.note _ _), rfl, rfl⟩

variable {comment : Option Text}

include sound

theorem Sound.emit (hu : Unmarked line) : (s.emit line).Sound where
  compiled := sound.compiled
  rules := sound.rules
  stash := sound.stash
  subjects := sound.subjects
  lines := by
    intro t mem
    rcases mem_append.mp mem with old | new
    · exact sound.lines t old
    · exact mem_singleton.mp new ▸ hu

theorem Sound.emitIndented (hu : Unmarked line) : (s.emitIndented line).Sound :=
  sound.emit (unmarked_append.mpr ⟨(isPlainText_indent _ _).unmarked, hu⟩)

theorem Sound.finishLine {st : Store}
    (stored : ∀ literal ∈ st, Unmarked literal) (remark : ∀ t ∈ comment, Unmarked t)
    (both : Holds (Intact st.length) (s, line)) : (s.finishLine st comment line).Sound := by
  have lowered : (Session.lookForAll lowerings s line).1.Sound := sound.lookForAll (by decide) line
  have intact : Holds (Intact st.length) (Session.lookForAll lowerings s line) :=
    lookForAll_keeps (fun _ mem _ _ pre =>
      holds_look (seamed_intact _) (mem_append_right _ mem) pre) both
  unfold Session.finishLine
  generalize Session.lookForAll lowerings s line = done at lowered intact
  have followed := lowered.followBlocks done.2
  exact { followed with
    lines := by
      intro t mem
      rcases mem_append.mp mem with old | new
      · exact followed.lines t old
      · exact Layout.unmarked_lay _ _ stored remark intact.2 t new }

theorem Sound.resolveLine (safe : s.IsSafeFor line) (hu : Unmarked line)
    (remark : ∀ t ∈ comment, Unmarked t) : (s.resolveLine comment line).Sound := by
  have ha : s.env.KeepsApart line := safe.apart.elim
    (fun both => Environment.keepsApart_of_isPlain both.1 sound.compiled both.2 hu) id
  -- literals that come with replacements are protected beside the placeholders that are there
  have protected' : Intact _ _ ∧ _ :=
    intact_protectParts (s.env.rewrite line).2 _ ha (intact_protect hu).2
  rw [← protect] at protected'
  obtain ⟨env, amends, eq, shape⟩ := s.resolveLine_eq comment line
  rw [shape]
  generalize protect (s.env.rewrite line).2 (s.env.rewrite line).1 = hidden at protected'
  obtain ⟨intact, stored⟩ := protected'
  have resolved : Sound { s with env := env } := sound.amended amends rfl rfl
  have carries : Carries (Intact hidden.2.length) s.memory env := by
    have all := (carries_of_carried safe.carried sound.subjects).mono fun t (hu : Unmarked t) =>
      intact_of_unmarked (n := hidden.2.length) hu
    exact { all with reals := eq ▸ all.reals }
  have looked : Sound (Session.lookForFirst resolvedDeclarations { s with env := env }
      hidden.1).1 := resolved.lookForFirst (by decide) hidden.1
  dsimp only
  split
  · exact looked
  · exact looked.finishLine stored remark (lookForFirst_keeps (fun _ mem _ _ pre =>
      holds_look (seamed_intact _) (mem_append_left _ mem) pre) ⟨carries, intact⟩)

end Code

section Lines

/-- The session and the code in which the names of a line of code are replaced, unless nothing is
left to replace names in. -/
def codeIn? (s : Session) (line : Text) : Option (Session × Text) :=
  let (line, env) := s.env.resolveRules line
  let (s, line, _) := { s with env := env }.look .stash line
  let line := trim (splitComment line).1
  if line.isEmpty then none
  else
    let (s, line, found) := lookForFirst plainDeclarations s line
    if found && Text.isBlankText line then none else some (s, line)

def plainCode? (s : Session) (line : Text) : Option (Session × Text) :=
  if s.directives.language?.isSome || s.directives.isSkipping then none
  else match Text.dropLead? line "/*".toList with
    | some _ => none
    | none =>
      if line.isEmpty || Text.startsWith line "//".toList then none
      else match s.env.readRule? line with
        | some _ => none
        | none => s.codeIn? line

def code? (files : FileSystem) (raw : Text) (s : Session) : Option (Session × Text) :=
  let s := { s with env := s.env.nextLine }
  let trimmed := trim (expandTabs s.env.config.tabWidth raw)
  if s.inComment then none
  else
    match Directive.read files trimmed s.directives s.env with
    | (.none, directives, env) =>
      plainCode? { s with directives := directives, env := env } trimmed
    | _ => none

theorem lookForFirst_plainDeclarations (s : Session) (line : Text) :
    (lookForFirst plainDeclarations s line).2.1 = line ∨
      (lookForFirst plainDeclarations s line).2.1 = [] := by
  refine lookForFirst_keeps (p := fun done => done.2 = line ∨ done.2 = [])
    (fun con mem s t pre => ?_) (.inl rfl)
  have declared : (con.apply s.memory s.env t).line = none ∨
      (con.apply s.memory s.env t).line = some [] := by
    simp only [plainDeclarations, mem_cons, not_mem_nil, or_false] at mem
    rcases mem with rfl | rfl | rfl | rfl <;> (unfold apply; dsimp only; split <;> simp)
  unfold look
  dsimp only
  rcases declared with absent | hit
  · rw [absent]
    exact pre
  · rw [hit]
    exact .inr rfl

variable {raw : Text}

include sound

theorem Sound.unstash (hu : Unmarked line) :
    (s.look .stash line).1.Sound ∧ Unmarked (s.look .stash line).2.1 := by
  have written := unmarked_unstash sound.stash s.env (stashPattern.drawn_pieces hu)
  have amends := (unstash_related s.env.isCongruence_amends ⟨rfl, .refl _⟩
    s.memory.stash (stashPattern.pieces line)).2.2.2
  unfold Session.look apply stash?
  by_cases hit : stashPattern.isMatch line
  · rw [if_pos hit]
    exact ⟨{ compiled := amends.isCompiled sound.compiled
             rules := amends.rules.symm ▸ sound.rules
             stash := written.2
             subjects := sound.subjects
             lines := sound.lines }, written.1⟩
  · rw [if_neg hit]
    exact ⟨{ sound with }, hu⟩

theorem Sound.code (hu : Unmarked line)
    (safe : ∀ next ∈ s.codeIn? line, next.1.IsSafeFor next.2) : (s.code line).Sound := by
  have ruled : Unmarked (s.env.resolveRules line).1 := RuleSet.unmarked_resolve sound.rules _ _ hu
  have noted : Sound { s with env := (s.env.resolveRules line).2 } :=
    sound.amended (.note s.env _) rfl rfl
  unfold codeIn? at safe
  unfold Session.code
  -- the rules and the stash are left as they are: only what is known of their results is used
  generalize s.env.resolveRules line = resolved at ruled noted safe
  obtain ⟨stashed, drawn⟩ := noted.unstash ruled
  dsimp only at safe ⊢
  generalize Session.look _ .stash resolved.1 = looked at stashed drawn safe
  obtain ⟨bare, remark⟩ := unmarked_splitComment drawn
  have trimmed := seamed_unmarked.trim bare
  split
  · split
    · next comment given => exact stashed.emitIndented (remark comment given)
    · exact stashed
  · next ne =>
    rw [if_neg ne] at safe
    have declared : Sound (Session.lookForFirst plainDeclarations looked.1
        (trim (splitComment looked.2.1).1)).1 := stashed.lookForFirst (by decide) _
    split
    · exact declared
    · next left =>
      rw [if_neg left] at safe
      refine declared.resolveLine (safe _ rfl) ?_ remark
      rcases lookForFirst_plainDeclarations looked.1
        (trim (splitComment looked.2.1).1) with eq | missed
      · rw [eq]
        exact trimmed
      · rw [missed]
        exact seamed_unmarked.nil

theorem Sound.plainLine (whole : Unmarked raw) (hu : Unmarked line)
    (safe : ∀ next ∈ s.plainCode? line, next.1.IsSafeFor next.2) :
    (s.plainLine raw line).Sound := by
  unfold plainCode? at safe
  unfold Session.plainLine
  split
  · split
    · exact sound
    · exact sound.emit (whole.subset fun c mem => mem_reverse.mp
        ((dropWhile_sublist _).subset (mem_reverse.mp mem)))
  · next outside =>
    split
    · exact sound
    · next taken =>
      simp only [outside, taken, Bool.or_self, Bool.false_eq_true, if_false] at safe
      split
      · exact { sound with }
      · next code =>
        rw [code] at safe
        split
        · split
          · exact sound
          · exact sound.emit seamed_unmarked.nil
        · next ne =>
          split
          · exact sound.emitIndented hu
          · next code' =>
            simp only [ne, code', Bool.or_self, Bool.false_eq_true, if_false] at safe
            split
            · next env read =>
              obtain ⟨next, declared, rfl⟩ := Option.map_eq_some_iff.mp read
              exact { sound with
                rules := RuleSet.unmarked_readLine? declared sound.rules hu }
            · next o =>
              rw [o] at safe
              exact sound.code hu safe

theorem Sound.ownLine (fs : FileSystem) (hu : Unmarked raw)
    (safe : ∀ next ∈ s.code? fs raw, next.1.IsSafeFor next.2) : (s.ownLine fs raw).Sound := by
  have entered : Sound { s with env := s.env.nextLine } := sound.nextLine
  unfold code? at safe
  unfold Session.ownLine line
  dsimp only at safe ⊢
  generalize s.env.nextLine = env at entered safe
  have trimmed := seamed_unmarked.trim (unmarked_expandTabs env.config.tabWidth hu)
  split
  · exact { entered with }
  · next outside =>
    rw [if_neg outside] at safe
    have amends := Directive.amends_read fs
      (trim (expandTabs env.config.tabWidth raw)) s.directives env
    rcases read : Directive.read fs (trim (expandTabs env.config.tabWidth raw))
      s.directives env with ⟨directive, dirs, after⟩
    rw [read] at safe amends
    have carried : Sound { s with env := after, directives := dirs } :=
      entered.amended amends rfl rfl
    cases directive with
    | none => exact carried.plainLine hu trimmed safe
    | consumed | inclusion p => exact carried
    | pass t =>
      have own := Directive.eq_of_read_pass (congrArg Prod.fst read)
      exact carried.emit (own ▸ seamed_unmarked.trim trimmed)
    | embeddedStart language =>
      dsimp only
      split
      · exact carried
      · exact carried.emit trimmed
    | embeddedEnd language =>
      dsimp only
      split
      · exact carried
      · exact carried.emit (by decide)

end Lines

end Session

end PrimePlus
