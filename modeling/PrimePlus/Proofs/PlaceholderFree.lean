import PrimePlus.Proofs.MinifySeams
import PrimePlus.Proofs.SessionSeams

/-!
Programs without placeholders: those of compilations that are safe at every line of code.
-/

namespace PrimePlus

open List

open Lexical (Unmarked seamed_unmarked)

theorem FileSystem.exists_of_readText {fs : FileSystem} {p t : Text}
    (read : fs.readText p = .ok t) : ∃ e ∈ fs.entries, ∃ bytes,
      e.2 = .file bytes ∧ Encoding.Utf8.decode? bytes = some t := by
  unfold readText readBytes lookup at read
  split at read
  · cases read
  · next bytes hit =>
    split at read
    · cases read
    · next decoded =>
      cases read
      split at hit
      · cases hit
      · cases hit
      · next place held located =>
        cases hit
        split at located
        · cases located
        · split at located
          · cases located
          · next node there =>
            cases located
            unfold node? at there
            split at there
            · cases there
            · obtain ⟨e, mem, eq⟩ := Option.map_eq_some_iff.mp there
              exact ⟨e, mem_of_find?_eq_some mem, bytes, eq, decoded⟩

namespace Reading

/-- The session and the code in which the names of the next line are replaced, if it is a line of
code. -/
def code? (files : FileSystem) (now : Reading) : Option (Session × Text) :=
  match now.ahead with
  | (raw :: _) :: _ => now.session.code? files raw
  | _ => none

/-- Whether no placeholder can get lost in the next line: no text that is carried over to it has a
marked character, and the replacement of names leaves its placeholders apart. -/
def IsSafe (files : FileSystem) (now : Reading) : Prop :=
  ∀ next ∈ now.code? files, next.1.IsSafeFor next.2

instance (files : FileSystem) (now : Reading) : Decidable (now.IsSafe files) :=
  inferInstanceAs (Decidable (∀ next ∈ now.code? files, _))

structure Sound (now : Reading) : Prop where
  session : now.session.Sound
  ahead : ∀ source ∈ now.ahead, ∀ line ∈ source, Unmarked line

section Run

variable {fs : FileSystem} {now after : Reading}

theorem sound_begin (cfg : Config) {source : Text} (hu : Unmarked source) :
    (begin cfg source).Sound := by
  have start : Session.Sound { env := Environment.start cfg } :=
    ⟨by simp [Environment.start, Alias.Table.empty, Alias.Table.IsCompiled],
      by simp [Environment.start, RuleSet.empty], by simp,
      by simp [Construct.PlainSubjects], by simp⟩
  have defined : (Session.start cfg).Sound := Session.start_induction start fun s l _ pre =>
    pre.amended (Directive.amends_read {} l s.directives s.env) rfl rfl
  exact ⟨defined.withSources _, by simpa [begin] using Program.unmarked_lines hu⟩

theorem Sound.next? (sound : now.Sound) (safe : now.IsSafe fs)
    (readable : ∀ p t, fs.readText p = .ok t → Unmarked t)
    (step : now.next? fs = some after) : after.Sound := by
  refine ⟨?_, (step_of_next? step).forall_ahead sound.ahead fun p text read =>
    Program.unmarked_lines (readable p text read)⟩
  cases step_of_next? step with
  | leave => exact sound.session.withSources _
  | @own raw s r outer alone =>
    exact sound.session.ownLine fs (sound.ahead _ mem_cons_self raw mem_cons_self) safe
  | enter r outer included free read =>
    obtain ⟨-, -, rfl⟩ := Session.of_inclusion? included
    exact sound.session.nextLine.withSources _

theorem Sound.reaches (sound : now.Sound) (reaches : Reaches fs now after)
    (safe : ∀ later, Reaches fs now later → later.IsSafe fs)
    (readable : ∀ p t, fs.readText p = .ok t → Unmarked t) : after.Sound := by
  induction reaches with
  | refl => exact sound
  | tail pre step ih => exact ih.next? (safe _ pre) readable step

end Run

end Reading

theorem Session.Sound.unmarked_program {s : Session} (sound : s.Sound) : Unmarked s.program := by
  have output : Unmarked s.output := by
    intro c mem
    obtain ⟨l, hi, written⟩ := mem_flatMap.mp mem
    rcases mem_append.mp written with own | feed
    · exact sound.lines l hi c own
    · rw [mem_singleton.mp feed]
      decide
  have whole : Unmarked (if s.env.config.pragmaPreamble then
      pragmaPreamble ++ '\n' :: s.output else s.output) := by
    split
    · exact Lexical.unmarked_append.mpr ⟨by decide, seamed_unmarked.cons (by decide) output⟩
    · exact output
  unfold program
  dsimp only
  generalize (if s.env.config.pragmaPreamble then
      pragmaPreamble ++ '\n' :: s.output else s.output) = t at whole
  have laid : Unmarked (if s.env.config.reformat then
      Program.reformat s.env.config.indentWidth t else t) := by
    split
    · exact Program.unmarked_reformat _ whole
    · exact whole
  split
  · exact Program.unmarked_minify laid
  · exact laid

/-- No placeholder reaches a program that is compiled from sources without marked characters, where
every line of code is safe: no text that is carried over to the line has a marked character, and
either all names in force and what they stand for are plain and the literals of the line are closed,
or the replacement of names leaves the placeholders of the line apart. -/
theorem unmarked_of_isSafe {config : Config} {files : FileSystem} {source : Text}
    {compiled : Compiled} (unmarked : Unmarked source)
    (readable : ∀ path t, files.readText path = .ok t → Unmarked t)
    (compiles : compileTextWith config files source = .ok compiled)
    (safe : ∀ now, Reading.Reaches files (.begin config source) now → now.IsSafe files) :
    Unmarked compiled.text := by
  obtain ⟨final, reaches, same⟩ := reaches_of_compileTextWith compiles
  have sound := (Reading.sound_begin config unmarked).reaches reaches safe readable
  rw [same]
  exact sound.session.unmarked_program

/-- A macro with a literal and a loop with a step, in a program that is safe at every line. -/
theorem unmarked_of_isSafe_macro :
    let source : Text :=
      "#define SHOW(x) PRINT(\"got \" + x)\nfor i := 0; i < 3; i := i + 1 do\n".toList ++
        "SHOW(\"x\\\"y\"); // z\nnext;".toList
    ∃ compiled, compileTextWith {} {} source = .ok compiled ∧
      (∀ now, Reading.Reaches {} (.begin {} source) now → now.IsSafe {}) ∧
      Unmarked compiled.text := by
  intro source
  have readable (path t : Text) (read : FileSystem.readText {} path = .ok t) : Unmarked t := by
    obtain ⟨entry, listed, -⟩ := FileSystem.exists_of_readText read
    cases listed
  have always : Reading.always {} (fun now => decide (now.IsSafe {})) 20 (.begin {} source) =
      true := by
    decide +kernel
  have safe (now : Reading) (reaches : Reading.Reaches {} (.begin {} source) now) : now.IsSafe {} :=
    of_decide_eq_true (Reading.of_always always reaches)
  have finishes : (compileTextWith {} {} source).isOk = true := by decide +kernel
  cases compiles : compileTextWith {} {} source with
  | error fault =>
    rw [compiles] at finishes
    cases finishes
  | ok compiled =>
    exact ⟨compiled, rfl, safe, unmarked_of_isSafe (by decide +kernel) readable compiles safe⟩

/-- The step of a loop is written on the line that closes the loop, where the literal in it is no
longer stored. -/
theorem loop_step_keeps_placeholder :
    let source : Text :=
      "begin\nfor i := 0; i < 3; i := i + DIM(\"ab\") do\nx := 1;\nnext;\nend;".toList
    Unmarked source ∧ (compileText {} source).toOption.map
      (fun compiled => decide (Lexical.marker ∈ compiled.text)) = some true := by
  decide +kernel

end PrimePlus
