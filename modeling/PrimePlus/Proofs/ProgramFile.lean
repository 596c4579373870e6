import Mathlib.Data.List.TakeWhile
import PrimePlus.Compile
import PrimePlus.Proofs.FilePlaces

/-!
What a run leaves where the program is to be written (`program_left_iff_success`).
-/

namespace PrimePlus

open Encoding.Utf16 (encode)

namespace FileSystem

variable {fault : FileFault}

variable {fs after : FileSystem} {p : Text} {place : Place}

section Names

theorem exists_slashes (p : Text) : ∃ slashes : List Char,
    p = (p.reverse.dropWhile (· == '/')).reverse ++ slashes ∧ ∀ c ∈ slashes, c = '/' := by
  refine ⟨(p.reverse.takeWhile (· == '/')).reverse, ?_, fun c mem => ?_⟩
  · rw [← List.reverse_append, List.takeWhile_append_dropWhile, List.reverse_reverse]
  · simpa using List.mem_takeWhile_imp (List.mem_reverse.mp mem)

theorem exists_locateName_of_lookup {node : Node} (hit : fs.lookup p = .ok (place, node)) :
    ∃ hn held, fs.locateName p = .ok hn ∧ fs.node? hn = some held := by
  obtain ⟨located, there⟩ := lookup_eq_ok_iff.mp hit
  unfold locate at located
  unfold locateName nameParts
  split at located
  · cases located
  · dsimp only
    split
    · exact ⟨place, node, located, there⟩
    · next bare =>
      obtain ⟨slashes, whole, all⟩ := exists_slashes p
      cases slashes with
      | nil =>
        rw [List.append_nil] at whole
        rw [← whole]
        exact ⟨place, node, located, there⟩
      | cons c r =>
        -- behind the name only slashes follow, so it leads to a directory
        cases all c (List.mem_cons_self ..)
        rw [whole, Text.splitOn_append_sep, ← whole] at located
        obtain ⟨middle, follows, directory, -⟩ :=
          (follow_append (Text.splitOn_ne_nil '/' r)).mp located
        exact ⟨middle, .directory, follows, directory⟩

theorem makeDirectory_of_isDirectory (directory : fs.isDirectory p) :
    fs.makeDirectory p = .error .present := by
  obtain ⟨place, hit⟩ := isDirectory_iff.mp directory
  obtain ⟨hn, held, located, there⟩ := exists_locateName_of_lookup hit
  rw [makeDirectory, located]
  dsimp only
  rw [there]

end Names

section Directories

theorem makeDirectoriesFrom_nil (fuel : Nat) (fs : FileSystem) :
    makeDirectoriesFrom fuel fs [] = (fs, none) := by
  cases fuel <;> rfl

theorem makeDirectories_of_isDirectory (directory : fs.isDirectory p) :
    fs.makeDirectories p = (fs, none) := by
  rw [makeDirectories, makeDirectoriesFrom, makeDirectory_of_isDirectory directory]
  cases p with
  | nil => rfl
  | cons c p => simp [directory]

theorem not_isDirectory_of_makeDirectoriesFrom {fuel : Nat}
    (made : makeDirectoriesFrom fuel fs p = (after, some fault)) : after.isDirectory p = false := by
  induction fuel generalizing p after fault with
  | zero => cases made
  | succ fuel ih =>
    unfold makeDirectoriesFrom at made
    split at made
    · cases made
    · split at made
      · cases made
      · next missing =>
        have absent : fs.isDirectory p = false := by
          by_contra there
          rw [makeDirectory_of_isDirectory (eq_true_of_ne_false there)] at missing
          cases missing
        split at made
        · cases made
          exact absent
        · next outer lies =>
          split at made
          · next inner why nested =>
            cases made
            have absent' := ih nested
            by_contra there
            obtain ⟨place, hit⟩ := isDirectory_iff.mp (eq_true_of_ne_false there)
            have around := isDirectory_parent? (lookup_eq_ok_iff.mp hit).1 lies (by
              rintro rfl
              rw [makeDirectoriesFrom_nil] at nested
              cases nested)
            rw [absent'] at around
            cases around
          · next inner nested =>
            split at made
            · cases made
            · split at made
              · cases made
              · next absent' =>
                cases made
                exact eq_false_of_ne_true absent'
      · split at made
        · cases made
        · next absent =>
          cases made
          exact eq_false_of_ne_true absent

theorem not_isDirectory_of_makeDirectories
    (made : fs.makeDirectories p = (after, some fault)) : after.isDirectory p = false :=
  not_isDirectory_of_makeDirectoriesFrom made

end Directories

section Replacement

variable {bytes : List UInt8}

theorem filePlace?_eq_none_iff : fs.filePlace? p = none ↔
    ∀ place bytes, fs.lookup p ≠ .ok (place, .file bytes) := by
  rw [Option.eq_none_iff_forall_ne_some]
  simp only [ne_eq, filePlace?_eq_some_iff, not_exists]

theorem filePlace?_removeFile (fs : FileSystem) (p : Text) :
    (fs.removeFile p).filePlace? p = none := by
  refine filePlace?_eq_none_iff.mpr fun place bytes hit => ?_
  unfold removeFile at hit
  split at hit
  · next held content there =>
    obtain ⟨located, node⟩ := lookup_eq_ok_iff.mp there
    have inner : held.names ≠ [] := by
      intro outermost
      rw [node?_of_names_eq_nil fs outermost] at node
      cases node
    have kept (o : Place) (directory : (fs.erase held).node? o = some .directory) :
        fs.node? o = some .directory := by
      by_cases eq : o = held
      · rw [eq, node?_erase_self fs inner] at directory
        cases directory
      · rwa [node?_erase_of_ne fs eq] at directory
    obtain ⟨located', node'⟩ := lookup_eq_ok_iff.mp hit
    have eq := locate_mono kept located'
    rw [located] at eq
    cases eq
    rw [node?_erase_self fs inner] at node'
    cases node'
  · next absent => exact absent _ _ hit

theorem write_eq_ok_iff : fs.write p bytes = .ok after ↔
    p.getLast? ≠ some '/' ∧ ∃ place, fs.locate p = .ok place ∧
      fs.node? place ≠ some .directory ∧ after = fs.put place (.file bytes) := by
  unfold write
  by_cases slash : p.getLast? = some '/'
  · simp only [slash, BEq.rfl, if_true]
    split <;> simp
  · rw [if_neg (by simpa using slash)]
    constructor
    · intro written
      split at written
      · cases written
      · next place located =>
        split at written
        · cases written
        · next free =>
          cases written
          exact ⟨slash, place, located, free, rfl⟩
    · rintro ⟨-, place, located, free, rfl⟩
      rw [located]
      dsimp only
      split
      · next directory => exact absurd directory free
      · rfl

theorem readBytes_of_write (written : fs.write p bytes = .ok after) :
    after.readBytes p = .ok bytes := by
  obtain ⟨-, place, located, free, rfl⟩ := write_eq_ok_iff.mp written
  have inner : place.names ≠ [] := fun outermost =>
    free (node?_of_names_eq_nil fs outermost)
  have kept (o : Place) (directory : fs.node? o = some .directory) :
      (fs.put place (.file bytes)).node? o = some .directory := by
    have ha : o ≠ place := by
      rintro rfl
      exact free directory
    rw [node?_put_of_ne fs ha, directory]
  exact readBytes_eq_ok_iff.mpr
    ⟨place, lookup_eq_ok_iff.mpr ⟨locate_mono kept located, node?_put_self fs inner _⟩⟩

theorem filePlace?_of_write_error (refused : fs.write p bytes = .error fault) :
    fs.filePlace? p = none := by
  refine filePlace?_eq_none_iff.mpr fun place content hit => ?_
  obtain ⟨located, node⟩ := lookup_eq_ok_iff.mp hit
  have slashless : p.getLast? ≠ some '/' := by
    intro slash
    rw [node?_of_getLast?_slash slash located] at node
    cases node
  have written : fs.write p bytes = .ok (fs.put place (.file bytes)) :=
    write_eq_ok_iff.mpr ⟨slashless, place, located, by simp [node], rfl⟩
  rw [refused] at written
  cases written

end Replacement

end FileSystem

section Program

variable {fs : FileSystem} {output : Text} {bytes : List UInt8}

theorem filePlace?_of_writeProgram {after : FileSystem} {error : Error}
    (refused : writeProgram fs output bytes = (after, some error)) :
    after.filePlace? output = none := by
  unfold writeProgram at refused
  dsimp only at refused
  cases made : fs.makeDirectories ((Path.parent? output).getD []) with
  | mk around fault? =>
    rw [made] at refused
    cases fault? with
    | some fault =>
      cases refused
      refine FileSystem.filePlace?_eq_none_iff.mpr fun place content hit => ?_
      have absent := FileSystem.not_isDirectory_of_makeDirectories made
      cases lies : Path.parent? output with
      | none =>
        rw [lies] at made
        cases made
      | some outer =>
        rw [lies, Option.getD_some] at made absent
        have beyond : outer ≠ [] := by
          rintro rfl
          cases made
        have there := FileSystem.isDirectory_parent? (FileSystem.lookup_eq_ok_iff.mp hit).1 lies
          beyond
        rw [absent] at there
        cases there
    | none =>
      dsimp only at refused
      split at refused
      · next fault unwritten =>
        cases refused
        exact FileSystem.filePlace?_of_write_error unwritten
      · cases refused

theorem readBytes_of_writeProgram {after : FileSystem}
    (written : writeProgram fs output bytes = (after, none)) :
    after.readBytes output = .ok bytes := by
  unfold writeProgram at written
  dsimp only at written
  cases made : fs.makeDirectories ((Path.parent? output).getD []) with
  | mk around fault? =>
    rw [made] at written
    cases fault? with
    | some fault => cases written
    | none =>
      dsimp only at written
      split at written
      · cases written
      · next there =>
        cases written
        exact FileSystem.readBytes_of_write there

theorem writeProgram_of_locate {place : Place} (located : fs.locate output = .ok place)
    (free : fs.node? place ≠ some .directory) (slashless : output.getLast? ≠ some '/') :
    writeProgram fs output bytes = (fs.put place (.file bytes), none) := by
  have around : fs.makeDirectories ((Path.parent? output).getD []) = (fs, none) := by
    cases lies : Path.parent? output with
    | none => rfl
    | some outer =>
      by_cases empty : outer = []
      · rw [empty]
        rfl
      · exact FileSystem.makeDirectories_of_isDirectory
          (FileSystem.isDirectory_parent? located lies empty)
  have written : fs.write output bytes = .ok (fs.put place (.file bytes)) :=
    FileSystem.write_eq_ok_iff.mpr ⟨slashless, place, located, free, rfl⟩
  rw [writeProgram, around]
  dsimp only
  rw [written]

end Program

def Compiled.IsClean (compiled : Compiled) : Prop :=
  ∀ diagnostic ∈ compiled.diagnostics, diagnostic.severity ≠ .error ∧
    diagnostic.severity ≠ .critical ∧ diagnostic.severity ≠ .abort

theorem Severity.isFailure_eq_false_iff {severity : Severity} :
    severity.isFailure = false ↔ severity ≠ .error ∧ severity ≠ .critical ∧ severity ≠ .abort := by
  cases severity <;> simp [isFailure]

theorem Compiled.hasErrors_eq_false_iff {hc : Compiled} : hc.hasErrors = false ↔ hc.IsClean := by
  simp only [hasErrors, hasFailure, List.any_eq_false, IsClean, Bool.not_eq_true,
    Severity.isFailure_eq_false_iff]

theorem Compiled.isSuccess_summary_iff (hc : Compiled) : hc.summary.isSuccess ↔ hc.IsClean := by
  rw [← hasErrors_eq_false_iff]
  simp [summary, Summary.isSuccess, hasErrors, hasFailure]

/-- The ways in which a run ends, with the file system and the result that it ends in. -/
inductive Exit (config : Config) (files : FileSystem) (input output : Text) :
    FileSystem → Except Error Summary → Prop where
  /-- The compilation broke off. -/
  | aborted (breaks : compileFile config files input = .error .aborted) :
    Exit config files input output files (.error .aborted)
  /-- An error stopped the compilation. -/
  | stopped {error : Error} (stops : compileFile config files input = .error error)
    (unbroken : error ≠ .aborted) :
    Exit config files input output (files.removeFile output) (.error error)
  /-- The compilation came to its end and counts as failed. -/
  | failed {compiled : Compiled} (compiles : compileFile config files input = .ok compiled)
    (fails : ¬compiled.IsClean) :
    Exit config files input output (files.removeFile output) (.ok compiled.summary)
  /-- The program could not be written. -/
  | unwritten {compiled : Compiled} {after : FileSystem} {error : Error}
    (compiles : compileFile config files input = .ok compiled) (clean : compiled.IsClean)
    (refused : writeProgram files output (encode compiled.text) = (after, some error)) :
    Exit config files input output after (.error error)
  /-- The program was written. -/
  | written {compiled : Compiled} {after : FileSystem}
    (compiles : compileFile config files input = .ok compiled) (clean : compiled.IsClean)
    (done : writeProgram files output (encode compiled.text) = (after, none)) :
    Exit config files input output after (.ok { compiled.summary with
      filesWritten := 1,
      bytesWritten := (encode compiled.text).length })

theorem exit_compileToFile (cfg : Config) (fs : FileSystem) (input output : Text) :
    Exit cfg fs input output (compileToFile cfg fs input output).1
      (compileToFile cfg fs input output).2 := by
  unfold compileToFile
  split
  · next breaks => exact .aborted breaks
  · next error unbroken stops => exact .stopped stops unbroken
  · next hc compiles =>
    split
    · next fails =>
      refine .failed compiles fun clean => ?_
      rw [Compiled.hasErrors_eq_false_iff.mpr clean] at fails
      cases fails
    · next passes =>
      have clean := Compiled.hasErrors_eq_false_iff.mp (eq_false_of_ne_true passes)
      dsimp only
      split
      · next after error refused => exact .unwritten compiles clean refused
      · next after done => exact .written compiles clean done

def Succeeds (result : Except Error Summary) : Prop :=
  ∃ summary, result = .ok summary ∧ summary.isSuccess = true

theorem succeeds_iff {result : Except Error Summary} :
    Succeeds result ↔ result.map Summary.isSuccess = .ok true := by
  constructor
  · rintro ⟨summary, rfl, success⟩
    rw [Except.map, success]
  · intro success
    cases result with
    | error error => cases success
    | ok summary => exact ⟨summary, rfl, Except.ok.inj success⟩

namespace Exit

variable {cfg : Config} {fs after : FileSystem} {input output : Text}
  {result : Except Error Summary}

theorem filePlace?_of_not_succeeds (exit : Exit cfg fs input output after result)
    (fails : ¬Succeeds result) (unbroken : result ≠ .error .aborted) :
    after.filePlace? output = none := by
  cases exit with
  | aborted => exact absurd rfl unbroken
  | stopped => exact FileSystem.filePlace?_removeFile fs output
  | failed compiles dirty => exact FileSystem.filePlace?_removeFile fs output
  | unwritten compiles clean refused => exact filePlace?_of_writeProgram refused
  | @written hc after compiles clean done =>
    exact absurd ⟨_, rfl, hc.isSuccess_summary_iff.mpr clean⟩ fails

theorem readBytes_of_isSuccess {summary : Summary}
    (exit : Exit cfg fs input output after (.ok summary)) (success : summary.isSuccess) :
    ∃ x, compileFile cfg fs input = .ok x ∧
      after.readBytes output = .ok (encode x.text) ∧
      summary.bytesWritten = (encode x.text).length ∧ summary.filesWritten = 1 := by
  cases exit with
  | @failed x compiles fails =>
    exact absurd (x.isSuccess_summary_iff.mp success) fails
  | @written x after compiles clean done =>
    exact ⟨x, compiles, readBytes_of_writeProgram done, rfl, rfl⟩

theorem isSuccess_iff {summary : Summary} (exit : Exit cfg fs input output after (.ok summary)) :
    summary.isSuccess ↔ ∃ hc, compileFile cfg fs input = .ok hc ∧ hc.IsClean := by
  cases exit with
  | @failed hc compiles fails =>
    rw [compiles]
    simpa using hc.isSuccess_summary_iff
  | @written hc after compiles clean done =>
    exact iff_of_true (hc.isSuccess_summary_iff.mpr clean) ⟨hc, compiles, clean⟩

theorem eq_error_iff (exit : Exit cfg fs input output after result) (error : Error) :
    result = .error error ↔ compileFile cfg fs input = .error error ∨
      ∃ x, compileFile cfg fs input = .ok x ∧ x.IsClean ∧
        (writeProgram fs output (encode x.text)).2 = some error := by
  cases exit with
  | aborted breaks => simp [breaks]
  | stopped stops => simp [stops]
  | failed compiles fails => simp [compiles, fails]
  | unwritten compiles clean refused => simp [compiles, clean, refused]
  | written compiles clean done => simp [compiles, done]

theorem eq_of_aborted (exit : Exit cfg fs input output after (.error .aborted)) : after = fs := by
  cases exit with
  | aborted => rfl
  | stopped _ unbroken => exact absurd rfl unbroken
  | unwritten _ _ refused =>
    unfold writeProgram at refused
    dsimp only at refused
    split at refused
    · cases refused
    · split at refused <;> cases refused

theorem succeeds_of_locate {hc : Compiled} {place : Place}
    (exit : Exit cfg fs input output after result)
    (compiles : compileFile cfg fs input = .ok hc) (clean : hc.IsClean)
    (located : fs.locate output = .ok place) (free : fs.node? place ≠ some .directory)
    (slashless : output.getLast? ≠ some '/') : Succeeds result := by
  cases exit with
  | aborted stops | stopped stops => rw [compiles] at stops; cases stops
  | failed compiles' fails => rw [compiles] at compiles'; cases compiles'; exact absurd clean fails
  | unwritten compiles' clean' refused =>
    rw [writeProgram_of_locate located free slashless] at refused
    cases refused
  | @written compiled' after compiles' clean' done =>
    exact ⟨_, rfl, compiled'.isSuccess_summary_iff.mpr clean'⟩

end Exit

/-- Whatever files there are and whatever the source holds, a run that comes to an end without
success leaves no file where its output path leads, and one that breaks off leaves all files as they
were; a run that succeeds leaves there the bytes of the program that the compilation comes to, one
file of as many bytes as are stated. A run that comes to a summary succeeds exactly when the
compilation came to its end without an error or a critical error; it comes to none exactly when the
compilation was stopped or its program could not be written. It can be written where its path leads
to a file or to a free name. -/
theorem program_left_iff_success (config : Config) (files : FileSystem) (input output : Text) :
    let after := (compileToFile config files input output).1
    let result := (compileToFile config files input output).2
    (¬Succeeds result → result ≠ .error .aborted → after.filePlace? output = none) ∧
    (result = .error .aborted → after = files) ∧
    (∀ summary, result = .ok summary → summary.isSuccess = true →
      ∃ compiled, compileFile config files input = .ok compiled ∧
        after.readBytes output = .ok (encode compiled.text) ∧
        summary.bytesWritten = (encode compiled.text).length ∧
        summary.filesWritten = 1) ∧
    (∀ summary, result = .ok summary → (summary.isSuccess = true ↔
      ∃ compiled, compileFile config files input = .ok compiled ∧ compiled.IsClean)) ∧
    (∀ error, result = .error error ↔ compileFile config files input = .error error ∨
      ∃ compiled, compileFile config files input = .ok compiled ∧ compiled.IsClean ∧
        (writeProgram files output (encode compiled.text)).2 = some error) ∧
    (∀ compiled place, compileFile config files input = .ok compiled → compiled.IsClean →
      files.locate output = .ok place → files.node? place ≠ some .directory →
      output.getLast? ≠ some '/' → Succeeds result) := by
  intro after result
  have exit : Exit config files input output after result :=
    exit_compileToFile config files input output
  clear_value after result
  refine ⟨exit.filePlace?_of_not_succeeds, ?_, ?_, ?_, exit.eq_error_iff, ?_⟩
  · rintro rfl
    exact exit.eq_of_aborted
  · rintro summary rfl success
    exact exit.readBytes_of_isSuccess success
  · rintro summary rfl
    exact exit.isSuccess_iff
  · intro compiled place compiles clean located free slashless
    exact exit.succeeds_of_locate compiles clean located free slashless

/-- Where an earlier run left a program, a source with an error loses it and one without replaces
it. -/
theorem program_left_iff_success_stale :
    let files : FileSystem :=
      ⟨[(Place.here.child "a".toList, .file "end;".toList.utf8Encode.data.toList),
        (Place.here.child "b".toList, .file "x:=1;".toList.utf8Encode.data.toList),
        (Place.here.child "o".toList, .file [1])]⟩
    let failing := compileToFile {} files "a".toList "o".toList
    let passing := compileToFile {} files "b".toList "o".toList
    files.filePlace? "o".toList = some (Place.here.child "o".toList) ∧
      failing.2.map Summary.isSuccess = .ok false ∧ failing.1.filePlace? "o".toList = none ∧
      passing.2.map Summary.isSuccess = .ok true ∧
      ∃ compiled, compileFile {} files "b".toList = .ok compiled ∧
        passing.1.readBytes "o".toList = .ok (encode compiled.text) := by
  intro files failing passing
  have fails : failing.2.map Summary.isSuccess = .ok false := by decide +kernel
  have passes : passing.2.map Summary.isSuccess = .ok true := by decide +kernel
  have failed : ¬Succeeds failing.2 := by
    rw [succeeds_iff, fails]
    simp
  obtain ⟨summary, comes, success⟩ : Succeeds passing.2 := succeeds_iff.mpr passes
  obtain ⟨compiled, compiles, held, -⟩ :=
    (program_left_iff_success {} files "b".toList "o".toList).2.2.1 summary comes success
  have unbroken : failing.2 ≠ .error .aborted := fun breaks => by
    rw [breaks] at fails
    cases fails
  exact ⟨by decide +kernel, fails,
    (program_left_iff_success {} files "a".toList "o".toList).1 failed unbroken, passes,
    compiled, compiles, held⟩

/-- A macro for a pattern, one choice of which is a character of two bytes, breaks off the run where
that character stands, and a program that an earlier run left stays. -/
theorem program_outlives_broken_run :
    let files : FileSystem :=
      ⟨[(Place.here.child "a".toList,
        .file "def r \x60é|b\x60(x);\né".toList.utf8Encode.data.toList),
        (Place.here.child "o".toList, .file [1])]⟩
    let run := compileToFile {} files "a".toList "o".toList
    ¬Succeeds run.2 ∧ run.1.readBytes "o".toList = .ok [1] := by
  intro files run
  rw [succeeds_iff]
  decide +kernel

end PrimePlus
