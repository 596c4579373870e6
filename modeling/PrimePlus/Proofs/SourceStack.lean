import PrimePlus.Proofs.AlikeSessions
import PrimePlus.Proofs.FilePlaces

/-!
The stack of sources that are being read. The files on it are all different.
-/

namespace PrimePlus

open List FileSystem Environment Session

variable {path : Text}

namespace Environment

theorem drop_sources_nextLine (env : Environment) (n : Nat) :
    env.nextLine.sources.drop (n + 1) = env.sources.drop (n + 1) := by
  unfold nextLine
  split
  · rfl
  · next sources => rw [sources, drop_succ_cons, drop_succ_cons]

end Environment

namespace Session

section Restores

/-- Whether a way to compile included files leaves the stack of sources that was there before. -/
def Restores (compile : Text → Session → Progress) : Prop :=
  ∀ path s, (compile path s).1.env.sources = s.env.sources

variable (files : FileSystem) {compile : Text → Session → Progress}

theorem sources_line (restores : Restores compile) (raw : Text) (s : Session) :
    (s.line files compile raw).1.env.sources = s.env.nextLine.sources := by
  cases included : s.inclusion? files raw with
  | none =>
    rw [line_of_not_inclusion? included]
    exact (s.continues_ownLine files raw).1
  | some entered =>
    obtain ⟨path, next⟩ := entered
    rw [line_of_inclusion? included, restores path next, (of_inclusion? included).2.2]

theorem drop_sources_allLines (restores : Restores compile) (ls : List Text) (s : Session)
    (n : Nat) : (allLines files compile ls s).1.env.sources.drop (n + 1) =
      s.env.sources.drop (n + 1) := by
  induction ls generalizing s with
  | nil => rfl
  | cons raw r ih =>
    have first : (s.line files compile raw).1.env.sources.drop (n + 1) =
        s.env.sources.drop (n + 1) := by
      rw [sources_line files restores, drop_sources_nextLine]
    unfold allLines
    split
    · next stopped error l =>
      rw [l] at first
      exact first
    · next after l =>
      rw [l] at first
      exact (ih after).trans first

/-- A source that is left, also by an error, leaves the stack that was there before. -/
theorem sources_source (restores : Restores compile) (path text : Text) (s : Session) :
    (s.source files compile path text).1.env.sources = s.env.sources := by
  have outer := drop_sources_allLines files restores (Text.lines text)
    { s with env := s.env.pushSource path } 0
  rw [drop_one] at outer
  exact outer

theorem restores_fileFrom (fuel : Nat) : Restores (fileFrom files fuel) := by
  induction fuel with
  | zero =>
    intro path s
    unfold fileFrom
    split <;> rfl
  | succ fuel ih =>
    intro path s
    unfold fileFrom
    split
    · rfl
    · refine sources_source files (fun path s => ?_) path _ s
      split
      · rfl
      · exact ih path s

theorem restores_includeWithin (fuel : Nat) : Restores (includeWithin files fuel) := by
  intro path s
  unfold includeWithin
  split
  · rfl
  · exact restores_fileFrom files fuel path s

end Restores

def unwind (s : Session) (n : Nat) : Session :=
  { s with env := { s.env with sources := s.env.sources.drop n } }

theorem popSource_unwind (s : Session) (n : Nat) :
    { s.unwind n with env := (s.unwind n).env.popSource } = s.unwind (n + 1) := by
  simp only [unwind, popSource, tail_drop]

end Session

namespace FileSystem

variable {files : FileSystem}

def placesOf (files : FileSystem) (paths : List Text) : List Place :=
  paths.filterMap files.filePlace?

/-- The places of the files that none of several paths leads to. -/
def unread (files : FileSystem) (paths : List Text) : List Place :=
  files.filePlaces.filter fun place => decide (place ∉ files.placesOf paths)

theorem notMem_placesOf_of_not_isReading {env : Environment} {place : Place}
    (leads : files.filePlace? path = some place) (free : env.isReading files path = false) :
    place ∉ files.placesOf (env.sources.map Location.path) := by
  intro mem
  obtain ⟨o, source, leads'⟩ := mem_filterMap.mp mem
  rw [isReading_eq, any_eq_false] at free
  exact free o source (isSame_of_filePlace? leads' leads)

theorem length_unread_cons_lt {paths : List Text} {place : Place}
    (leads : files.filePlace? path = some place) (fresh : place ∉ files.placesOf paths) :
    (files.unread (path :: paths)).length < (files.unread paths).length := by
  have again : files.unread (path :: paths) =
      (files.unread paths).filter fun o => decide (o ≠ place) := by
    unfold unread placesOf
    simp [leads]
  rw [again, length_filter_lt_length_iff_exists]
  refine ⟨place, mem_filter.mpr ⟨mem_filePlaces_of_filePlace? leads, ?_⟩, ?_⟩
  · simpa using fresh
  · simp

theorem length_unread_le (files : FileSystem) (paths : List Text) :
    (files.unread paths).length ≤ files.entries.length :=
  (length_filter_le _ _).trans files.length_filePlaces_le

theorem length_le_filePlaces {sources : List Location}
    (hn : ∀ source ∈ sources, (files.filePlace? source.path).isSome)
    (ha : (files.placesOf (sources.map Location.path)).Nodup) :
    sources.length ≤ files.filePlaces.length := by
  have within : files.placesOf (sources.map Location.path) ⊆ files.filePlaces := by
    intro place mem
    obtain ⟨path, -, leads⟩ := mem_filterMap.mp mem
    exact mem_filePlaces_of_filePlace? leads
  have each : (files.placesOf (sources.map Location.path)).length = sources.length := by
    rw [placesOf, filterMap_map]
    exact filterMap_length_eq_length.mpr hn
  rw [← each]
  exact (subperm_of_subset ha within).length_le

end FileSystem

namespace Reading

variable {files : FileSystem}

def opening (s : Session) (path text : Text) : Reading :=
  ⟨[Text.lines text], { s with env := s.env.pushSource path }⟩

/-- What the line ahead stops a session with, if it includes a file that is being read already or
cannot be read. -/
def refusal? (files : FileSystem) : Reading → Option Progress
  | ⟨(raw :: _) :: _, s⟩ =>
    match s.inclusion? files raw with
    | none => none
    | some (path, next) =>
      if next.env.isReading files path then some (next.stop (.includeCycle path))
      else match files.readText path with
        | .error fault => some (next.stop (.file path fault))
        | .ok _ => none
  | _ => none

/-- What a compilation comes to at a moment that none follows: all sources opened in it are left,
with the error of the line ahead if it is one that stops a session. -/
def result (files : FileSystem) (last : Reading) : Progress :=
  let (s, error) := (last.refusal? files).getD (last.session, none)
  (s.unwind last.ahead.length, error)

theorem next?_of_refusal? {now : Reading} {progress : Progress}
    (refused : now.refusal? files = some progress) : now.next? files = none := by
  obtain ⟨ha, s⟩ := now
  unfold refusal? at refused
  split at refused
  · next raw r outer s' eq =>
    cases eq
    unfold next?
    cases included : s.inclusion? files raw with
    | none =>
      rw [included] at refused
      cases refused
    | some hit =>
      obtain ⟨path, next⟩ := hit
      rw [included] at refused
      dsimp only at refused ⊢
      rw [included]
      dsimp only
      split at refused
      · next read => rw [if_pos read]
      · next free =>
        rw [if_neg free]
        cases readable : files.readText path with
        | error fault => rfl
        | ok text =>
          rw [readable] at refused
          cases refused
  · cases refused

section Termination

/-- Whether a compilation that is stopped at some moment goes through the moments of the machine up
to the line that stops it, all sources opened on the way being left. -/
def Stops (files : FileSystem) (lines : List Text) (outer : List (List Text))
    (s final : Session) (error : Error) : Prop :=
  ∃ inner source now stopped,
    Reaches files ⟨lines :: outer, s⟩ ⟨inner ++ source :: outer, now⟩ ∧
      refusal? files ⟨inner ++ source :: outer, now⟩ = some (stopped, some error) ∧
      final = stopped.unwind inner.length

/-- A line that stops a compilation is refused itself or includes a file that is stopped. The depth
that inclusions are bounded by is not reached where as many files are left to open. -/
theorem stops_of_line {fuel : Nat} {error : Error}
    (nested : ∀ inner < fuel, ∀ (ls : List Text) (outer : List (List Text)) (s fin : Session),
      (files.unread (s.env.sources.map Location.path)).length ≤ inner →
      allLines files (includeWithin files inner) ls s =
        (fin, some error) → Stops files ls outer s fin error)
    {raw : Text} {r : List Text} {outer : List (List Text)} {s fin : Session}
    (enough : (files.unread (s.env.sources.map Location.path)).length ≤ fuel)
    (l : s.line files (includeWithin files fuel) raw = (fin, some error)) :
    Stops files (raw :: r) outer s fin error := by
  cases included : s.inclusion? files raw with
  | none =>
    rw [line_of_not_inclusion? included] at l
    cases l
  | some entered =>
    obtain ⟨path, next⟩ := entered
    rw [line_of_inclusion? included, includeWithin] at l
    split at l
    · next reading =>
      refine ⟨[], raw :: r, s, _, .refl, ?_, rfl⟩
      simp only [nil_append, refusal?, included, reading, if_true, l]
    · next free =>
      unfold fileFrom at l
      split at l
      · next fault unreadable =>
        refine ⟨[], raw :: r, s, _, .refl, ?_, rfl⟩
        simp only [nil_append, refusal?, included, free, unreadable, l]
        rfl
      · next text read =>
        -- the file is none of those on the stack, so fewer are left once it is opened
        have counted : next.env.sources.map Location.path = s.env.sources.map Location.path := by
          rw [(of_inclusion? included).2.2]
          exact s.env.paths_nextLine
        obtain ⟨place, leads⟩ := exists_filePlace?_of_readText read
        have fewer := length_unread_cons_lt leads
          (notMem_placesOf_of_not_isReading leads (by simpa using free))
        rw [← counted] at enough
        cases fuel with
        | zero => omega
        | succ fuel =>
          simp only [source, Prod.mk.injEq] at l
          obtain ⟨rfl, stops⟩ := l
          obtain ⟨inner, source, now, stopped, reaches, refused, left⟩ :=
            nested fuel (Nat.lt_succ_self fuel) (Text.lines text) (r :: outer)
              { next with env := next.env.pushSource path } _
              (Nat.le_of_lt_succ (Nat.lt_of_lt_of_le fewer enough)) (Prod.ext rfl stops)
          have step := Step.enter r outer included (eq_false_of_ne_true free) read
          refine ⟨inner ++ [source], r, now, stopped, ?_, ?_, ?_⟩
          · rw [append_assoc]
            exact .head step.next?_eq reaches
          · rw [append_assoc]
            exact refused
          · rw [length_append, length_singleton, ← popSource_unwind, ← left]
            rfl

theorem stops_of_allLines (files : FileSystem) (fuel : Nat) (ls : List Text)
    (outer : List (List Text)) (s fin : Session) {error : Error}
    (enough : (files.unread (s.env.sources.map Location.path)).length ≤ fuel)
    (run : allLines files (includeWithin files fuel) ls s =
      (fin, some error)) : Stops files ls outer s fin error := by
  -- the files included by a line are nested less deeply, the lines after it are fewer
  induction fuel using Nat.strongRecOn generalizing ls outer s fin with
  | ind fuel ihFuel =>
    induction ls generalizing s with
    | nil => cases run
    | cons raw r ihLines =>
      unfold allLines at run
      split at run
      · next l =>
        cases run
        exact stops_of_line ihFuel enough l
      · next after l =>
        have counted : after.env.sources.map Location.path = s.env.sources.map Location.path := by
          have kept := sources_line files (restores_includeWithin files fuel) raw s
          rw [l] at kept
          rw [kept]
          exact s.env.paths_nextLine
        obtain ⟨inner, source, now, stopped, reaches, refused, left⟩ :=
          ihLines after (by rwa [counted]) run
        have passed : Reaches files ⟨(raw :: r) :: outer, s⟩ ⟨r :: outer, after⟩ :=
          reaches_of_line (fun inner _ => reaches_of_allLines files inner) l
        exact ⟨inner, source, now, stopped, passed.trans reaches, refused, left⟩

theorem exists_last_of_source (files : FileSystem) (fuel : Nat) (path text : Text) (s : Session)
    (enough : (files.unread (path :: s.env.sources.map Location.path)).length ≤ fuel) :
    ∃ last, Reaches files (opening s path text) last ∧ last.next? files = none ∧
      s.source files (includeWithin files fuel) path text = last.result files := by
  unfold source opening
  rcases run : allLines files (includeWithin files fuel) (Text.lines text)
    { s with env := s.env.pushSource path } with ⟨fin, error⟩
  cases error with
  | none =>
    refine ⟨⟨[[]], fin⟩, reaches_of_allLines files fuel _ [] _ _ run, rfl, ?_⟩
    simp [result, refusal?, unwind, popSource]
  | some error =>
    obtain ⟨inner, source, now, stopped, reaches, refused, rfl⟩ :=
      stops_of_allLines files fuel _ [] { s with env := s.env.pushSource path } _ enough run
    refine ⟨⟨inner ++ [source], now⟩, reaches, next?_of_refusal? refused, ?_⟩
    rw [result, refused, length_append]
    exact congrArg (fun s => (s, some error)) (popSource_unwind stopped inner.length)

end Termination

section Nesting

/-- Whether the sources opened since a moment stand in front of those that were there before: the
included files, which are all different and differ from the outermost source, and that source. -/
structure Nests (files : FileSystem) (first : Text) (before : List Location) (now : Reading)
    (included : List Text) : Prop where
  paths : now.session.env.sources.map Location.path = included ++ first :: before.map Location.path
  outer : now.session.env.sources.drop (included.length + 1) = before
  ahead : now.ahead.length = included.length + 1
  leads : ∀ path ∈ included, (files.filePlace? path).isSome
  apart : (files.placesOf (included ++ [first])).Nodup

theorem nests_opening (files : FileSystem) (s : Session) (path text : Text) :
    Nests files path s.env.sources (opening s path text) [] where
  paths := rfl
  outer := rfl
  ahead := rfl
  leads := by simp
  apart := by
    rw [placesOf, nil_append, filterMap_cons]
    split <;> simp

variable {first : Text} {pre : List Location} {now after : Reading} {included : List Text}

/-- A step leaves the files that are being read different. -/
theorem Nests.next? (nests : now.Nests files first pre included)
    (step : now.next? files = some after) : ∃ included, after.Nests files first pre included := by
  obtain ⟨paths, outer, ahead, leads, ha⟩ := nests
  cases step_of_next? step with
  | leave source r s =>
    cases included with
    | nil => simp at ahead
    | cons path included =>
      refine ⟨included, ?_, ?_, ?_, ?_, ?_⟩
      · rw [popSource, map_tail, paths]
        rfl
      · rw [popSource, drop_tail]
        exact outer
      · simpa using ahead
      · exact (forall_mem_cons.mp leads).2
      · exact ha.sublist ((sublist_cons_self path _).filterMap _)
  | own r around alone =>
    refine ⟨included, ?_, ?_, by simpa using ahead, leads, ha⟩
    · rw [(continues_ownLine _ _ _).1, paths_nextLine]
      exact paths
    · rw [(continues_ownLine _ _ _).1, drop_sources_nextLine]
      exact outer
  | @enter raw path text s next r around entered free read =>
    obtain ⟨-, -, rfl⟩ := of_inclusion? entered
    obtain ⟨place, leads'⟩ := exists_filePlace?_of_readText read
    have paths' : s.env.nextLine.sources.map Location.path =
        included ++ first :: pre.map Location.path :=
      s.env.paths_nextLine.trans paths
    have fresh := notMem_placesOf_of_not_isReading leads' free
    refine ⟨path :: included, ?_, ?_, by simpa using ahead, ?_, ?_⟩
    · rw [pushSource, map_cons, paths']
      rfl
    · rw [pushSource, length_cons, drop_succ_cons, drop_sources_nextLine]
      exact outer
    · exact forall_mem_cons.mpr ⟨by rw [leads']; rfl, leads⟩
    · rw [cons_append, placesOf, filterMap_cons_some leads', nodup_cons]
      refine ⟨fun mem => fresh ?_, ha⟩
      rw [paths', placesOf, ← singleton_append, ← append_assoc, filterMap_append]
      exact mem_append_left _ mem

theorem Nests.reaches (nests : now.Nests files first pre included)
    (reaches : Reaches files now after) : ∃ included, after.Nests files first pre included := by
  induction reaches with
  | refl => exact ⟨included, nests⟩
  | tail _ step ih =>
    obtain ⟨included, nests⟩ := ih
    exact nests.next? step

/-- At every moment of a source, the included files stand in front of it on the stack, and it stands
in front of what was there before. -/
theorem exists_opened_of_reaches {s : Session} {text : Text} {moment : Reading}
    (reaches : Reaches files (opening s path text) moment) :
    ∃ opened own, moment.session.env.sources = opened ++ own :: s.env.sources ∧
      own.path = path ∧ (∀ source ∈ opened, (files.filePlace? source.path).isSome) ∧
      (files.placesOf ((opened ++ [own]).map Location.path)).Nodup := by
  obtain ⟨included, nests⟩ := (nests_opening files s path text).reaches reaches
  obtain ⟨opened, r, sources, rfl, back⟩ := map_eq_append_iff.mp nests.paths
  obtain ⟨own, outer, rfl, rfl, -⟩ := map_eq_cons_iff.mp back
  have pre : outer = s.env.sources := by
    have dropped := nests.outer
    rwa [sources, length_map, drop_append, drop_of_length_le (by omega),
      Nat.add_sub_cancel_left] at dropped
  refine ⟨opened, own, pre ▸ sources, rfl, fun source mem => ?_, ?_⟩
  · exact nests.leads _ (mem_map_of_mem mem)
  · rw [map_append]
    exact nests.apart

end Nesting

end Reading

namespace Session

theorem file_eq_source {files : FileSystem} {text : Text}
    (readable : files.readText path = .ok text) (s : Session) :
    s.file files path = s.source files (includeWithin files files.entries.length) path text := by
  rw [file, fileFrom, readable]
  rfl

/-- **Inclusion terminates and unwinds.** A file that is compiled, whatever it and the files around
it hold, comes to a last moment of the machine, which bounds nothing, and to what the machine comes
to there; so does a text. At every moment the sources opened since the call are different files, so
that there are no more of them than files. Afterwards the stack of sources is the one before, for a
compilation that comes to its end and for one that an error has stopped at any depth. -/
theorem inclusions_terminate_and_unwind (files : FileSystem) (s : Session) :
    (∀ path text, files.readText path = .ok text →
      (∃ last, Reading.Reaches files (.opening s path text) last ∧
        last.next? files = none ∧ s.file files path = last.result files) ∧
      ∀ moment, Reading.Reaches files (.opening s path text) moment →
        ∃ opened, moment.session.env.sources = opened ++ s.env.sources ∧
          (∀ source ∈ opened, (files.filePlace? source.path).isSome) ∧
          (files.placesOf (opened.map Location.path)).Nodup ∧
          opened.length ≤ files.filePlaces.length) ∧
    (∀ path fault, files.readText path = .error fault →
      s.file files path = s.stop (.file path fault)) ∧
    (∀ text,
      (∃ last, Reading.Reaches files (.opening s [] text) last ∧
        last.next? files = none ∧ s.text files text = last.result files) ∧
      ∀ moment, Reading.Reaches files (.opening s [] text) moment →
        ∃ opened own, moment.session.env.sources = opened ++ own :: s.env.sources ∧
          own.path = [] ∧ (∀ source ∈ opened, (files.filePlace? source.path).isSome) ∧
          (files.placesOf (opened.map Location.path)).Nodup ∧
          opened.length ≤ files.filePlaces.length) ∧
    (∀ path, (s.file files path).1.env.sources = s.env.sources) ∧
    (∀ text, (s.text files text).1.env.sources = s.env.sources) := by
  refine ⟨fun path text readable => ⟨?_, fun moment reaches => ?_⟩, fun path fault unreadable => ?_,
    fun text => ⟨?_, fun moment reaches => ?_⟩, fun path => ?_, fun text => ?_⟩
  · rw [file_eq_source readable]
    exact Reading.exists_last_of_source files _ path text s (files.length_unread_le _)
  · obtain ⟨place, leads⟩ := exists_filePlace?_of_readText readable
    obtain ⟨opened, own, sources, rfl, named, apart⟩ := Reading.exists_opened_of_reaches reaches
    have all : ∀ source ∈ opened ++ [own], (files.filePlace? source.path).isSome := by
      intro source listed
      rcases mem_append.mp listed with inner | last
      · exact named source inner
      · rw [mem_singleton.mp last, leads]
        rfl
    exact ⟨opened ++ [own], by simpa using sources, all, apart, length_le_filePlaces all apart⟩
  · rw [file, fileFrom, unreadable]
  · exact Reading.exists_last_of_source files _ [] text s
      ((files.length_unread_le _).trans (Nat.le_succ _))
  · obtain ⟨opened, own, sources, same, named, apart⟩ := Reading.exists_opened_of_reaches reaches
    have inner : (files.placesOf (opened.map Location.path)).Nodup :=
      apart.sublist (((sublist_append_left opened [own]).map _).filterMap _)
    exact ⟨opened, own, sources, same, named, inner, length_le_filePlaces named inner⟩
  · exact restores_fileFrom files _ path s
  · exact sources_source files (restores_includeWithin files _) [] text s

/-- Two files that include each other, the second one by another spelling: the error arises two
sources deep, and both are left. -/
theorem inclusions_terminate_and_unwind_cycle :
    let first := "#include \"b\"\n".toList
    let second := "x := 1;\n#include \"./a\"\n".toList
    let files : FileSystem :=
      ⟨[(Place.here.child "a".toList, .file first.utf8Encode.data.toList),
        (Place.here.child "b".toList, .file second.utf8Encode.data.toList)]⟩
    let s : Session := { env := Environment.start {} }
    files.readText "a".toList = .ok first ∧
      (s.file files "a".toList).2 = some (.includeCycle "./a".toList) ∧
      (s.file files "a".toList).1.env.sources = [] ∧
      ∃ last, Reading.Reaches files (.opening s "a".toList first) last ∧
        last.next? files = none ∧ s.file files "a".toList = last.result files := by
  intro first second files s
  have readable : files.readText "a".toList = .ok first := by decide +kernel
  obtain ⟨ends, -, -, restored, -⟩ := inclusions_terminate_and_unwind files s
  exact ⟨readable, by decide +kernel, restored "a".toList, (ends _ _ readable).1⟩

end Session

end PrimePlus
