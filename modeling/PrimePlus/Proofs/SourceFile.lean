import PrimePlus.CommandLine
import PrimePlus.Proofs.ProgramFile

/-!
What a run does to its own source.
-/

namespace PrimePlus

open List Path Text FileSystem

variable {bytes : List UInt8}

namespace Path

def IsLead (lead : Text) : Prop :=
  lead = [] ∨ ∃ front, lead = front ++ ['/']

theorem exists_lead (path : Text) :
    ∃ lead name, path = lead ++ name ∧ IsLead lead ∧ '/' ∉ name := by
  by_cases mem : '/' ∈ path.reverse
  · obtain ⟨back, front, eq, absent⟩ := eq_append_cons_of_mem mem
    refine ⟨front.reverse ++ ['/'], back.reverse, ?_, .inr ⟨_, rfl⟩, mt mem_reverse.mp absent⟩
    rw [← reverse_reverse path, eq]
    simp
  · exact ⟨[], path, rfl, .inl rfl, mt mem_reverse.mpr mem⟩

variable {lead name : Text}

section

variable (isLead : IsLead lead)

include isLead

theorem IsLead.drop (count : Nat) : IsLead (lead.drop count) := by
  rcases isLead with rfl | ⟨u, rfl⟩
  · exact .inl drop_nil
  · rcases Nat.lt_or_ge u.length count with past | within
    · exact .inl (drop_eq_nil_of_le (by simp; omega))
    · exact .inr ⟨u.drop count, drop_append_of_le_length within⟩

variable (slashless : '/' ∉ name)

include slashless

theorem IsLead.splitOn_append :
    Text.splitOn '/' (lead ++ name) = (Text.splitOn '/' lead).dropLast ++ [name] := by
  rcases isLead with rfl | ⟨u, rfl⟩
  · exact splitOn_of_notMem slashless
  · rw [append_assoc, singleton_append, splitOn_append_sep, splitOn_append_sep,
      splitOn_of_notMem slashless]
    simp [Text.splitOn]

variable (counts : isVoid name = false)

include counts

theorem headLength_le : headLength (lead ++ name) ≤ lead.length := by
  rcases isLead with rfl | ⟨u, rfl⟩
  · have relative : isAbsolute name = false := by
      cases name with
      | nil => rfl
      | cons c name =>
        have ho : c ≠ '/' := fun eq => slashless (eq ▸ mem_cons_self ..)
        simpa [isAbsolute] using ho
    have undotted : (name == ['.'] || startsWith name "./".toList) = false := by
      rw [Bool.or_eq_false_iff]
      constructor
      · simp only [isVoid, Bool.or_eq_false_iff] at counts
        exact counts.2
      · by_contra led
        obtain ⟨r, rfl⟩ := isPrefixOf_iff_prefix.mp (eq_true_of_ne_false led)
        exact slashless (by simp)
    rw [nil_append, headLength, relative, undotted]
    simp
  · have one : headLength (u ++ ['/'] ++ name) ≤ 1 := by
      unfold headLength
      split
      · exact Nat.le_refl 1
      · split <;> omega
    calc headLength (u ++ ['/'] ++ name) ≤ 1 := one
      _ ≤ (u ++ ['/']).length := by simp

theorem bodyParts_append : bodyParts (lead ++ name) =
      (Text.splitOn '/' (lead.drop (headLength (lead ++ name)))).dropLast ++ [name] := by
  have short := headLength_le isLead slashless counts
  rw [bodyParts, drop_append_of_le_length short, (isLead.drop _).splitOn_append slashless]
  simp [counts]

theorem fileName?_append (down : name ≠ "..".toList) : fileName? (lead ++ name) = some name := by
  rw [fileName?, bodyParts_append isLead slashless counts]
  simpa using down

theorem setExtension_append (down : name ≠ "..".toList) {stem : Text}
    (stems : (splitName name).1 = stem) (slashless' : '/' ∉ stem) (extension : Text) :
    setExtension (lead ++ name) extension = lead ++ (stem ++ '.' :: extension) := by
  have short := headLength_le isLead slashless counts
  rw [setExtension, fileName?_append isLead slashless counts down]
  dsimp only
  rw [stems, bodyParts_append isLead slashless counts, dropLast_concat,
    ← (isLead.drop _).splitOn_append slashless', join_splitOn,
    take_append_of_le_length short, ← append_assoc (lead.take _), take_append_drop,
    append_assoc]

end

theorem splitName_cases (name : Text) : splitName name = (name, none) ∨
    ∃ stem extension, stem ≠ [] ∧ name = stem ++ '.' :: extension ∧
      splitName name = (stem, some extension) := by
  unfold splitName
  dsimp only
  split
  · next cut =>
    rw [Bool.and_eq_true, contains_iff_mem, ← mem_reverse] at cut
    obtain ⟨back, front, eq, absent⟩ := eq_append_cons_of_mem cut.1
    have before : ∀ c ∈ back, (c != '.') := fun c mem =>
      bne_iff_ne.mpr fun dot => absent (dot ▸ mem)
    rw [eq, dropWhile_append_of_pos before] at cut
    refine .inr ⟨front.reverse, back.reverse, by simpa using cut.2, ?_, ?_⟩
    · rw [← reverse_reverse name, eq]
      simp
    · rw [eq, dropWhile_append_of_pos before, takeWhile_append_of_pos before]
      simp
  · exact .inl rfl

theorem splitName_dot {stem : Text} (ne : stem ≠ []) :
    splitName (stem ++ ['.']) = (stem, some []) := by
  simp [splitName, ne]

/-- The name of a file with another extension. Two dots are all that is left of a name that has
nothing else in front of its old one. -/
def renamed (name extension : Text) : Text :=
  match splitName name with
  | (_, none) => name ++ '.' :: extension
  | (stem, some _) => if stem = ['.'] then "..".toList else stem ++ '.' :: extension

theorem withExtension_append (isLead : IsLead lead) (slashless : '/' ∉ name)
    (counts : isVoid name = false) (down : name ≠ "..".toList) (extension : Text) :
    withExtension (lead ++ name) extension = lead ++ renamed name extension := by
  have hn := fileName?_append isLead slashless counts down
  rw [withExtension, extension?, hn, Option.bind_some]
  rcases splitName_cases name with uncut | ⟨stem, old, ne, rfl, cut⟩
  · rw [renamed, uncut]
    have kept : (lead ++ name).take ((lead ++ name).length - 0) = lead ++ name := by
      rw [Nat.sub_zero, take_length]
    dsimp only [Option.getD_none, length_nil]
    rw [kept, setExtension_append isLead slashless counts down (by rw [uncut]) slashless]
  · have shape : lead ++ (stem ++ '.' :: old) = lead ++ (stem ++ ['.']) ++ old := by simp
    have kept : (lead ++ (stem ++ '.' :: old)).take
        ((lead ++ (stem ++ '.' :: old)).length - old.length) = lead ++ (stem ++ ['.']) := by
      rw [shape, length_append, Nat.add_sub_cancel, take_left]
    have slashless' : '/' ∉ stem := mt (mem_append_left _) slashless
    have slashless'' : '/' ∉ stem ++ ['.'] := by simpa using slashless'
    have counts' : isVoid (stem ++ ['.']) = false := by
      cases stem with
      | nil => exact absurd rfl ne
      | cons c stem => simp [isVoid]
    rw [renamed, cut]
    dsimp only [Option.getD_some]
    rw [kept]
    split
    · next dot =>
      have dots : fileName? (lead ++ (stem ++ ['.'])) = none := by
        rw [fileName?, bodyParts_append isLead slashless'' counts']
        simp [dot]
      rw [setExtension, dots, dot]
      rfl
    · next o =>
      have down' : stem ++ ['.'] ≠ "..".toList := by
        intro eq
        exact o (append_left_injective ['.'] eq)
      have stems : (splitName (stem ++ ['.'])).1 = stem := by rw [splitName_dot ne]
      rw [setExtension_append isLead slashless'' counts' down' stems slashless']

theorem renamed_eq_self_iff (down : name ≠ "..".toList) (extension : Text) :
    renamed name extension = name ↔
      (splitName name).2 = some extension ∧ name ≠ '.' :: '.' :: extension := by
  rcases splitName_cases name with uncut | ⟨stem, old, ne, rfl, cut⟩
  · simp [renamed, uncut]
  · rw [renamed, cut]
    dsimp only
    split
    · next dot =>
      subst dot
      have filled : old ≠ [] := by
        rintro rfl
        exact down rfl
      refine iff_of_false (fun eq => filled ?_) fun ⟨eq, ha⟩ => ha ?_
      · simpa using eq.symm
      · rw [← Option.some.inj eq]
        rfl
    · next o =>
      rw [append_cancel_left_eq, cons.injEq, Option.some.injEq]
      refine ⟨fun eq => ⟨eq.2.symm, fun dots => o ?_⟩, fun eq => ⟨rfl, eq.1.symm⟩⟩
      rw [eq.2] at dots
      exact append_cancel_right (show stem ++ '.' :: old = ['.'] ++ '.' :: old from dots)

theorem slash_notMem_renamed {extension : Text} (slashless : '/' ∉ name)
    (slashless' : '/' ∉ extension) : '/' ∉ renamed name extension := by
  rcases splitName_cases name with uncut | ⟨stem, old, -, rfl, cut⟩
  · rw [renamed, uncut]
    simp [slashless, slashless']
  · rw [renamed, cut]
    dsimp only
    split
    · decide
    · simp only [mem_append, not_or] at slashless
      simp [slashless.1, slashless']

end Path

namespace FileSystem

variable {fs after : FileSystem} {path : Text} {place : Place}

section Enclosure

def Encloses (files : FileSystem) (place : Place) : Prop :=
  ∀ names, names <:+ place.names → names ≠ place.names →
    files.node? ⟨place.anchor, names⟩ = some .directory

section

variable (encloses : fs.Encloses place)

include encloses

theorem Encloses.child (entered : fs.node? place = some .directory) (name : Text) :
    fs.Encloses (place.child name) := by
  intro names inner ha
  rcases suffix_cons_iff.mp inner with eq | inner
  · exact absurd eq ha
  · by_cases eq : names = place.names
    · rw [eq]
      exact entered
    · exact encloses names inner eq

theorem Encloses.up : fs.Encloses place.up := by
  obtain ⟨anchor, names⟩ := place
  cases names with
  | nil =>
    intro names inner ha
    cases anchor <;> exact absurd (suffix_nil.mp inner) ha
  | cons name outer =>
    intro names inner ha
    refine encloses names (inner.trans (suffix_cons ..)) fun eq => ?_
    have shorter := inner.length_le
    rw [eq] at shorter
    change outer.length + 1 ≤ outer.length at shorter
    omega

theorem Encloses.node?_up : fs.node? place.up = some .directory := by
  obtain ⟨anchor, names⟩ := place
  cases names with
  | nil => cases anchor <;> exact node?_of_names_eq_nil fs rfl
  | cons name outer => exact encloses outer (suffix_cons ..) (by simp)

theorem Encloses.follow {parts : List Text} {reached : Place}
    (follows : fs.follow place parts = .ok reached) : fs.Encloses reached := by
  induction parts generalizing place with
  | nil => exact Except.ok.inj follows ▸ encloses
  | cons part r ih =>
    unfold follow at follows
    split at follows
    · cases follows
    · next entered =>
      split at follows
      · exact ih encloses follows
      · split at follows
        · exact ih encloses.up follows
        · split at follows
          · cases follows
          · exact ih (encloses.child (enterFault?_eq_none_iff.mp entered) part) follows

end

theorem encloses_startOf (fs : FileSystem) (path : Text) : fs.Encloses (startOf path) := by
  intro names inner ha
  have outermost : (startOf path).names = [] := by
    unfold startOf
    split <;> rfl
  rw [outermost] at inner ha
  exact absurd (suffix_nil.mp inner) ha

end Enclosure

theorem follow_part {part : Text} {reached : Place}
    (follows : fs.follow place [part] = .ok reached) :
    (isVoid part ∧ reached = place) ∨ reached = place.up ∨
      (isVoid part = false ∧ part ≠ "..".toList ∧ reached = place.child part) := by
  simp only [follow] at follows
  split at follows
  · cases follows
  · split at follows
    · next void => exact .inl ⟨void, (Except.ok.inj follows).symm⟩
    · next counts =>
      split at follows
      · exact .inr (.inl (Except.ok.inj follows).symm)
      · next down =>
        split at follows
        · cases follows
        · exact .inr (.inr ⟨eq_false_of_ne_true counts, down, (Except.ok.inj follows).symm⟩)

section Names

variable {lead name : Text}

section

variable (isLead : IsLead lead)

include isLead

theorem exists_around_of_locate (slashless : '/' ∉ name)
    (located : fs.locate (lead ++ name) = .ok place) :
    ∃ around, fs.follow (startOf (lead ++ name)) (Text.splitOn '/' lead).dropLast = .ok around ∧
      fs.Encloses around ∧ fs.node? around = some .directory ∧
      fs.follow around [name] = .ok place := by
  unfold locate at located
  split at located
  · cases located
  · rw [isLead.splitOn_append slashless] at located
    obtain ⟨around, u, directory, last⟩ := (follow_append (by simp)).mp located
    exact ⟨around, u, (encloses_startOf fs _).follow u, directory, last⟩

theorem name_of_file (slashless : '/' ∉ name)
    (hit : fs.lookup (lead ++ name) = .ok (place, .file bytes)) :
    isVoid name = false ∧ name ≠ "..".toList ∧
      ∃ around, fs.follow (startOf (lead ++ name)) (Text.splitOn '/' lead).dropLast =
        .ok around ∧ place = around.child name := by
  obtain ⟨located, node⟩ := lookup_eq_ok_iff.mp hit
  obtain ⟨around, u, encloses, directory, last⟩ := exists_around_of_locate isLead slashless located
  rcases follow_part last with ⟨-, rfl⟩ | rfl | ⟨counts, down, inner⟩
  · rw [directory] at node
    cases node
  · rw [encloses.node?_up] at node
    cases node
  · exact ⟨counts, down, around, u, inner⟩

theorem locate_ne_of_ne {o : Text} (slashless : '/' ∉ name) (slashless' : '/' ∉ o)
    (ha : o ≠ name) (hit : fs.lookup (lead ++ name) = .ok (place, .file bytes)) :
    fs.locate (lead ++ o) ≠ .ok place := by
  intro located
  obtain ⟨-, -, around, u, inner⟩ := name_of_file isLead slashless hit
  obtain ⟨around', front', encloses, directory, last⟩ :=
    exists_around_of_locate isLead slashless' located
  have node := (lookup_eq_ok_iff.mp hit).2
  rcases follow_part last with ⟨-, eq⟩ | eq | ⟨-, -, eq⟩
  · rw [eq, directory] at node
    cases node
  · rw [eq, encloses.node?_up] at node
    cases node
  · rw [eq, Place.mk.injEq] at inner
    exact ha (cons.inj inner.2).1

end

end Names

section Frame

def Extends (files after : FileSystem) : Prop :=
  ∀ place node, files.node? place = some node → after.node? place = some node

theorem lookup_of_kept {node : Node} (directories : ∀ place, fs.node? place = some .directory →
      after.node? place = some .directory) (kept : after.node? place = fs.node? place)
    (hit : fs.lookup path = .ok (place, node)) : after.lookup path = .ok (place, node) := by
  obtain ⟨located, there⟩ := lookup_eq_ok_iff.mp hit
  exact lookup_eq_ok_iff.mpr ⟨locate_mono directories located, kept.trans there⟩

theorem Extends.lookup {node : Node} (grows : Extends fs after)
    (hit : fs.lookup path = .ok (place, node)) : after.lookup path = .ok (place, node) := by
  have there := (lookup_eq_ok_iff.mp hit).2
  exact lookup_of_kept (fun o => grows o _) ((grows _ _ there).trans there.symm) hit

theorem extends_of_makeDirectory (made : fs.makeDirectory path = .ok after) : Extends fs after := by
  unfold makeDirectory at made
  split at made
  · cases made
  · next named located =>
    split at made
    · cases made
    · next free =>
      cases made
      intro o node there
      have apart : o ≠ named := by
        rintro rfl
        rw [free] at there
        cases there
      rw [node?_put_of_ne fs apart, there]

/-- Making directories takes nothing away, also where it fails halfway. -/
theorem extends_makeDirectoriesFrom (fuel : Nat) (fs : FileSystem) (path : Text) :
    Extends fs (makeDirectoriesFrom fuel fs path).1 := by
  induction fuel generalizing path with
  | zero => exact fun _ _ there => there
  | succ fuel ih =>
    unfold makeDirectoriesFrom
    split
    · exact fun _ _ there => there
    · split
      · next made => exact extends_of_makeDirectory made
      · split
        · exact fun _ _ there => there
        · next outer lies =>
          have inner := ih outer
          split
          · next nested => exact nested ▸ inner
          · next nested =>
            rw [nested] at inner
            split
            · next made =>
              exact fun o node there =>
                extends_of_makeDirectory made o node (inner o node there)
            · exact inner
      · exact fun _ _ there => there

section

variable {output : Text} (hit : fs.lookup path = .ok (place, .file bytes))
  (ha : fs.locate output ≠ .ok place)

include hit ha

/-- A change at the place of a file alone is not seen at another place. -/
theorem lookup_of_others {target : Place} (located : fs.locate output = .ok target)
    (free : fs.node? target ≠ some .directory)
    (others : ∀ o, o ≠ target → after.node? o = fs.node? o) :
    after.lookup path = .ok (place, .file bytes) := by
  refine lookup_of_kept (fun o directory => ?_) (others place fun eq => ha (eq ▸ located)) hit
  rw [others o fun eq => free (eq ▸ directory), directory]

theorem lookup_removeFile : (fs.removeFile output).lookup path = .ok (place, .file bytes) := by
  unfold removeFile
  split
  · next removed =>
    obtain ⟨located, node⟩ := lookup_eq_ok_iff.mp removed
    exact lookup_of_others hit ha located (by simp [node]) fun o kept => node?_erase_of_ne fs kept
  · exact hit

theorem lookup_write {content : List UInt8} (written : fs.write output content = .ok after) :
    after.lookup path = .ok (place, .file bytes) := by
  obtain ⟨-, target, located, free, rfl⟩ := write_eq_ok_iff.mp written
  exact lookup_of_others hit ha located free fun o kept => node?_put_of_ne fs kept _

end

end Frame

end FileSystem

section Run

variable {fs after : FileSystem} {path output : Text} {place : Place} {bytes : List UInt8}
  (hit : fs.lookup path = .ok (place, .file bytes)) (ha : ∀ later : FileSystem,
    later.lookup path = .ok (place, .file bytes) → later.locate output ≠ .ok place)

include hit ha

theorem lookup_writeProgram (content : List UInt8) :
    (writeProgram fs output content).1.lookup path = .ok (place, .file bytes) := by
  have grows := extends_makeDirectoriesFrom
    (((parent? output).getD []).length + 1) fs ((parent? output).getD [])
  have there := grows.lookup hit
  unfold writeProgram
  dsimp only
  split
  · exact there
  · split
    · exact there
    · next written => exact lookup_write there (ha _ there) written

theorem Exit.lookup_of_apart {cfg : Config} {input : Text} {result : Except Error Summary}
    (exit : Exit cfg fs input output after result) :
    after.lookup path = .ok (place, .file bytes) := by
  cases exit with
  | aborted => exact hit
  | stopped => exact lookup_removeFile hit (ha fs hit)
  | failed compiles fails => exact lookup_removeFile hit (ha fs hit)
  | @unwritten x after error compiles clean refused =>
    have kept := lookup_writeProgram hit ha (Encoding.Utf16.encode x.text)
    rwa [refused] at kept
  | @written x after compiles clean done =>
    have kept := lookup_writeProgram hit ha (Encoding.Utf16.encode x.text)
    rwa [done] at kept

end Run

namespace CommandLine

/-- Whether a word gives an output, or asks for one in the next word. -/
def givesOutput (word : Text) : Bool :=
  startsWith word "-o".toList || word == "--output".toList ||
    startsWith word "--output=".toList

namespace Reading

structure IsSilent (reading : Reading) : Prop where
  ungiven : reading.value? .output = none
  awaited : ∀ value, reading.pending ≠ some (.output, value)

variable {reading after : Reading} {slot : Slot}

theorem exists_of_bind_eq_ok {α β : Type} {first : Except Refusal α} {next : α → Except Refusal β}
    {result : β} (comes : first >>= next = .ok result) :
    ∃ value, first = .ok value ∧ next value = .ok result := by
  cases first with
  | error refusal => cases comes
  | ok value => exact ⟨value, rfl, comes⟩

theorem eq_output_of_longItem? {name : Text} (mem : longItem? name = some (.slot .output)) :
    name = "output".toList := by
  obtain ⟨e, hit, item⟩ := Option.map_eq_some_iff.mp mem
  have hn : e.1.toList = name := by simpa using find?_some hit
  have only : ∀ e ∈ longItems, e.2 = .slot .output → e.1.toList = "output".toList := by
    decide
  rw [← hn]
  exact only e (mem_of_find?_eq_some hit) item

section

variable (silent : reading.IsSilent)

include silent

theorem IsSilent.give {value : Text} (o : slot ≠ .output)
    (given : reading.give slot value = .ok after) : after.IsSilent := by
  unfold Reading.give at given
  split at given
  · cases given
  · cases given
    refine ⟨?_, silent.awaited⟩
    have ungiven := silent.ungiven
    simp only [value?, Option.map_eq_none_iff] at ungiven ⊢
    rw [find?_append, ungiven]
    simp [o]

theorem IsSilent.settle (settled : reading.settle = .ok after) : after.IsSilent := by
  unfold Reading.settle at settled
  split at settled
  · exact Except.ok.inj settled ▸ silent
  · cases settled
  · next slot value pending =>
    have ho : slot ≠ .output := by
      rintro rfl
      exact silent.awaited _ pending
    have calm : IsSilent { reading with pending := none } := ⟨silent.ungiven, by simp⟩
    exact calm.give ho settled

theorem IsSilent.option {attached : Option Text} (o : slot ≠ .output)
    (read : reading.option slot attached = .ok after) : after.IsSilent := by
  obtain ⟨next, settled, r⟩ := exists_of_bind_eq_ok read
  have calm := silent.settle settled
  cases attached with
  | some value => exact calm.give o r
  | none =>
    cases r
    exact ⟨calm.ungiven, by simpa using fun eq => absurd eq o⟩

theorem IsSilent.flag {flag : Flag} (read : reading.flag flag = .ok after) : after.IsSilent := by
  obtain ⟨next, settled, r⟩ := exists_of_bind_eq_ok read
  have calm := silent.settle settled
  split at r
  · cases r
  · cases r
  · split at r
    · cases r
    · cases r
      exact ⟨calm.ungiven, calm.awaited⟩

theorem IsSilent.longWord {r : Text} (o : givesOutput ('-' :: '-' :: r) = false)
    (read : reading.longWord r = .ok after) : after.IsSilent := by
  simp only [givesOutput, Bool.or_eq_false_iff, beq_eq_false_iff_ne, startsWith] at o
  obtain ⟨⟨-, whole⟩, hu⟩ := o
  unfold Reading.longWord at read
  dsimp only at read
  split at read
  · cases read
  · next slot attached mem =>
    refine silent.option ?_ read
    rintro rfl
    have named := eq_output_of_longItem? mem
    cases cut : cutAt? ['='] r with
    | none =>
      rw [cut] at named
      exact whole (congrArg ('-' :: '-' :: ·) named)
    | some parts =>
      rw [cut] at named
      rw [eq_of_cutAt? cut, show parts.1 = _ from named] at hu
      simp at hu
  · cases read
  · exact silent.flag read

theorem IsSilent.shortWord {letter : Char} {r : Text} (o : letter ≠ 'o')
    (read : reading.shortWord letter r = .ok after) : after.IsSilent := by
  unfold Reading.shortWord at read
  split at read
  · cases read
  · exact silent.flag read
  · next slot mem =>
    refine silent.option ?_ read
    rintro rfl
    unfold shortItem? at mem
    split at mem <;> simp_all

theorem IsSilent.inputWord {w : Text} (read : reading.inputWord w = .ok after) :
    after.IsSilent := by
  unfold Reading.inputWord at read
  split at read
  · cases read
  · obtain ⟨next, settled, r⟩ := exists_of_bind_eq_ok read
    cases r
    exact ⟨(silent.settle settled).ungiven, by simp⟩

theorem IsSilent.nameWord {w : Text} (read : reading.nameWord w = .ok after) : after.IsSilent := by
  unfold Reading.nameWord at read
  split at read
  · next slot pending =>
    cases read
    refine ⟨silent.ungiven, fun value eq => ?_⟩
    cases eq
    exact silent.awaited _ pending
  · exact silent.inputWord read

theorem IsSilent.word {w : Text} (ho : reading.onlyNames ∨ givesOutput w = false)
    (read : reading.word w = .ok after) : after.IsSilent := by
  unfold Reading.word at read
  split at read
  · exact silent.inputWord read
  · next names =>
    have hp : givesOutput w = false := ho.resolve_left names
    split at read
    · cases read
      exact ⟨silent.ungiven, silent.awaited⟩
    · exact silent.longWord hp read
    · next letter r _ =>
      refine silent.shortWord ?_ read
      rintro rfl
      simp [givesOutput, startsWith] at hp
    · exact silent.nameWord read

end

theorem onlyNames_settle (settled : reading.settle = .ok after) :
    after.onlyNames = reading.onlyNames := by
  unfold settle give at settled
  split at settled
  · exact Except.ok.inj settled ▸ rfl
  · cases settled
  · split at settled
    · cases settled
    · exact Except.ok.inj settled ▸ rfl

theorem onlyNames_inputWord {w : Text} (read : reading.inputWord w = .ok after) :
    after.onlyNames = reading.onlyNames := by
  unfold inputWord at read
  split at read
  · cases read
  · obtain ⟨next, settled, r⟩ := exists_of_bind_eq_ok read
    have kept := onlyNames_settle settled
    cases r
    exact kept

theorem word_of_onlyNames (names : reading.onlyNames) (word : Text) :
    reading.word word = reading.inputWord word := by
  unfold Reading.word
  rw [if_pos names]

theorem word_hyphens (names : ¬reading.onlyNames) :
    reading.word "--".toList = .ok { reading with onlyNames := true } := by
  unfold word
  rw [if_neg names]
  rfl

theorem IsSilent.words {words : List Text} (silent : reading.IsSilent)
    (others : reading.onlyNames ∨
      ∀ word ∈ words.takeWhile (· != "--".toList), givesOutput word = false)
    (read : words.foldlM Reading.word reading = .ok after) : after.IsSilent := by
  induction words generalizing reading with
  | nil => exact Except.ok.inj read ▸ silent
  | cons first r ih =>
    obtain ⟨next, step, onward⟩ := exists_of_bind_eq_ok read
    by_cases names : reading.onlyNames
    · have names' : next.onlyNames := by
        rw [word_of_onlyNames names] at step
        rw [onlyNames_inputWord step, names]
      exact ih (silent.word (.inl names) step) (.inl names') onward
    · have others' := others.resolve_left names
      by_cases hyphens : first = "--".toList
      · rw [hyphens, word_hyphens names] at step
        cases step
        have calm : IsSilent { reading with onlyNames := true } := ⟨silent.ungiven, silent.awaited⟩
        exact ih calm (.inl rfl) onward
      · rw [takeWhile_cons_of_pos (by simpa using hyphens), forall_mem_cons] at others'
        exact ih (silent.word (.inr others'.1) step) (.inr others'.2) onward

end Reading

theorem output_of_silent {words : List Text} {options : Options}
    (silent : ∀ w ∈ words.tail.takeWhile (· != "--".toList), givesOutput w = false)
    (asked : parse words = .ok (.compile options)) :
    options.output = defaultOutput options.input := by
  obtain ⟨reading, read, task⟩ := Reading.exists_of_bind_eq_ok asked
  obtain ⟨fin, settled, r⟩ := Reading.exists_of_bind_eq_ok task
  have start : Reading.IsSilent {} := ⟨rfl, by simp⟩
  have calm := (start.words (.inr silent) read).settle settled
  split at r
  · cases r
  · split at r
    · cases r
    · split at r
      · cases r
      · cases r
        simp [Reading.options, calm.ungiven]

theorem defaultOutput_spec {fs : FileSystem} {input : Text} {place : Place}
    (hit : fs.lookup input = .ok (place, .file bytes)) :
    (defaultOutput input = input ↔ extension? input = some programExtension ∧
      fileName? input ≠ some "..prgm".toList) ∧
    (defaultOutput input ≠ input → ∀ later : FileSystem,
      later.lookup input = .ok (place, .file bytes) →
      later.locate (defaultOutput input) ≠ .ok place) := by
  obtain ⟨lead, name, rfl, isLead, slashless⟩ := exists_lead input
  obtain ⟨counts, down, -⟩ := name_of_file isLead slashless hit
  have hn := fileName?_append isLead slashless counts down
  have beside : defaultOutput (lead ++ name) = lead ++ renamed name programExtension :=
    withExtension_append isLead slashless counts down programExtension
  have slashless' : '/' ∉ renamed name programExtension :=
    slash_notMem_renamed slashless (by decide)
  rw [beside, append_cancel_left_eq]
  refine ⟨?_, fun ha later held =>
    locate_ne_of_ne isLead slashless slashless' (fun eq => ha (by rw [eq])) held⟩
  have dots : "..prgm".toList = '.' :: '.' :: programExtension := rfl
  rw [renamed_eq_self_iff down, extension?, hn, dots]
  simp

/-- Where a command line gives no output, a run leaves the bytes of its source as they are, whether
it succeeds, reports errors or stops, unless the path of the program is that of the source. That is
so exactly when the source has the extension of a program and is not just two dots in front of it; a
run that succeeds then leaves its program in place of the source, and one that does not removes
the source, unless it breaks off. -/
theorem source_kept_unless_program {files : FileSystem} {words : List Text} {options : Options}
    {bytes : List UInt8}
    (silent : ∀ word ∈ words.tail.takeWhile (· != "--".toList), givesOutput word = false)
    (asked : parse words = .ok (.compile options))
    (readable : files.readBytes options.input = .ok bytes) :
    (options.output ≠ options.input → (options.run files).1.readBytes options.input = .ok bytes) ∧
    (options.output = options.input ↔ extension? options.input = some programExtension ∧
      fileName? options.input ≠ some "..prgm".toList) ∧
    (options.output = options.input →
      ((options.run files).2 = .ok true → ∃ compiled,
        compileFile options.config files options.input = .ok compiled ∧
        (options.run files).1.readBytes options.input = .ok (Encoding.Utf16.encode compiled.text)) ∧
      ((options.run files).2 ≠ .ok true → (options.run files).2 ≠ .error .aborted →
        (options.run files).1.filePlace? options.input = none) ∧
      ((options.run files).2 = .error .aborted → (options.run files).1 = files)) := by
  obtain ⟨place, found⟩ := readBytes_eq_ok_iff.mp readable
  obtain ⟨same, apart⟩ := defaultOutput_spec found
  rw [← output_of_silent silent asked] at same apart
  have exit := exit_compileToFile options.config files options.input options.output
  have unbroken : (compileToFile options.config files options.input options.output).2 =
      .error .aborted ↔ (options.run files).2 = .error .aborted := by
    have mapped : (options.run files).2 = Except.map Summary.isSuccess
      (compileToFile options.config files options.input options.output).2 := rfl
    rw [mapped]
    cases (compileToFile options.config files options.input options.output).2 <;> simp [Except.map]
  refine ⟨fun other => ?_, same, fun itself => ⟨fun success => ?_, fun failure whole => ?_,
    fun breaks => ?_⟩⟩
  · exact readBytes_eq_ok_iff.mpr ⟨place, exit.lookup_of_apart found (apart other)⟩
  · have passes : Succeeds (compileToFile options.config files options.input options.output).2 :=
      succeeds_iff.mpr success
    obtain ⟨summary, comes, passes⟩ := passes
    rw [comes] at exit
    obtain ⟨compiled, compiles, held, -⟩ := exit.readBytes_of_isSuccess passes
    have there : (options.run files).1.readBytes options.output =
      .ok (Encoding.Utf16.encode compiled.text) := held
    rw [itself] at there
    exact ⟨compiled, compiles, there⟩
  · have removed : (options.run files).1.filePlace? options.output = none :=
      exit.filePlace?_of_not_succeeds (fun success => failure (succeeds_iff.mp success))
        (mt unbroken.mp whole)
    rwa [itself] at removed
  · rw [unbroken.mpr breaks] at exit
    exact exit.eq_of_aborted

/-- A source that only comes behind two hyphens and looks like an option keeps its bytes, also where
the run finds an error in it. -/
theorem source_kept_unless_program_hyphens :
    let files : FileSystem :=
      ⟨[(Place.here.child "-o".toList, .file "end;".toList.utf8Encode.data.toList)]⟩
    let words := ["pplus".toList, "--minify".toList, "--".toList, "-o".toList]
    let options : Options := ⟨"-o".toList, "-o.prgm".toList, [], { minify := true }⟩
    parse words = .ok (.compile options) ∧ (options.run files).2 = .ok false ∧
      (options.run files).1.readBytes "-o".toList = files.readBytes "-o".toList := by
  intro files words options
  have asked : parse words = .ok (.compile options) := by decide +kernel
  have readable : files.readBytes options.input = .ok "end;".toList.utf8Encode.data.toList := by
    decide +kernel
  have silent : ∀ word ∈ words.tail.takeWhile (· != "--".toList), givesOutput word = false := by
    decide +kernel
  have kept := (source_kept_unless_program silent asked readable).1 (by decide +kernel)
  exact ⟨asked, by decide +kernel, kept.trans readable.symm⟩

/-- A source with the extension of a program does not outlive an error that is found in it. -/
theorem program_source_removed :
    let files : FileSystem :=
      ⟨[(Place.here.child "a.prgm".toList, .file "end; \n".toList.utf8Encode.data.toList)]⟩
    let words := ["pplus".toList, "a.prgm".toList]
    let options : Options := ⟨"a.prgm".toList, "a.prgm".toList, [], {}⟩
    parse words = .ok (.compile options) ∧
      (∀ word ∈ words.tail.takeWhile (· != "--".toList), givesOutput word = false) ∧
      files.readBytes options.input = .ok "end; \n".toList.utf8Encode.data.toList ∧
      (options.run files).2 = .ok false ∧
      (options.run files).1.readBytes options.input = .error .missing := by
  decide +kernel

end CommandLine

end PrimePlus
