import Mathlib.Data.List.Dedup
import PrimePlus.File.System

/-!
What paths lead to (`follow_mono`).
-/

namespace PrimePlus

open List

variable {outer : Text}

namespace Text

theorem splitOn_cons_of_ne {sep c : Char} (other : c ≠ sep) {t part : Text} {parts : List Text}
    (split : splitOn sep t = part :: parts) : splitOn sep (c :: t) = (c :: part) :: parts := by
  rw [splitOn, if_neg other, split]

theorem splitOn_append_sep (sep : Char) (left right : Text) :
    splitOn sep (left ++ sep :: right) = splitOn sep left ++ splitOn sep right := by
  induction left with
  | nil => simp [splitOn]
  | cons c left ih =>
    by_cases eq : c = sep
    · simp [splitOn, eq, ih]
    · obtain ⟨part, parts, split⟩ := exists_cons_of_ne_nil (splitOn_ne_nil sep left)
      rw [split, cons_append] at ih
      rw [cons_append, splitOn_cons_of_ne eq ih, splitOn_cons_of_ne eq split, cons_append]

theorem splitOn_of_notMem {sep : Char} {t : Text} (absent : sep ∉ t) : splitOn sep t = [t] := by
  induction t with
  | nil => rfl
  | cons c t ih =>
    rw [mem_cons, not_or] at absent
    exact splitOn_cons_of_ne (Ne.symm absent.1) (ih absent.2)

theorem splitOn_append_of_notMem {sep : Char} {left : Text} (absent : sep ∉ left) (right : Text) :
    splitOn sep (left ++ right) = (splitOn sep right).modifyHead (left ++ ·) := by
  obtain ⟨part, parts, split⟩ := exists_cons_of_ne_nil (splitOn_ne_nil sep right)
  rw [split]
  induction left with
  | nil => exact split
  | cons c left ih =>
    rw [mem_cons, not_or] at absent
    exact splitOn_cons_of_ne (Ne.symm absent.1) (ih absent.2)

theorem join_cons_append (sep : Text) (part : Text) (u back : List Text) (next : Text) :
    join sep (part :: u ++ next :: back) =
      join sep (part :: u) ++ (sep ++ join sep (next :: back)) := by
  induction u generalizing part with
  | nil => simp [join]
  | cons other u ih =>
    have hr := ih other
    simp only [join, intercalate, cons_append, intersperse_cons_cons,
      flatten_cons, append_assoc] at hr ⊢
    rw [hr]

theorem byteLength_append (left right : Text) :
    byteLength (left ++ right) = byteLength left + byteLength right := by
  induction left with
  | nil => simp [byteLength]
  | cons c left ih =>
    simp only [byteLength, cons_append, foldr_cons] at ih ⊢
    omega

end Text

namespace Path

theorem parent?_cases {path : Text} (lies : parent? path = some outer) :
    outer = [] ∨ outer = ['/'] ∨ ∃ rest, path = outer ++ '/' :: rest := by
  have whole : path.take (headLength path) ++
      Text.join ['/'] (Text.splitOn '/' (path.drop (headLength path))) = path := by
    rw [Text.join_splitOn, take_append_drop]
  obtain ⟨ends, parts⟩ : ∃ ends, Text.splitOn '/' (path.drop (headLength path)) =
      bodyParts path ++ ends := by
    refine ⟨((Text.splitOn '/' (path.drop (headLength path))).reverse.takeWhile isVoid).reverse, ?_⟩
    rw [bodyParts, ← reverse_append, takeWhile_append_dropWhile, reverse_reverse]
  unfold parent? at lies
  dsimp only at lies
  split at lies
  · split at lies
    · exact .inl (Option.some.inj lies).symm
    · cases lies
  · next n around reversed =>
    have hb : bodyParts path = around.reverse ++ [n] := by
      rw [← reverse_reverse (bodyParts path), reversed, reverse_cons]
    obtain ⟨voids, front⟩ :
        ∃ voids, around.reverse = (around.dropWhile isVoid).reverse ++ voids := by
      refine ⟨(around.takeWhile isVoid).reverse, ?_⟩
      rw [← reverse_append, takeWhile_append_dropWhile]
    cases Option.some.inj lies
    cases inner : (around.dropWhile isVoid).reverse with
    | cons part more =>
      -- some part that counts stands between the head and the name
      refine .inr (.inr ?_)
      obtain ⟨next, rest, follows⟩ := exists_cons_of_ne_nil (show voids ++ [n] ++ ends ≠ [] by simp)
      refine ⟨Text.join ['/'] (next :: rest), ?_⟩
      rw [parts, hb, front, inner, append_assoc, append_assoc,
        ← append_assoc voids, follows, Text.join_cons_append] at whole
      simpa using whole.symm
    | nil =>
      have head : Text.join ['/'] [] = [] := rfl
      rw [head]
      unfold headLength isAbsolute at whole parts ⊢
      by_cases absolute : (path.head? == some '/')
      · refine .inr (.inl ?_)
        rw [if_pos absolute]
        cases path with
        | nil => cases absolute
        | cons c path => simpa using absolute
      · rw [if_neg absolute]
        split
        · next dotted =>
          refine .inr (.inr ?_)
          rcases Bool.or_eq_true_iff.mp dotted with alone | led
          · -- one dot has no part that counts
            have only : bodyParts path = [] := by rw [beq_iff_eq.mp alone]; decide
            rw [only] at hb
            simp at hb
          · obtain ⟨rest, rfl⟩ := isPrefixOf_iff_prefix.mp led
            exact ⟨rest, rfl⟩
        · exact .inl rfl

end Path

namespace FileSystem

variable {fs after : FileSystem} {path : Text} {place : Place} {node : Node}

theorem lookup_eq_ok_iff : fs.lookup path = .ok (place, node) ↔
    fs.locate path = .ok place ∧ fs.node? place = some node := by
  unfold lookup
  constructor
  · intro hit
    split at hit
    · cases hit
    · next reached located =>
      split at hit
      · cases hit
      · next held there =>
        cases hit
        exact ⟨located, there⟩
  · rintro ⟨located, there⟩
    rw [located]
    dsimp only
    rw [there]

theorem readBytes_eq_ok_iff {bytes : List UInt8} : fs.readBytes path = .ok bytes ↔
    ∃ place, fs.lookup path = .ok (place, .file bytes) := by
  unfold readBytes
  constructor
  · intro read
    split at read
    · cases read
    · cases read
    · next place held hit =>
      cases read
      exact ⟨place, hit⟩
  · rintro ⟨place, hit⟩
    rw [hit]

theorem isDirectory_iff : fs.isDirectory path ↔
    ∃ place, fs.lookup path = .ok (place, .directory) := by
  unfold isDirectory
  constructor
  · intro directory
    split at directory
    · next place hit => exact ⟨place, hit⟩
    · cases directory
  · rintro ⟨place, hit⟩
    rw [hit]

theorem enterFault?_eq_none_iff : fs.enterFault? place = none ↔
    fs.node? place = some .directory := by
  unfold enterFault?
  constructor
  · intro entered
    split at entered
    · cases entered
    · cases entered
    · next held => exact held
  · intro held
    rw [held]

theorem node?_of_names_eq_nil (fs : FileSystem) (outermost : place.names = []) :
    fs.node? place = some .directory := by
  simp [node?, outermost]

theorem mem_entries_of_node? (held : fs.node? place = some node) (inner : place.names ≠ []) :
    (place, node) ∈ fs.entries := by
  rw [node?, if_neg (by simpa using inner), Option.map_eq_some_iff] at held
  obtain ⟨e, hit, rfl⟩ := held
  have eq : e.1 = place := by simpa using find?_some hit
  rw [← eq]
  exact mem_of_find?_eq_some hit

variable {other : Place}

theorem find?_filter_ne (ha : other ≠ place) (entries : List (Place × Node)) :
    (entries.filter fun e => e.1 != place).find? (fun e => e.1 == other) =
      entries.find? fun e => e.1 == other := by
  rw [find?_filter]
  congr 1
  funext e
  by_cases eq : e.1 = other <;> simp [eq, ha]

theorem node?_put_self (fs : FileSystem) (inner : place.names ≠ []) (node : Node) :
    (fs.put place node).node? place = some node := by
  simp [node?, put, inner]

theorem node?_put_of_ne (fs : FileSystem) (ha : other ≠ place) (node : Node) :
    (fs.put place node).node? other = fs.node? other := by
  have skipped : (place == other) = false := by simpa using Ne.symm ha
  simp only [node?, put, find?_cons, skipped, find?_filter_ne ha]

theorem node?_erase_self (fs : FileSystem) (inner : place.names ≠ []) :
    (fs.erase place).node? place = none := by
  simp [node?, erase, inner]

theorem node?_erase_of_ne (fs : FileSystem) (ha : other ≠ place) :
    (fs.erase place).node? other = fs.node? other := by
  simp only [node?, erase, find?_filter_ne ha]

section Follow

variable (directories : ∀ place, fs.node? place = some .directory →
  after.node? place = some .directory)

include directories in
/-- Paths lead through directories, so they lead on to where they led where all directories are
still there. -/
theorem follow_mono {parts : List Text} {start reached : Place}
    (follows : fs.follow start parts = .ok reached) : after.follow start parts = .ok reached := by
  induction parts generalizing start with
  | nil => exact follows
  | cons part r ih =>
    unfold follow at follows ⊢
    split at follows
    · cases follows
    · next entered =>
      rw [enterFault?_eq_none_iff.mpr (directories start (enterFault?_eq_none_iff.mp entered))]
      split at follows
      · next void => rw [if_pos void]; exact ih follows
      · next counts =>
        rw [if_neg counts]
        split at follows
        · next back => rw [if_pos back]; exact ih follows
        · next down =>
          rw [if_neg down]
          split at follows
          · cases follows
          · next short => rw [if_neg short]; exact ih follows

include directories in
theorem locate_mono (located : fs.locate path = .ok place) : after.locate path = .ok place := by
  unfold locate at located ⊢
  split at located
  · cases located
  · exact follow_mono directories located

theorem follow_append {u back : List Text} {start reached : Place} (further : back ≠ []) :
    fs.follow start (u ++ back) = .ok reached ↔
      ∃ middle, fs.follow start u = .ok middle ∧
        fs.node? middle = some .directory ∧ fs.follow middle back = .ok reached := by
  induction u generalizing start with
  | nil =>
    simp only [nil_append, follow, Except.ok.injEq, exists_eq_left']
    refine ⟨fun follows => ⟨?_, follows⟩, And.right⟩
    cases back with
    | nil => exact absurd rfl further
    | cons part r =>
      unfold follow at follows
      split at follows
      · cases follows
      · next entered => exact enterFault?_eq_none_iff.mp entered
  | cons part u ih =>
    rw [cons_append, follow.eq_2, follow.eq_2]
    split
    · simp
    · split
      · exact ih
      · split
        · exact ih
        · split
          · simp
          · exact ih

end Follow

section Spelling

theorem startOf_append (ne : outer ≠ []) (r : Text) : startOf (outer ++ r) = startOf outer := by
  cases outer with
  | nil => exact absurd rfl ne
  | cons c outer => rfl

theorem spellingFault?_of_append {r : Text} (ne : outer ≠ [])
    (spelt : spellingFault? (outer ++ r) = none) : spellingFault? outer = none := by
  unfold spellingFault? at spelt ⊢
  split at spelt
  · cases spelt
  · next clean =>
    split at spelt
    · cases spelt
    · split at spelt
      · cases spelt
      · next short =>
        have clean' : outer.contains '\x00' = false := by
          simp only [contains_append, Bool.or_eq_true, not_or, Bool.not_eq_true] at clean
          exact clean.1
        have short' : ¬pathLimit < Text.byteLength outer := by
          rw [Text.byteLength_append] at short
          omega
        have filled : outer.isEmpty = false := by simpa using ne
        rw [clean', filled, if_neg short']
        rfl

end Spelling

theorem isDirectory_of_locate_append {r : Text} (ne : outer ≠ [])
    (located : fs.locate (outer ++ '/' :: r) = .ok place) : fs.isDirectory outer := by
  unfold locate at located
  split at located
  · cases located
  · next spelt =>
    rw [Text.splitOn_append_sep, startOf_append ne] at located
    obtain ⟨middle, follows, directory, -⟩ := (follow_append (Text.splitOn_ne_nil '/' r)).mp located
    refine isDirectory_iff.mpr ⟨middle, lookup_eq_ok_iff.mpr ⟨?_, directory⟩⟩
    rw [locate, spellingFault?_of_append ne spelt]
    exact follows

theorem isDirectory_parent? (located : fs.locate path = .ok place)
    (lies : Path.parent? path = some outer) (ne : outer ≠ []) : fs.isDirectory outer := by
  rcases Path.parent?_cases lies with rfl | rfl | ⟨rest, rfl⟩
  · exact absurd rfl ne
  · have root : fs.lookup ['/'] = .ok (⟨.root, []⟩, .directory) := by
      refine lookup_eq_ok_iff.mpr ⟨?_, node?_of_names_eq_nil fs rfl⟩
      have spelt : spellingFault? ['/'] = none := by decide
      simp [locate, spelt, startOf, Path.isAbsolute, Text.splitOn, follow, Path.isVoid,
        enterFault?, node?]
    exact isDirectory_iff.mpr ⟨_, root⟩
  · exact isDirectory_of_locate_append ne located

theorem node?_of_getLast?_slash (slash : path.getLast? = some '/')
    (located : fs.locate path = .ok place) : fs.node? place = some .directory := by
  obtain ⟨bare, rfl⟩ := getLast?_eq_some_iff.mp slash
  unfold locate at located
  split at located
  · cases located
  · rw [Text.splitOn_append_sep] at located
    obtain ⟨middle, -, directory, last⟩ := (follow_append (by simp [Text.splitOn])).mp located
    have stays : middle = place := by
      simpa [Text.splitOn, follow, enterFault?_eq_none_iff.mpr directory, Path.isVoid] using last
    exact stays ▸ directory

section Files

def filePlace? (files : FileSystem) (path : Text) : Option Place :=
  match files.lookup path with
  | .ok (place, .file _) => some place
  | _ => none

def holdsFile (files : FileSystem) (place : Place) : Bool :=
  match files.node? place with
  | some (.file _) => true
  | _ => false

def filePlaces (files : FileSystem) : List Place :=
  (files.entries.map Prod.fst).dedup.filter files.holdsFile

theorem filePlace?_eq_some_iff : fs.filePlace? path = some place ↔
    ∃ bytes, fs.lookup path = .ok (place, .file bytes) := by
  unfold filePlace?
  constructor
  · intro hit
    split at hit
    · next reached bytes held =>
      cases hit
      exact ⟨bytes, held⟩
    · cases hit
  · rintro ⟨bytes, hit⟩
    rw [hit]

theorem mem_filePlaces_of_filePlace? (hit : fs.filePlace? path = some place) :
    place ∈ fs.filePlaces := by
  obtain ⟨bytes, held⟩ := filePlace?_eq_some_iff.mp hit
  have node := (lookup_eq_ok_iff.mp held).2
  have inner : place.names ≠ [] := by
    intro outermost
    rw [node?_of_names_eq_nil fs outermost] at node
    cases node
  have mem := mem_map_of_mem (f := Prod.fst) (mem_entries_of_node? node inner)
  refine mem_filter.mpr ⟨mem_dedup.mpr mem, ?_⟩
  rw [holdsFile, node]

theorem length_filePlaces_le (fs : FileSystem) : fs.filePlaces.length ≤ fs.entries.length := by
  calc fs.filePlaces.length
      ≤ (fs.entries.map Prod.fst).dedup.length := length_filter_le _ _
    _ ≤ (fs.entries.map Prod.fst).length := (dedup_sublist _).length_le
    _ = fs.entries.length := length_map _

theorem exists_filePlace?_of_readText {t : Text} (readable : fs.readText path = .ok t) :
    ∃ place, fs.filePlace? path = some place := by
  unfold readText at readable
  split at readable
  · cases readable
  · next bytes read =>
    obtain ⟨place, hit⟩ := readBytes_eq_ok_iff.mp read
    exact ⟨place, filePlace?_eq_some_iff.mpr ⟨bytes, hit⟩⟩

theorem isSame_of_filePlace? {left right : Text} (first : fs.filePlace? left = some place)
    (second : fs.filePlace? right = some place) : fs.isSame left right := by
  obtain ⟨_, held⟩ := filePlace?_eq_some_iff.mp first
  obtain ⟨_, held'⟩ := filePlace?_eq_some_iff.mp second
  rw [isSame, held, held']
  simp

end Files

end FileSystem

end PrimePlus
