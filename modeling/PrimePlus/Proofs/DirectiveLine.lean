import PrimePlus.Directive

/-!
How a line is read as a directive outside embedded blocks.
-/

namespace PrimePlus

open Text (trim)

namespace Regex

theorem findFrom_front_succ (r : Regex) (i : Nat) (pre after : Text) :
    (seq front r).findFrom (i + 1) pre after = none := by
  induction after generalizing i pre with
  | nil => rfl
  | cons c tl ih =>
    rw [findFrom_cons, ih]
    rfl

theorem find?_front (r : Regex) (t : Text) :
    (seq front r).find? t = (seq front r).matchAt (.start t) := by
  cases t with
  | nil => rfl
  | cons c tl =>
    rw [find?, findFrom_cons, findFrom_front_succ, Option.or_none]
    rfl

end Regex

namespace Directive

variable {line : Text}

def IsMarker (line : Text) : Prop :=
  (line.takeWhile fun c => !Unicode.isBlank c) ∈
    [Embedded.python.marker, Embedded.ppl.marker, endMarker]

instance (line : Text) : Decidable (IsMarker line) :=
  inferInstanceAs (Decidable (_ ∈ _))

theorem marker?_eq_none {st : DirectiveState} (hu : ¬IsMarker line) :
    st.marker? line = Option.none := by
  simp only [IsMarker, List.mem_cons, not_or] at hu
  obtain ⟨python, ppl, finish⟩ := hu
  simp only [DirectiveState.marker?, python, ppl, finish, if_false]

variable {word : DirectiveWord}

theorem exists_of_ofLine? {r : Text} (read : ofLine? line = some (word, r)) :
    ∃ c tail, line = '#' :: c :: tail ∧ 'a' ≤ c := by
  obtain ⟨hit, hm, -⟩ := Option.map_eq_some_iff.mp read
  rw [linePattern, Regex.all, List.foldr_cons, Regex.find?_front] at hm
  simp only [Regex.matchAt, Regex.run, Regex.front, Regex.char, Cursor.start, Cursor.step,
    List.foldr_cons, beq_self_eq_true, if_true] at hm
  -- each test that the expression makes on the first two characters has to succeed
  split at hm
  · cases hm
  · split at hm
    · next sign =>
      split at hm
      · cases hm
      · next c tail =>
        split at hm
        · next small =>
          have bounds := Bool.and_eq_true_iff.mp small
          exact ⟨c, tail, by rw [beq_iff_eq.mp sign], of_decide_eq_true bounds.1⟩
        · cases hm
    · cases hm

/-- A line with the word of a directive is no marker: markers are written in capital letters. -/
theorem not_isMarker_of_ofLine? {r : Text} (read : ofLine? line = some (word, r)) :
    ¬IsMarker line := by
  obtain ⟨c, tail, rfl, small⟩ := exists_of_ofLine? read
  intro marked
  have capital : ∀ marker ∈ [Embedded.python.marker, Embedded.ppl.marker, endMarker],
      marker[1]?.any (fun c => !decide ('a' ≤ c)) := by decide
  have second := capital _ marked
  have sign : (!Unicode.isBlank '#') := by decide
  rw [List.takeWhile_cons_of_pos (by exact sign)] at second
  by_cases hb : Unicode.isBlank c
  · simp [hb] at second
  · simp [hb, small] at second

theorem marker?_cases {st next : DirectiveState} {directive : Directive}
    (marker : st.marker? line = some (directive, next)) :
    (∃ language, directive = .embeddedStart language) ∨
      (∃ language, directive = .embeddedEnd language) ∨ directive = .consumed := by
  unfold DirectiveState.marker? at marker
  dsimp only at marker
  split at marker
  · cases marker
    exact .inl ⟨_, rfl⟩
  · split at marker
    · cases marker
      exact .inl ⟨_, rfl⟩
    · split at marker
      · split at marker
        · cases marker
          exact .inr (.inl ⟨_, rfl⟩)
        · cases marker
          exact .inr (.inr rfl)
      · cases marker

/-- What a line can be read as: no directive, a marker, or a directive with a word, which is passed
over or carried out. -/
theorem read_cases (fs : FileSystem) (line : Text) (st : DirectiveState) (env : Environment) :
    read fs line st env = (.none, st, env) ∨
      (∃ directive next, st.marker? (trim line) = some (directive, next) ∧
        read fs line st env = (directive, next, env)) ∨
      ∃ word r, ofLine? (trim line) = some (word, r) ∧
        (read fs line st env = (.consumed, st.skip word, env) ∨
          read fs line st env = perform fs (trim line) r st env word) := by
  unfold read
  dsimp only
  split
  · exact .inl rfl
  · split
    · next directive next marker => exact .inr (.inl ⟨directive, next, marker, rfl⟩)
    · split
      · exact .inl rfl
      · split
        · exact .inl rfl
        · next word r hit =>
          refine .inr (.inr ⟨word, r, hit, ?_⟩)
          split
          · exact .inl rfl
          · exact .inr rfl

theorem read_of_head?_ne (fs : FileSystem) (st : DirectiveState) (env : Environment)
    (o : (trim line).head? ≠ some '#') : read fs line st env = (.none, st, env) := by
  unfold read
  rw [if_pos (bne_iff_ne.mpr o)]

def IsInclusion (line : Text) : Prop :=
  ∃ parts ∈ ofLine? line, parts.1 = .inclusion

instance (line : Text) : Decidable (IsInclusion line) :=
  inferInstanceAs (Decidable (∃ _ ∈ _, _))

theorem perform_cases (fs : FileSystem) (line r : Text) (st : DirectiveState)
    (env : Environment) (word : DirectiveWord) :
    (perform fs line r st env word).1 = .consumed ∨
      (∃ path, word = .inclusion ∧
        perform fs line r st env word = (.inclusion path, st, env)) ∨
      perform fs line r st env word = (.pass line, st, env) := by
  cases word with
  | inclusion =>
    rw [perform]
    split
    · exact .inr (.inl ⟨_, rfl, rfl⟩)
    · exact .inl rfl
  | pragma =>
    rw [perform]
    split
    · exact .inr (.inr rfl)
    · exact .inl rfl
  | definition | removal | ifDefined | ifUndefined | ifCompares | otherwise | finish | other =>
    exact .inl rfl

theorem read_answers (fs : FileSystem) (line : Text) (st : DirectiveState) (env : Environment) :
    read fs line st env = (.none, st, env) ∨
      (∃ p, IsInclusion (trim line) ∧
        read fs line st env = (.inclusion p, st, env)) ∨
      read fs line st env = (.pass (trim line), st, env) ∨
      (∃ language, (read fs line st env).1 = .embeddedStart language) ∨
      (∃ language, (read fs line st env).1 = .embeddedEnd language) ∨
      (read fs line st env).1 = .consumed := by
  rcases read_cases fs line st env with idle | ⟨directive, next, marker, shape⟩ |
    ⟨word, r, hit, skipped | shape⟩
  · exact .inl idle
  · rw [shape]
    exact .inr (.inr (.inr (marker?_cases marker)))
  · rw [skipped]
    exact .inr (.inr (.inr (.inr (.inr rfl))))
  · rw [shape]
    rcases perform_cases fs (trim line) r st env word with
      done | ⟨p, rfl, included⟩ | passed
    · exact .inr (.inr (.inr (.inr (.inr done))))
    · exact .inr (.inl ⟨p, ⟨_, hit, rfl⟩, included⟩)
    · exact .inr (.inr (.inl passed))

section Answers

variable {fs : FileSystem} {line : Text} {st : DirectiveState} {env : Environment}

theorem eq_of_read_none (idle : (read fs line st env).1 = .none) :
    (read fs line st env).2 = (st, env) := by
  rcases read_answers fs line st env with eq | ⟨_, _, eq⟩ | eq | ⟨_, o⟩ | ⟨_, o⟩ | o
  · rw [eq]
  · rw [eq]
  · rw [eq]
  all_goals cases idle.symm.trans o

theorem eq_of_read_pass {t : Text} (passed : (read fs line st env).1 = .pass t) :
    t = trim line := by
  rcases read_answers fs line st env with eq | ⟨_, _, eq⟩ | eq | ⟨_, o⟩ | ⟨_, o⟩ | o
  · cases passed.symm.trans (congrArg Prod.fst eq)
  · cases passed.symm.trans (congrArg Prod.fst eq)
  · cases passed.symm.trans (congrArg Prod.fst eq)
    rfl
  all_goals cases passed.symm.trans o

theorem of_read_inclusion {p : Text} (included : (read fs line st env).1 = .inclusion p) :
    IsInclusion (trim line) ∧ (read fs line st env).2 = (st, env) := by
  rcases read_answers fs line st env with eq | ⟨_, asked, eq⟩ | eq | ⟨_, o⟩ | ⟨_, o⟩ | o
  · cases included.symm.trans (congrArg Prod.fst eq)
  · exact ⟨asked, by rw [eq]⟩
  · cases included.symm.trans (congrArg Prod.fst eq)
  all_goals cases included.symm.trans o

end Answers

theorem read_of_not_isMarker (fs : FileSystem) (line : Text) (st : DirectiveState)
    (env : Environment) (outside : st.embedded = []) (hu : ¬IsMarker (trim line)) :
    read fs line st env =
      match ofLine? (trim line) with
      | Option.none => (.none, st, env)
      | some (word, r) =>
        if st.isSkipping then (.consumed, st.skip word, env)
        else perform fs (trim line) r st env word := by
  unfold read
  dsimp only
  rw [marker?_eq_none hu, outside]
  cases word : ofLine? (trim line) with
  | none => simp
  | some parts =>
    obtain ⟨c, tail, shape, -⟩ := exists_of_ofLine? word
    simp [shape]

end Directive

end PrimePlus
