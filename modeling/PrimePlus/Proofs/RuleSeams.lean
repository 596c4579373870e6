import PrimePlus.Construct.Stash
import PrimePlus.Proofs.MatchSeams

/-!
What pattern rules make of a line. A match has no other characters than the line.
-/

namespace PrimePlus

open List Numeral

open Regex
open Lexical (isMarked IsPlainText Seamed Unmarked unmarked_append seamed_unmarked
  isPlainText_append isPlainText_cons isPlainText_replicate isPlainText_toDigits)
open TemplatePart (expand ofDollar? ofName parseFrom)

variable {found : Match} {t : Text}

section Numerals

theorem isPlainText_placePoint (n places : Nat) : IsPlainText (placePoint n places) := by
  have padded : IsPlainText (replicate (places + 1 - (Text.ofNat n).length) '0' ++ Text.ofNat n) :=
    isPlainText_append (isPlainText_replicate (by decide) _) (isPlainText_toDigits 10 n)
  unfold placePoint
  split
  · exact padded
  · exact isPlainText_append (padded.subset (take_subset _ _))
      (isPlainText_cons (by decide) (padded.subset (drop_subset _ _)))

theorem isPlainText_fixed (x : Float) (places : Nat) : IsPlainText (fixed x places) := by
  unfold fixed
  split
  · decide
  · split <;> decide
  · exact isPlainText_append (by split <;> decide) (isPlainText_placePoint _ _)

theorem isPlainText_trimmed (x : Float) (places : Nat) : IsPlainText (trimmed x places) := by
  have back (c : Char) {t : Text} (hp : IsPlainText t) : IsPlainText (dropBack c t) :=
    fun d mem => hp d (mem_reverse.mp ((dropWhile_sublist _).subset (mem_reverse.mp mem)))
  have fixed := isPlainText_fixed x places
  have short : IsPlainText (if (Numeral.fixed x places).contains '.' then
      dropBack '.' (dropBack '0' (Numeral.fixed x places))
      else Numeral.fixed x places) := by
    split
    · exact back _ (back _ fixed)
    · exact fixed
  unfold trimmed
  dsimp only
  generalize (if (Numeral.fixed x places).contains '.' then
    dropBack '.' (dropBack '0' (Numeral.fixed x places))
    else Numeral.fixed x places) = written at short ⊢
  split
  · decide
  · exact short

theorem isPlainText_intText (n : Int) : IsPlainText (intText n) := by
  have digits := isPlainText_toDigits 10 n.natAbs
  unfold intText
  split
  · exact isPlainText_cons (by decide) digits
  · exact digits

theorem isPlainText_sizedLiteral (n : Int) (signed : Bool) (wd : Nat) (base : Base) :
    IsPlainText (sizedLiteral n signed wd base) := by
  have digits (n : Nat) : IsPlainText (toDigits base n) := by
    intro c mem
    obtain ⟨d, digit, rfl⟩ := mem_map.mp mem
    exact Lexical.isPlain_toUpper (isPlainText_toDigits base.radix n d digit)
  have sign : IsPlainText (if signed then ['-'] else []) := by split <;> decide
  have letter : IsPlainText [base.letter] := by cases base <;> decide
  refine isPlainText_append (isPlainText_append (isPlainText_append
    (isPlainText_cons (by decide) ?_) (isPlainText_cons (by decide) sign))
    (isPlainText_toDigits 10 wd)) letter
  split
  · exact isPlainText_append (isPlainText_replicate (by decide) _) (digits _)
  · split
    · exact isPlainText_intText n
    · exact digits _
  · exact digits _

end Numerals

section Fold

open Expression

theorem guarded_inlinePattern : inlinePattern.Guarded :=
  guarded (by simp +decide [inlinePattern, vocabulary])

theorem assembleCollecting_fst (image : Match → Text × List Fault) (pieces : List Piece) :
    (assembleCollecting image pieces).1 = assemble (fun found => (image found).1) pieces := by
  induction pieces with
  | nil => rfl
  | cons piece tl ih => cases piece <;> simp [assembleCollecting, assemble, ih]

variable {P : Text → Prop} (hs : Seamed P) {t : Text}

include hs

theorem holds_inlineImage (parts : found.Parts P) : P (inlineImage found).1 := by
  unfold inlineImage inlineText
  dsimp only
  split
  · split
    · exact hs.plain _ (isPlainText_sizedLiteral _ _ _ _)
    · exact parts.text
  · split
    · next written =>
      obtain ⟨-, shown⟩ := Option.ite_none_right_eq_some.mp written
      cases shown
      exact hs.plain _ (isPlainText_fixed _ _)
    · exact parts.text
  · exact hs.plain _ (isPlainText_trimmed _ _)

theorem holds_foldInline (whole : P t) : P (foldInline t).1 := by
  unfold foldInline replaceCollecting
  split
  · rw [assembleCollecting_fst]
    exact (guarded_inlinePattern.pieces hs whole).assemble hs fun found parts =>
      holds_inlineImage hs parts
  · exact whole

end Fold

section Drawn

structure Match.Drawn (found : Match) : Prop where
  start : Unmarked found.start.after
  stop : Unmarked found.stop.after
  captures : ∀ capture ∈ found.groups, Unmarked capture.start.after

theorem unmarked_spanTo {a : Cursor} (ha : Unmarked a.after) (last : Cursor) :
    Unmarked (a.spanTo last) :=
  ha.subset (take_subset _ _)

theorem Match.Drawn.group (drawn : found.Drawn) (i : Nat) : Unmarked (found.group i) := by
  unfold Match.group group?
  split
  · exact unmarked_spanTo drawn.start _
  · cases chosen : found.groups.find? fun capture => capture.index == i with
    | none => simp [Unmarked]
    | some capture =>
      exact unmarked_spanTo (drawn.captures capture (mem_of_find?_eq_some chosen)) _

def Piece.Drawn : Piece → Prop
  | .gap c => isMarked c = false
  | .hit found => found.Drawn

theorem unmarked_assemble {image : Match → Text}
    (images : ∀ found : Match, found.Drawn → Unmarked (image found)) {pieces : List Piece}
    (all : ∀ piece ∈ pieces, Piece.Drawn piece) : Unmarked (assemble image pieces) := by
  induction pieces with
  | nil => simp [assemble, Unmarked]
  | cons piece tl ih =>
    obtain ⟨first, others⟩ := forall_mem_cons.mp all
    cases piece with
    | gap c => exact forall_mem_cons.mpr ⟨first, ih others⟩
    | hit found => exact unmarked_append.mpr ⟨images found first, ih others⟩

theorem drawn_map_gap (hu : Unmarked t) : ∀ piece ∈ t.map .gap, Piece.Drawn piece :=
  forall_mem_map.mpr hu

section Expressions

variable {r : Regex} {t : Text}

theorem Cursor.IsIn.unmarked_after {cur : Cursor} (hi : cur.IsIn t)
    (hu : Unmarked t) : Unmarked cur.after :=
  hu.subset (hi.1 ▸ subset_append_right _ _)

theorem Match.IsIn.drawn (isIn : found.IsIn t) (hu : Unmarked t) : found.Drawn :=
  ⟨isIn.start.unmarked_after hu, isIn.stop.unmarked_after hu,
    fun capture mem => (isIn.captures capture mem).1.unmarked_after hu⟩

theorem Regex.drawn_pieces (r : Regex) (hu : Unmarked t) :
    ∀ piece ∈ r.pieces t, Piece.Drawn piece := by
  refine pieces_induction (fun _ pieces => ∀ piece ∈ pieces, Piece.Drawn piece) (by simp) ?_ ?_
  · intro cur c tl pieces hi ha ih
    exact forall_mem_cons.mpr ⟨hi.unmarked_after hu c (by simp [ha]), ih⟩
  · intro found pieces _ isIn ih
    exact forall_mem_cons.mpr ⟨isIn.drawn hu, ih⟩

end Expressions

namespace Automaton

/-- A way through an automaton that started at or behind a place and has led to another. -/
structure Reached (t : Text) (low : Nat) (cursor : Cursor) (thread : Thread) : Prop where
  start : thread.start.IsIn t
  behind : low ≤ thread.start.index
  ordered : thread.start.index ≤ cursor.index
  opened : ∀ place ∈ thread.opened, place.IsIn t ∧ place.index ≤ cursor.index
  captures : ∀ capture ∈ thread.groups, capture.IsIn t

def Found (t : Text) (low : Nat) (found : Match) : Prop :=
  found.IsIn t ∧ low ≤ found.start.index

variable (automaton : Automaton) {cur next : Cursor} {low : Nat} {thread : Thread}

variable {front : Front} {threads : List Thread} {best : Option Match}

theorem Reached.mono (reached : Reached t low cur thread) (le : cur.index ≤ next.index) :
    Reached t low next thread :=
  { reached with
    ordered := Nat.le_trans reached.ordered le
    opened := fun place mem =>
      ⟨(reached.opened place mem).1, Nat.le_trans (reached.opened place mem).2 le⟩ }

theorem reached_follow (here : cur.IsIn t) (fuel : Nat) {pending : List Thread}
    (all : ∀ thread ∈ pending, Reached t low cur thread)
    (pre : ∀ thread ∈ front.threads, Reached t low cur thread) :
    ∀ thread ∈ (automaton.follow cur fuel pending front).threads, Reached t low cur thread := by
  induction fuel generalizing pending front with
  | zero => exact pre
  | succ fuel ih =>
    cases pending with
    | nil => exact pre
    | cons thread pending =>
      obtain ⟨a, others⟩ := forall_mem_cons.mp all
      have added {next : Thread} (new : Reached t low cur next) :
          ∀ other ∈ next :: pending, Reached t low cur other :=
        forall_mem_cons.mpr ⟨new, others⟩
      have reached : ∀ other ∈ thread :: front.threads, Reached t low cur other :=
        forall_mem_cons.mpr ⟨a, pre⟩
      unfold follow
      split
      · exact ih others pre
      · -- only the last two kinds of states, which open and close a group, write down a place
        split
        · exact ih others reached
        · exact ih others reached
        · split
          · exact ih (added { a with }) pre
          · exact ih others pre
        · exact ih (forall_mem_append.mpr ⟨forall_mem_map.mpr fun way _ => { a with }, others⟩) pre
        · exact ih
            (added { a with opened := forall_mem_cons.mpr ⟨⟨here, Nat.le_refl _⟩, a.opened⟩ }) pre
        · refine ih (added { a with
            opened := fun place mem => a.opened place (mem_of_mem_tail mem)
            captures := forall_mem_cons.mpr ⟨?_, a.captures⟩ }) pre
          cases opened : thread.opened with
          | nil => exact ⟨here, here, Nat.le_refl _⟩
          | cons entered outer =>
            obtain ⟨isIn, le⟩ := a.opened entered (by simp [opened])
            exact ⟨isIn, here, le⟩

theorem reached_untilAccepted (all : ∀ thread ∈ threads, Reached t low cur thread) :
    (∀ thread ∈ (automaton.untilAccepted threads).1, Reached t low cur thread) ∧
      ∀ thread ∈ (automaton.untilAccepted threads).2, Reached t low cur thread := by
  induction threads with
  | nil => exact ⟨by simp [untilAccepted], by simp [untilAccepted]⟩
  | cons thread tl ih =>
    obtain ⟨first, others⟩ := forall_mem_cons.mp all
    obtain ⟨kept, acc⟩ := ih others
    unfold untilAccepted
    split
    · exact ⟨by simp, by rintro _ ⟨⟩; exact first⟩
    · exact ⟨forall_mem_cons.mpr ⟨first, kept⟩, acc⟩

theorem reached_advance (here : cur.IsIn t) (c : Char)
    (all : ∀ thread ∈ threads, Reached t low cur thread) (seen : Array Nat) :
    ∀ thread ∈ (automaton.advance cur c threads seen).threads, Reached t low cur thread := by
  refine foldlRecOn
    (motive := fun front : Front => ∀ thread ∈ front.threads, Reached t low cur thread)
    threads _ (by simp) fun front pre thread mem => ?_
  split
  · split
    · exact reached_follow automaton here _ (forall_mem_singleton.mpr { all thread mem with }) pre
    · exact pre
  · exact pre

theorem found_step (here : cur.IsIn t) (behind : low ≤ cur.index)
    (all : ∀ thread ∈ front.threads, Reached t low cur thread)
    (sofar : ∀ found ∈ best, Found t low found) :
    (∀ thread ∈ (searchFrom.step automaton front best cur).1, Reached t low cur thread) ∧
      ∀ found ∈ (searchFrom.step automaton front best cur).2.1, Found t low found := by
  have followed : ∀ thread ∈ (if best.isSome then front else
      automaton.follow cur automaton.reach [⟨automaton.start, cur, [], []⟩] front).threads,
      Reached t low cur thread := by
    split
    · exact all
    · exact reached_follow automaton here _
        (forall_mem_singleton.mpr ⟨here, behind, Nat.le_refl _, by simp, by simp⟩) all
  obtain ⟨kept, acc⟩ := reached_untilAccepted automaton
    fun thread mem => followed thread (mem_reverse.mp mem)
  refine ⟨kept, fun found given => ?_⟩
  rcases Option.or_eq_some_iff.mp given with new | ⟨-, old⟩
  · obtain ⟨thread, chosen, rfl⟩ := Option.map_eq_some_iff.mp new
    have a := acc thread chosen
    exact ⟨⟨a.start, here, a.ordered, a.captures⟩, a.behind⟩
  · exact sofar found old

theorem found_searchFrom {i : Nat} {pre after : Text} (here : Cursor.IsIn t ⟨i, pre, after⟩)
    (le : low ≤ i) (all : ∀ thread ∈ front.threads, Reached t low ⟨i, pre, after⟩ thread)
    (sofar : ∀ found ∈ best, Found t low found) :
    ∀ found ∈ automaton.searchFrom front best i pre after, Found t low found := by
  induction after generalizing front best i pre with
  | nil => exact (found_step automaton here le all sofar).2
  | cons c rest ih =>
    obtain ⟨threads, found⟩ := found_step automaton here le all sofar
    have behind := here.step rfl
    unfold searchFrom
    dsimp only
    split
    · exact found
    · exact ih behind (Nat.le_succ_of_le le) (reached_advance automaton behind c
        (fun thread mem => (threads thread mem).mono (Nat.le_succ i)) _) found

theorem found_findFrom {i : Nat} {pre after : Text} (here : Cursor.IsIn t ⟨i, pre, after⟩)
    (first : automaton.findFrom i pre after = some found) : Found t i found :=
  found_searchFrom automaton here (Nat.le_refl i) (by simp) (by simp) found first

theorem drawn_piecesFrom (fuel : Nat) (fresh : Bool) (here : cur.IsIn t) (hu : Unmarked t) :
    ∀ piece ∈ automaton.piecesFrom fuel fresh cur, Piece.Drawn piece := by
  induction fuel generalizing fresh cur with
  | zero => exact drawn_map_gap (here.unmarked_after hu)
  | succ fuel ih =>
    unfold piecesFrom
    split
    · exact drawn_map_gap (here.unmarked_after hu)
    · next found first =>
      have isIn := (found_findFrom automaton here first).1
      have drawn := isIn.drawn hu
      have lead := drawn_map_gap (unmarked_spanTo (here.unmarked_after hu) found.start)
      split
      · exact forall_mem_append.mpr ⟨lead, forall_mem_cons.mpr ⟨drawn, ih false isIn.stop⟩⟩
      · -- behind an empty match a character is passed
        refine forall_mem_append.mpr ⟨forall_mem_append.mpr ⟨lead, ?_⟩, ?_⟩
        · split
          · exact forall_mem_singleton.mpr drawn
          · exact forall_mem_nil _
        · split
          · exact forall_mem_nil _
          · next c tl ha =>
            exact forall_mem_cons.mpr ⟨drawn.stop c (by simp [ha]), ih true (isIn.stop.step ha)⟩

end Automaton

theorem Finder.isIn_of_findFrom {finder : Finder} {cur : Cursor} (here : cur.IsIn t)
    (first : finder.findFrom cur.index cur.before cur.after = some found) :
    found.IsIn t ∧ cur.index ≤ found.start.index := by
  cases finder with
  | regex r =>
    obtain ⟨place, placeIn, behind, hit⟩ := matchAt_of_findFrom here first
    obtain ⟨isIn, start⟩ := isIn_of_matchAt placeIn hit
    exact ⟨isIn, start ▸ behind⟩
  | automaton a => exact a.found_findFrom here first

theorem Finder.drawn_pieces (finder : Finder) (hu : Unmarked t) :
    ∀ piece ∈ finder.pieces t, Piece.Drawn piece := by
  cases finder with
  | regex r => exact r.drawn_pieces hu
  | automaton a => exact a.drawn_piecesFrom _ true (Cursor.isIn_start t) hu

end Drawn

section Rules

theorem settle_text {P : Text → Prop} {pass : Text → Reported Text}
    (keeps : ∀ t, P t → P (pass t).1) (limit : Nat) {t : Text} (whole : P t) :
    P (settle pass limit t).text := by
  induction limit generalizing t with
  | zero => exact whole
  | succ limit ih =>
    unfold settle
    dsimp only
    split
    · exact whole
    · exact ih (keeps t whole)

variable {c : Char} {template l : Text} {set : RuleSet}

theorem eq_of_ofDollar? {used : Nat} (read : ofDollar? t = some (.char c, used)) : c = '$' := by
  have reference (n : Text) : ofName n ≠ .char c := by
    unfold ofName
    dsimp only
    split
    · split <;> simp
    · simp
  unfold ofDollar? at read
  split at read
  · cases read
    rfl
  · split at read
    · exact absurd (congrArg Prod.fst (Option.some.inj read)) (reference _)
    · cases read
  · dsimp only at read
    split at read
    · cases read
    · exact absurd (congrArg Prod.fst (Option.some.inj read)) (reference _)

theorem isMarked_of_mem_parseFrom (hu : Unmarked template) {skip : Nat}
    (mem : .char c ∈ parseFrom skip template) : isMarked c = false := by
  induction template generalizing skip with
  | nil => cases skip <;> cases mem
  | cons d rest ih =>
    have behind : Unmarked rest := hu.subset (subset_cons_self d rest)
    have itself {skip : Nat} (mem : .char c ∈ .char d :: parseFrom skip rest) :
        isMarked c = false := by
      rcases mem_cons.mp mem with same | later
      · cases same
        exact hu c mem_cons_self
      · exact ih behind later
    cases skip with
    | succ skip => exact ih behind mem
    | zero =>
      unfold parseFrom at mem
      split at mem
      · split at mem
        · next part used read =>
          rcases mem_cons.mp mem with rfl | later
          · rw [eq_of_ofDollar? read]
            decide
          · exact ih behind later
        · exact itself mem
      · exact itself mem

theorem Matcher.unmarked_replaceAll (matcher : Matcher) (hu : Unmarked t)
    (written : Unmarked template) : Unmarked (matcher.replaceAll t template) := by
  have expanded (found : Match) (drawn : found.Drawn) :
      Unmarked ((TemplatePart.parse template).flatMap (expand matcher.names found)) := by
    intro c mem
    obtain ⟨part, hi, among⟩ := mem_flatMap.mp mem
    cases part with
    | char d =>
      rw [mem_singleton.mp among]
      exact isMarked_of_mem_parseFrom written hi
    | group i => exact drawn.group i c among
    | named n =>
      rw [expand] at among
      split at among
      · exact drawn.group _ c among
      · cases among
  unfold replaceAll Finder.replaceAll
  split
  · exact unmarked_assemble expanded (matcher.finder.drawn_pieces hu)
  · exact hu

theorem Rule.unmarked_of_fire? {rule : Rule} {d : Nat} {next : Text}
    (fired : rule.fire? d l = some next) (written : Unmarked rule.replacement)
    (hu : Unmarked l) : Unmarked next := by
  unfold fire? at fired
  split at fired
  · cases fired
    exact rule.matcher.unmarked_replaceAll hu (seamed_unmarked.replace (by decide) (by decide)
      (isPlainText_toDigits 10 d).unmarked written)
  · cases fired

theorem RuleSet.unmarked_resolve
    (written : ∀ rule ∈ set.rules, Unmarked rule.replacement) (d : Nat) (loc : Location)
    (hu : Unmarked l) : Unmarked (set.resolve d loc l).1 := by
  have pass (t : Text) (hu : Unmarked t) : Unmarked (set.resolveOnce d loc t).1 := by
    refine foldlRecOn (motive := fun done : Reported Text => Unmarked done.1) set.rules _
      hu fun done pre rule mem => ?_
    split
    · exact pre
    · next changed fired =>
      exact holds_foldInline seamed_unmarked (Rule.unmarked_of_fire? fired (written rule mem) pre)
  unfold resolve
  split
  · exact hu
  · exact settle_text pass _ hu

theorem RuleSet.unmarked_readLine? {site : Site}
    {next : Reported RuleSet} (read : set.readLine? site l = some next)
    (written : ∀ rule ∈ set.rules, Unmarked rule.replacement) (hu : Unmarked l) :
    ∀ rule ∈ next.1.rules, Unmarked rule.replacement := by
  obtain ⟨decl, declared, rfl⟩ := Option.map_eq_some_iff.mp read
  obtain ⟨found, first, rfl⟩ := Option.map_eq_some_iff.mp declared
  obtain ⟨cur, hi, -, hm⟩ := matchAt_of_findFrom (Cursor.isIn_start l) first
  have drawn := (isIn_of_matchAt hi hm).1.drawn hu
  unfold declare
  split
  · next taken =>
    split at taken
    · cases taken
    · split at taken
      · cases taken
      · cases taken
        exact forall_mem_append.mpr ⟨written, forall_mem_singleton.mpr (drawn.group 6)⟩
  · exact written

theorem Construct.unmarked_unstash {stash : Stash} (kept : ∀ t ∈ stash, Unmarked t)
    (env : Environment) {pieces : List Piece} (all : ∀ piece ∈ pieces, Piece.Drawn piece) :
    Unmarked (unstash stash env pieces).1 ∧ ∀ t ∈ (unstash stash env pieces).2.1, Unmarked t := by
  induction pieces generalizing stash env with
  | nil => exact ⟨by simp [unstash, Unmarked], kept⟩
  | cons piece tl ih =>
    obtain ⟨first, others⟩ := forall_mem_cons.mp all
    cases piece with
    | gap c =>
      obtain ⟨l, left⟩ := ih kept env others
      exact ⟨forall_mem_cons.mpr ⟨first, l⟩, left⟩
    | hit found =>
      have drawn : found.Drawn := first
      unfold unstash
      split
      · next pushed given =>
        have captured := drawn.group 1
        rw [Match.group, given] at captured
        exact ih (forall_mem_cons.mpr ⟨captured, kept⟩) env others
      · next top below _ =>
        obtain ⟨written, left⟩ := forall_mem_cons.mp kept
        have below' : ∀ t ∈ (if found.text = "__POP__".toList then below else top :: below),
            Unmarked t := by
          split
          · exact left
          · exact kept
        obtain ⟨l, left⟩ := ih below' env others
        exact ⟨unmarked_append.mpr ⟨written, l⟩, left⟩
      · exact ih kept _ others

end Rules

end PrimePlus
