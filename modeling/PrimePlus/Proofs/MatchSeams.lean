import PrimePlus.Finder
import PrimePlus.Proofs.Seams

/-!
Matches that start, stop and capture at seams, as the shape of an expression tells.
-/

namespace PrimePlus

open List

open Lexical
open Unicode (isBlank isWordChar)

variable {holds : Text → Prop} {t : Text} {found : Match} {cursor : Cursor} {index : Nat}

namespace Cursor

def IsIn (t : Text) (cursor : Cursor) : Prop :=
  cursor.before.reverse ++ cursor.after = t ∧ cursor.index = cursor.before.length

def LeftPlain (cursor : Cursor) : Prop :=
  cursor.before.head?.all isPlain = true

def RightPlain (cursor : Cursor) : Prop :=
  cursor.after.head?.all isPlain = true

/-- Whether a place is beside a plain character or at an end of the text. -/
def AtSeam (cursor : Cursor) : Prop :=
  cursor.LeftPlain ∨ cursor.RightPlain

theorem isIn_start (t : Text) : (start t).IsIn t :=
  ⟨rfl, rfl⟩

theorem IsIn.step {tl : Text} {c : Char} (hi : cursor.IsIn t)
    (ha : cursor.after = c :: tl) : (cursor.step c tl).IsIn t := by
  obtain ⟨whole, index⟩ := hi
  refine ⟨?_, by simp [Cursor.step, index]⟩
  rw [← whole, ha]
  simp [Cursor.step]

theorem IsIn.eq_of_index_eq {left right : Cursor} (first : left.IsIn t) (second : right.IsIn t)
    (eq : left.index = right.index) : left = right := by
  obtain ⟨leftWhole, leftIndex⟩ := first
  obtain ⟨rightWhole, rightIndex⟩ := second
  have lengths : left.before.reverse.length = right.before.reverse.length := by
    rw [length_reverse, length_reverse, ← leftIndex, ← rightIndex, eq]
  obtain ⟨pre, after⟩ := append_inj (leftWhole.trans rightWhole.symm) lengths
  cases left
  cases right
  simp_all

theorem IsIn.after_eq {a last : Cursor} (start : a.IsIn t) (stop : last.IsIn t)
    (ordered : a.index ≤ last.index) :
    a.after = a.spanTo last ++ last.after ∧
      last.before.reverse = a.before.reverse ++ a.spanTo last := by
  obtain ⟨firstWhole, firstIndex⟩ := start
  obtain ⟨lastWhole, lastIndex⟩ := stop
  have whole := firstWhole.trans lastWhole.symm
  have le : a.before.reverse.length ≤ last.before.reverse.length := by
    simpa [← firstIndex, ← lastIndex] using ordered
  obtain ⟨span, pre, after⟩ : ∃ span, last.before.reverse = a.before.reverse ++ span ∧
      a.after = span ++ last.after := by
    rcases append_eq_append_iff.mp whole with ⟨span, pre, after⟩ | ⟨span, pre, after⟩
    · exact ⟨span, pre, after⟩
    · have missed : span = [] := by
        have lengths := congrArg length pre
        rw [length_append] at lengths
        exact length_eq_zero_iff.mp (by omega)
      subst missed
      exact ⟨[], by simpa using pre.symm, by simpa using after.symm⟩
  have length : last.index - a.index = span.length := by
    have lengths := congrArg length pre
    rw [length_append, length_reverse, length_reverse] at lengths
    omega
  have eq : a.spanTo last = span := by
    rw [spanTo, length, after, take_left]
  rw [eq]
  exact ⟨after, pre⟩

theorem AtSeam.cut (hs : Seamed holds) (seam : cursor.AtSeam) (hi : cursor.IsIn t)
    (whole : holds t) : holds cursor.before.reverse ∧ holds cursor.after := by
  rw [← hi.1] at whole
  refine hs.cut _ _ whole (seam.imp (fun left => ?_) id)
  rwa [getLast?_reverse]

theorem AtSeam.spanTo (hs : Seamed holds) {a last : Cursor} (start : a.AtSeam)
    (stop : last.AtSeam) (startIn : a.IsIn t) (stopIn : last.IsIn t)
    (ordered : a.index ≤ last.index) (whole : holds t) : holds (a.spanTo last) := by
  obtain ⟨ha, read⟩ := startIn.after_eq stopIn ordered
  have tl := (start.cut hs startIn whole).2
  rw [ha] at tl
  cases span : a.spanTo last with
  | nil => exact hs.nil
  | cons c more =>
    rw [span] at tl read
    refine (hs.cut _ _ tl (stop.imp (fun left => ?_) id)).1
    have last' : (c :: more).getLast? = last.before.head? := by
      rw [← getLast?_reverse, read, getLast?_append]
      rfl
    rwa [last']

end Cursor

namespace Capture

def IsIn (t : Text) (capture : Capture) : Prop :=
  capture.start.IsIn t ∧ capture.stop.IsIn t ∧ capture.start.index ≤ capture.stop.index

def AtSeams (capture : Capture) : Prop :=
  capture.start.AtSeam ∧ capture.stop.AtSeam

end Capture

namespace Regex

variable {follow : Prop}

/-- An expression matches from one place to another, with the captures before it and after it. -/
inductive Matches : Regex → Cursor → Groups → Cursor → Groups → Prop
  | empty {cursor : Cursor} {groups : Groups} : Matches .empty cursor groups cursor groups
  | one {accepts : Char → Bool} {cursor : Cursor} {groups : Groups} {c : Char} {rest : Text}
      (ahead : cursor.after = c :: rest) (accepted : accepts c = true) :
      Matches (.one accepts) cursor groups (cursor.step c rest) groups
  | assert {condition : Cursor → Bool} {cursor : Cursor} {groups : Groups}
      (met : condition cursor = true) : Matches (.assert condition) cursor groups cursor groups
  | seq {first second : Regex} {start middle stop : Cursor} {groups between final : Groups}
      (left : Matches first start groups middle between)
      (right : Matches second middle between stop final) :
      Matches (.seq first second) start groups stop final
  | altLeft {first second : Regex} {start stop : Cursor} {groups final : Groups}
      (left : Matches first start groups stop final) :
      Matches (.alt first second) start groups stop final
  | altRight {first second : Regex} {start stop : Cursor} {groups final : Groups}
      (right : Matches second start groups stop final) :
      Matches (.alt first second) start groups stop final
  | once {greedy : Bool} {body : Regex} {start stop : Cursor} {groups final : Groups}
      (round : Matches body start groups stop final) :
      Matches (.many greedy body) start groups stop final
  | more {greedy : Bool} {body : Regex} {start middle stop : Cursor} {groups between final : Groups}
      (round : Matches body start groups middle between)
      (rest : Matches (.many greedy body) middle between stop final) :
      Matches (.many greedy body) start groups stop final
  | capture {index : Nat} {body : Regex} {start stop : Cursor} {groups final : Groups}
      (inner : Matches body start groups stop final) :
      Matches (.capture index body) start groups stop (⟨index, start, stop⟩ :: final)

section Run

variable {α : Type}

theorem exists_of_rounds {greedy : Bool} {b : Regex} {next : Continuation α}
    (sound : ∀ (cursor : Cursor) (gs : Groups) (next : Continuation α) (result : α),
      b.run cursor gs next = some result →
        ∃ stop final, Matches b cursor gs stop final ∧ next stop final = some result)
    (bound : Text) (cursor : Cursor) (gs : Groups) (result : α)
    (found : rounds b.run greedy next bound cursor gs = some result) :
    next cursor gs = some result ∨
      ∃ stop final, Matches (.many greedy b) cursor gs stop final ∧
        next stop final = some result := by
  induction bound generalizing cursor gs with
  | nil => exact .inl found
  | cons c bound ih =>
    -- one round more, whether it is tried first or last
    have again (found : (b.run cursor gs fun reached gs =>
          if cursor.index < reached.index then rounds b.run greedy next bound reached gs
          else none) = some result) :
        ∃ stop final, Matches (.many greedy b) cursor gs stop final ∧
          next stop final = some result := by
      obtain ⟨reached, hb, round, tl⟩ := sound _ _ _ _ found
      split at tl
      · rcases ih reached hb tl with stops | ⟨stop, final, further, ends⟩
        · exact ⟨reached, hb, .once round, stops⟩
        · exact ⟨stop, final, .more round further, ends⟩
      · cases tl
    unfold rounds at found
    dsimp only at found
    split at found
    · split at found
      · next first =>
        cases found
        exact .inr (again first)
      · exact .inl found
    · split at found
      · next first =>
        cases found
        exact .inl first
      · exact .inr (again found)

/-- A search finds only what an expression matches. -/
theorem exists_of_run (r : Regex) (cursor : Cursor) (gs : Groups) (next : Continuation α)
    (result : α) (found : r.run cursor gs next = some result) :
    ∃ stop final, Matches r cursor gs stop final ∧ next stop final = some result := by
  induction r generalizing cursor gs next result with
  | empty => exact ⟨cursor, gs, .empty, found⟩
  | one accepts =>
    unfold run at found
    split at found
    · cases found
    · next c tl ha =>
      split at found
      · next acc => exact ⟨_, gs, .one ha acc, found⟩
      · cases found
  | assert cond =>
    unfold run at found
    split at found
    · next met => exact ⟨cursor, gs, .assert met, found⟩
    · cases found
  | seq first second ihFirst ihSecond =>
    obtain ⟨middle, hb, left, tl⟩ := ihFirst _ _ _ _ found
    obtain ⟨stop, final, right, ends⟩ := ihSecond _ _ _ _ tl
    exact ⟨stop, final, .seq left right, ends⟩
  | alt first second ihFirst ihSecond =>
    unfold run at found
    split at found
    · next left =>
      cases found
      obtain ⟨stop, final, hm, ends⟩ := ihFirst _ _ _ _ left
      exact ⟨stop, final, .altLeft hm, ends⟩
    · obtain ⟨stop, final, hm, ends⟩ := ihSecond _ _ _ _ found
      exact ⟨stop, final, .altRight hm, ends⟩
  | many greedy b ih =>
    obtain ⟨reached, hb, round, tl⟩ := ih _ _ _ _ found
    split at tl
    · rcases exists_of_rounds ih _ _ _ _ tl with stops | ⟨stop, final, further, ends⟩
      · exact ⟨reached, hb, .once round, stops⟩
      · exact ⟨stop, final, .more round further, ends⟩
    · exact ⟨reached, hb, .once round, tl⟩
  | capture index b ih =>
    obtain ⟨stop, final, inner, ends⟩ := ih _ _ _ _ found
    exact ⟨stop, _, .capture inner, ends⟩

end Run

section Analysis

def PlainClass (accepts : Char → Bool) : Prop :=
  ∀ c, accepts c = true → isPlain c = true

/-- Whether a match starts in front of a plain character, where this is known of what follows it. -/
@[simp] def OpensPlain : Regex → Prop → Prop
  | .empty, follow => follow
  | .one accepts, _ => PlainClass accepts
  | .assert _, follow => follow
  | .seq first second, follow => first.OpensPlain (second.OpensPlain follow)
  | .alt first second, follow => first.OpensPlain follow ∧ second.OpensPlain follow
  -- a round may come before another one, so nothing is known of what follows it
  | .many _ body, _ => body.OpensPlain False
  | .capture _ body, follow => body.OpensPlain follow

/-- Whether a match stops behind a plain character, where this is known of what comes before it. -/
@[simp] def ClosesPlain : Regex → Prop → Prop
  | .empty, lead => lead
  | .one accepts, _ => PlainClass accepts
  | .assert _, lead => lead
  | .seq first second, lead => second.ClosesPlain (first.ClosesPlain lead)
  | .alt first second, lead => first.ClosesPlain lead ∧ second.ClosesPlain lead
  | .many _ body, _ => body.ClosesPlain False
  | .capture _ body, lead => body.ClosesPlain lead

/-- Whether all captures start and stop at seams, given what is known of the places around the whole
match. -/
@[simp] def SeamsCaptures : Regex → Prop → Prop → Prop
  | .empty, _, _ | .one _, _, _ | .assert _, _, _ => True
  | .seq first second, lead, follow =>
    first.SeamsCaptures lead (second.OpensPlain follow) ∧
      second.SeamsCaptures (first.ClosesPlain lead) follow
  | .alt first second, lead, follow =>
    first.SeamsCaptures lead follow ∧ second.SeamsCaptures lead follow
  | .many _ body, _, _ => body.SeamsCaptures False False
  | .capture _ body, lead, follow =>
    (lead ∨ body.OpensPlain follow) ∧ (body.ClosesPlain lead ∨ follow) ∧
      body.SeamsCaptures lead follow

variable {r : Regex} {start stop : Cursor} {gs final : Groups}

section

variable (hm : Matches r start gs stop final)

include hm

theorem Matches.rightPlain (known : follow → stop.RightPlain) (opens : r.OpensPlain follow) :
    start.RightPlain := by
  induction hm generalizing follow with
  | empty => exact known opens
  | one ha acc =>
    rw [Cursor.RightPlain, ha]
    exact opens _ acc
  | assert met => exact known opens
  | seq _ _ ihLeft ihRight => exact ihLeft (ihRight known) opens
  | altLeft _ ih => exact ih known opens.1
  | altRight _ ih => exact ih known opens.2
  | once _ ih => exact ih nofun opens
  | more _ _ ih _ => exact ih nofun opens
  | capture _ ih => exact ih known opens

theorem Matches.leftPlain {lead : Prop} (known : lead → start.LeftPlain)
    (closes : r.ClosesPlain lead) : stop.LeftPlain := by
  induction hm generalizing lead with
  | empty => exact known closes
  | one ha acc => exact closes _ acc
  | assert met => exact known closes
  | seq _ _ ihLeft ihRight => exact ihRight (ihLeft known) closes
  | altLeft _ ih => exact ih known closes.1
  | altRight _ ih => exact ih known closes.2
  | once _ ih => exact ih nofun closes
  | more _ _ _ ih => exact @ih False nofun closes
  | capture _ ih => exact ih known closes

theorem Matches.captures {lead : Prop} (pre : lead → start.LeftPlain)
    (after : follow → stop.RightPlain) (seams : r.SeamsCaptures lead follow)
    (earlier : ∀ capture ∈ gs, capture.AtSeams) : ∀ capture ∈ final, capture.AtSeams := by
  induction hm generalizing lead follow with
  | empty | one | assert => exact earlier
  | seq left right ihLeft ihRight =>
    exact ihRight (left.leftPlain pre) after seams.2
      (ihLeft pre (right.rightPlain after) seams.1 earlier)
  | altLeft _ ih => exact ih pre after seams.1 earlier
  | altRight _ ih => exact ih pre after seams.2 earlier
  | once _ ih => exact ih nofun nofun seams earlier
  | more _ _ ihRound ihRest =>
    exact @ihRest False False nofun nofun seams (ihRound nofun nofun seams earlier)
  | capture inner ih =>
    intro capture mem
    rcases mem_cons.mp mem with rfl | further
    · exact ⟨seams.1.imp pre (inner.rightPlain after), seams.2.1.imp (inner.leftPlain pre) after⟩
    · exact ih pre after seams.2.2 earlier capture further

theorem Matches.isIn (hi : start.IsIn t) : stop.IsIn t ∧ start.index ≤ stop.index := by
  induction hm with
  | empty | assert => exact ⟨hi, Nat.le_refl _⟩
  | one ha _ => exact ⟨hi.step ha, Nat.le_succ _⟩
  | seq _ _ ihLeft ihRight =>
    obtain ⟨middle, first⟩ := ihLeft hi
    obtain ⟨last, second⟩ := ihRight middle
    exact ⟨last, Nat.le_trans first second⟩
  | more _ _ ihLeft ihRight =>
    obtain ⟨middle, first⟩ := ihLeft hi
    obtain ⟨last, second⟩ := ihRight middle
    exact ⟨last, Nat.le_trans first second⟩
  | altLeft _ ih | altRight _ ih | once _ ih | capture _ ih => exact ih hi

theorem Matches.captures_isIn (hi : start.IsIn t)
    (earlier : ∀ capture ∈ gs, capture.IsIn t) : ∀ capture ∈ final, capture.IsIn t := by
  induction hm with
  | empty | one | assert => exact earlier
  | seq left _ ihLeft ihRight =>
    exact ihRight (left.isIn hi).1 (ihLeft hi earlier)
  | more round _ ihRound ihRest =>
    exact ihRest (round.isIn hi).1 (ihRound hi earlier)
  | altLeft _ ih | altRight _ ih | once _ ih => exact ih hi earlier
  | capture inner ih =>
    intro capture mem
    rcases mem_cons.mp mem with rfl | further
    · exact ⟨hi, inner.isIn hi⟩
    · exact ih hi earlier capture further

end

end Analysis

section Guarded

variable {r : Regex}

inductive EndsBack : Regex → Prop
  | here : EndsBack (.seq back .empty)
  | later {first second : Regex} (more : EndsBack second) : EndsBack (.seq first second)

theorem EndsBack.after_eq (ends : r.EndsBack) {start stop : Cursor} {gs final : Groups}
    (hm : Matches r start gs stop final) : stop.after = [] := by
  induction ends generalizing start gs with
  | here =>
    cases hm with
    | seq left right =>
      cases right
      cases left with
      | assert met => exact isEmpty_iff.mp met
  | later _ ih =>
    cases hm with
    | seq _ right => exact ih right

/-- Whether all matches of an expression start, stop and capture at seams. -/
def Guarded (r : Regex) : Prop :=
  ∀ start groups stop final, Matches r start groups stop final →
    start.AtSeam ∧ stop.AtSeam ∧
      ((∀ capture ∈ groups, capture.AtSeams) → ∀ capture ∈ final, capture.AtSeams)

theorem guarded_of_seamsCaptures
    (known : ∀ start gs stop final, Matches r start gs stop final → follow → stop.RightPlain)
    (seams : (capture 0 r).SeamsCaptures False follow) : r.Guarded := by
  intro start gs stop final hm
  have after := known start gs stop final hm
  obtain ⟨opens, closes, captures⟩ := seams
  exact ⟨.inr (opens.elim nofun (hm.rightPlain after)), closes.imp (hm.leftPlain nofun) after,
    hm.captures nofun after captures⟩

theorem guarded (seams : (capture 0 r).SeamsCaptures False False) : r.Guarded :=
  guarded_of_seamsCaptures nofun seams

theorem EndsBack.guarded (ends : r.EndsBack)
    (seams : (capture 0 r).SeamsCaptures False True) : r.Guarded := by
  refine guarded_of_seamsCaptures (fun start gs stop final hm _ => ?_) seams
  rw [Cursor.RightPlain, ends.after_eq hm]
  rfl

end Guarded

section Vocabulary

@[simp] theorem plainClass_isBlank : PlainClass isBlank :=
  fun _ => isPlain_of_isBlank

@[simp] theorem plainClass_isWordChar : PlainClass isWordChar :=
  fun _ => isPlain_of_isWordChar

@[simp] theorem plainClass_isDecimal : PlainClass Unicode.isDecimal :=
  fun _ => isPlain_of_isDecimal

@[simp] theorem plainClass_isAlpha : PlainClass Char.isAlpha :=
  fun _ => isPlain_of_isAlpha

@[simp] theorem plainClass_beq (c : Char) : PlainClass (· == c) ↔ isPlain c := by
  simp [PlainClass]

@[simp] theorem plainClass_contains (t : Text) : PlainClass t.contains ↔ IsPlainText t := by
  simp [PlainClass, IsPlainText]

@[simp] theorem plainClass_or (left right : Char → Bool) :
    PlainClass (fun c => left c || right c) ↔ PlainClass left ∧ PlainClass right := by
  simp only [PlainClass, Bool.or_eq_true]
  exact ⟨fun both => ⟨fun c first => both c (.inl first), fun c second => both c (.inr second)⟩,
    fun each c either => either.elim (each.1 c) (each.2 c)⟩

@[simp] theorem plainClass_between {low high : Char} (small : high.toNat < 0xE000)
    (above : '"'.toNat < low.toNat) :
    PlainClass fun c => decide (low ≤ c) && decide (c ≤ high) := by
  intro c inside
  have bounds : low ≤ c ∧ c ≤ high := by simpa using inside
  have within : low.toNat ≤ c.toNat ∧ c.toNat ≤ high.toNat := bounds
  have other : c ≠ '"' := by
    rintro rfl
    omega
  have unmarked : isMarked c = false := by
    simp only [isMarked, Bool.and_eq_false_iff, decide_eq_false_iff_not]
    omega
  simp [isPlain, unmarked, other]

theorem vocabulary :
    (∀ parts, all parts = parts.foldr .seq .empty) ∧ (∀ c, char c = .one (· == c)) ∧
    (∀ t, text t = t.foldr (fun c tl => .seq (char c) tl) .empty) ∧
    (∀ s, lit s = text s.toList) ∧
    (∀ s, litAnyCase s = s.toList.foldr
      (fun c tl => .seq (.one (Unicode.caseVariants c).contains) tl) .empty) ∧
    (∀ words, anyLit words = any (words.map lit)) ∧
    (∀ words, anyLitAnyCase words = any (words.map litAnyCase)) ∧
    (∀ r, opt r = .alt r .empty) ∧ (∀ r, plus r = .many true r) ∧
    (∀ r, plusLazy r = .many false r) ∧ (∀ r, star r = .alt (plus r) .empty) ∧
    (∀ r, starLazy r = .alt .empty (plusLazy r)) ∧
    blanks = star (.one isBlank) ∧ blanks1 = plus (.one isBlank) ∧
    wordChar = .one isWordChar ∧ digit = .one Unicode.isDecimal ∧
    (∀ s, oneOf s = .one s.toList.contains) ∧
    (∀ s, noneOf s = .one fun c => !s.toList.contains c) ∧ notNewline = .one (· != '\n') ∧
    edge = .assert (fun cursor => cursor.atEdge isWordChar) ∧
    front = .assert (fun cursor => cursor.index == 0) ∧
    back = .assert (fun cursor => cursor.after.isEmpty) ∧
    letterOrUnderscore = .one (fun c => c.isAlpha || c == '_') ∧
    letterName = .seq (.one Char.isAlpha) (star wordChar) ∧
    name = .seq letterOrUnderscore (star wordChar) ∧
    dottedName = .seq letterOrUnderscore (star (.one fun c => isWordChar c || c == '.')) := by
  refine ⟨?_, ?_, ?_, ?_, ?_, ?_, ?_, ?_, ?_, ?_, ?_, ?_, ?_, ?_, ?_, ?_, ?_, ?_,
    ?_, ?_, ?_, ?_, ?_, ?_, ?_, ?_⟩ <;> intros <;> rfl

end Vocabulary

end Regex

namespace Match

structure IsIn (t : Text) (found : Match) : Prop where
  start : found.start.IsIn t
  stop : found.stop.IsIn t
  ordered : found.start.index ≤ found.stop.index
  captures : ∀ capture ∈ found.groups, capture.IsIn t

structure Parts (holds : Text → Prop) (found : Match) : Prop where
  text : holds found.text
  lead : holds found.lead
  tail : holds found.tail
  captures : ∀ capture ∈ found.groups, holds (capture.start.spanTo capture.stop)

theorem Parts.group? (parts : found.Parts holds) (captured : found.group? index = some t) :
    holds t := by
  unfold Match.group? at captured
  split at captured
  · cases captured
    exact parts.text
  · obtain ⟨capture, chosen, rfl⟩ := Option.map_eq_some_iff.mp captured
    exact parts.captures capture (mem_of_find?_eq_some chosen)

theorem Parts.group (hs : Seamed holds) (parts : found.Parts holds) (index : Nat) :
    holds (found.group index) := by
  unfold Match.group
  cases captured : found.group? index with
  | none => exact hs.nil
  | some t => exact parts.group? captured

end Match

namespace Regex

variable {r : Regex} (guarded : r.Guarded) (hs : Seamed holds)

section Search

theorem isIn_of_matchAt (hi : cursor.IsIn t) (hm : r.matchAt cursor = some found) :
    found.IsIn t ∧ found.start = cursor := by
  obtain ⟨stop, final, matches', ends⟩ := exists_of_run r cursor [] _ _ hm
  cases ends
  obtain ⟨reached, ordered⟩ := matches'.isIn hi
  exact ⟨⟨hi, reached, ordered, matches'.captures_isIn hi (by simp)⟩, rfl⟩

include guarded hs in
theorem Guarded.parts (hi : cursor.IsIn t) (hm : r.matchAt cursor = some found) (whole : holds t) :
    found.Parts holds ∧ found.start.AtSeam ∧ found.stop.AtSeam := by
  obtain ⟨isIn, -⟩ := isIn_of_matchAt hi hm
  obtain ⟨stop, final, matches', ends⟩ := exists_of_run r cursor [] _ _ hm
  cases ends
  obtain ⟨startSeam, stopSeam, captures⟩ := guarded _ _ _ _ matches'
  refine ⟨⟨startSeam.spanTo hs stopSeam isIn.start isIn.stop isIn.ordered whole,
    (startSeam.cut hs isIn.start whole).1, (stopSeam.cut hs isIn.stop whole).2, ?_⟩,
    startSeam, stopSeam⟩
  intro capture mem
  obtain ⟨first, last, ordered⟩ := isIn.captures capture mem
  obtain ⟨firstSeam, lastSeam⟩ := captures (by simp) capture mem
  exact firstSeam.spanTo hs lastSeam first last ordered whole

theorem matchAt_of_findFrom {pre after : Text} (a : Cursor.IsIn t ⟨index, pre, after⟩)
    (first : r.findFrom index pre after = some found) :
    ∃ cursor, cursor.IsIn t ∧ index ≤ cursor.index ∧ r.matchAt cursor = some found := by
  induction after generalizing index pre with
  | nil => exact ⟨_, a, Nat.le_refl index, first⟩
  | cons c tl ih =>
    rw [findFrom_cons] at first
    rcases Option.or_eq_some_iff.mp first with here | ⟨-, later⟩
    · exact ⟨_, a, Nat.le_refl index, here⟩
    · obtain ⟨cursor, a, v, hm⟩ := ih (a.step rfl) later
      exact ⟨cursor, a, Nat.le_of_succ_le v, hm⟩

include guarded hs in
theorem Guarded.find? (first : r.find? t = some found) (whole : holds t) : found.Parts holds := by
  obtain ⟨cursor, hi, -, hm⟩ := matchAt_of_findFrom (Cursor.isIn_start t) first
  exact (guarded.parts hs hi hm whole).1

end Search

section Pieces

variable {image : Match → Text} (images : ∀ found : Match, found.Parts holds → holds (image found))

/-- Pieces that go through a text from a place on: a character outside every match leads to the next
place, and a match to the place where it stops. -/
inductive Follows (finds : Cursor → Match → Prop) : Cursor → List Piece → Prop
  | done {cursor : Cursor} (ends : cursor.after = []) : Follows finds cursor []
  | gap {cursor : Cursor} {c : Char} {rest : Text} {pieces : List Piece}
      (ahead : cursor.after = c :: rest) (more : Follows finds (cursor.step c rest) pieces) :
      Follows finds cursor (.gap c :: pieces)
  | hit {cursor : Cursor} {found : Match} {pieces : List Piece} (here : finds cursor found)
      (more : Follows finds found.stop pieces) : Follows finds cursor (.hit found :: pieces)

def piecesAt (r : Regex) (fresh : Bool) (cursor : Cursor) : List Piece :=
  r.piecesFrom r.first fresh 0 cursor.index cursor.before cursor.after

theorem piecesFrom_skip (r : Regex) (starts : First) (fresh : Bool) (skip index : Nat)
    (pre after : Text) (enough : skip ≤ after.length) :
    r.piecesFrom starts fresh skip index pre after =
      r.piecesFrom starts fresh 0 (index + skip) ((after.take skip).reverse ++ pre)
        (after.drop skip) := by
  induction after generalizing skip index pre with
  | nil =>
    rw [length_nil, Nat.le_zero] at enough
    rw [enough]
    rfl
  | cons c tl ih =>
    cases skip with
    | zero => rfl
    | succ skip =>
      rw [piecesFrom, ih skip (index + 1) (c :: pre) (Nat.le_of_succ_le_succ enough)]
      simp [Nat.add_comm, Nat.add_left_comm]

theorem piecesFrom_stop {pre tl : Text} {c : Char} (isIn : found.IsIn t)
    (start : found.start = ⟨index, pre, c :: tl⟩) (reads : 0 < found.length) :
    r.piecesFrom r.first false (found.length - 1) (index + 1) (c :: pre) tl =
      r.piecesAt false found.stop := by
  have ordered := isIn.ordered
  obtain ⟨ha, read⟩ := isIn.start.after_eq isIn.stop ordered
  have span : (found.start.spanTo found.stop).length = found.length := by
    have lengths := congrArg length read
    rw [length_append, length_reverse, length_reverse, ← isIn.start.2, ← isIn.stop.2] at lengths
    rw [Match.length]
    omega
  rw [start] at ha read span
  have long : found.length - 1 ≤ tl.length := by
    have lengths := congrArg length ha
    rw [length_append, length_cons] at lengths
    omega
  rw [piecesFrom_skip _ _ _ _ _ _ _ long, piecesAt]
  have startIn := isIn.start
  rw [start] at startIn
  have place : (⟨index + 1 + (found.length - 1), (tl.take (found.length - 1)).reverse ++ c :: pre,
      tl.drop (found.length - 1)⟩ : Cursor) = found.stop := by
    refine Cursor.IsIn.eq_of_index_eq (t := t) ⟨?_, ?_⟩ isIn.stop ?_
    · rw [← startIn.1]
      simp
    · have index' : index = pre.length := startIn.2
      simp only [length_append, length_reverse, length_take, length_cons]
      omega
    · have index' : index = found.start.index := by rw [start]
      show index + 1 + (found.length - 1) = found.stop.index
      rw [Match.length] at reads ⊢
      omega
  rw [← place]

theorem follows_piecesAt (fresh : Bool) (cursor : Cursor) (hi : cursor.IsIn t) :
    Follows (fun cursor found => r.matchAt cursor = some found) cursor
      (r.piecesAt fresh cursor) := by
  -- a match may read any number of characters, and behind an empty one a character is passed
  induction ha : cursor.after.length using Nat.strongRecOn generalizing fresh cursor with
  | ind n ih =>
    obtain ⟨index, pre, after⟩ := cursor
    subst ha
    cases after with
    | nil =>
      unfold piecesAt piecesFrom
      split
      · split
        · next found hm =>
          obtain ⟨isIn, start⟩ := isIn_of_matchAt hi hm
          have ends := (isIn.start.after_eq isIn.stop isIn.ordered).1
          rw [start] at ends
          exact .hit hm (.done (append_eq_nil_iff.mp ends.symm).2)
        · exact .done rfl
      · exact .done rfl
    | cons c tl =>
      have pass : Follows (fun cursor found => r.matchAt cursor = some found) ⟨index, pre, c :: tl⟩
          (.gap c :: r.piecesFrom r.first true 0 (index + 1) (c :: pre) tl) :=
        .gap rfl (ih tl.length (Nat.lt_succ_self _) true ⟨index + 1, c :: pre, tl⟩
          (hi.step rfl) rfl)
      unfold piecesAt piecesFrom
      dsimp only
      rw [matchAt_of_admits]
      split
      · exact pass
      · next found hm =>
        obtain ⟨isIn, start⟩ := isIn_of_matchAt hi hm
        split
        · next empty =>
          split
          · have eq : found.stop = ⟨index, pre, c :: tl⟩ := by
              refine Cursor.IsIn.eq_of_index_eq isIn.stop hi ?_
              have ordered := isIn.ordered
              rw [Match.length, start] at empty
              rw [start] at ordered
              exact Nat.le_antisymm (Nat.le_of_sub_eq_zero empty) ordered
            exact .hit hm (eq ▸ pass)
          · exact pass
        · next reads =>
          have positive : 0 < found.length := Nat.pos_of_ne_zero reads
          rw [piecesFrom_stop isIn start positive]
          have shorter : found.stop.after.length < (c :: tl).length := by
            have sum (cursor : Cursor) (hi : cursor.IsIn t) :
                cursor.index + cursor.after.length = t.length := by
              rw [← hi.1, hi.2, length_append, length_reverse]
            have first := sum _ hi
            have last := sum _ isIn.stop
            rw [Match.length, start] at positive
            simp only at first last positive
            omega
          exact .hit hm (ih _ shorter false found.stop isIn.stop rfl)

/-- What holds at the end of a text, and in front of every character and every match where it holds
behind them, holds of all the pieces of the text. -/
theorem pieces_induction (p : Cursor → List Piece → Prop)
    (done : ∀ cursor, cursor.after = [] → p cursor [])
    (gap : ∀ cursor c tl pieces, cursor.IsIn t → cursor.after = c :: tl →
      p (cursor.step c tl) pieces → p cursor (.gap c :: pieces))
    (hit : ∀ found pieces, r.matchAt found.start = some found → found.IsIn t →
      p found.stop pieces → p found.start (.hit found :: pieces)) : p (.start t) (r.pieces t) := by
  have each {cursor : Cursor} {pieces : List Piece}
      (follows : Follows (fun cursor found => r.matchAt cursor = some found) cursor pieces)
      (hi : cursor.IsIn t) : p cursor pieces := by
    induction follows with
    | done ends => exact done _ ends
    | gap ha _ ih => exact gap _ _ _ _ hi ha (ih (hi.step ha))
    | hit here _ ih =>
      obtain ⟨isIn, rfl⟩ := isIn_of_matchAt hi here
      exact hit _ _ here isIn (ih isIn.stop)
  exact each (follows_piecesAt true (.start t) (Cursor.isIn_start t)) (Cursor.isIn_start t)

inductive Pieced (holds : Text → Prop) : List Piece → Prop
  | gaps {t : Text} (part : holds t) : Pieced holds (t.map .gap)
  | hit {lead : Text} {found : Match} {rest : List Piece} (part : holds lead)
      (parts : found.Parts holds) (more : Pieced holds rest) :
      Pieced holds (lead.map .gap ++ .hit found :: rest)

include guarded hs in
theorem Guarded.pieces (whole : holds t) : Pieced holds (r.pieces t) := by
  -- what stands in front has the property together with the rest, and by itself at a seam
  refine pieces_induction (fun cursor pieces => ∀ lead, holds (lead ++ cursor.after) →
    (cursor.AtSeam → holds lead) → Pieced holds (lead.map .gap ++ pieces)) ?_ ?_ ?_ [] whole
    fun _ => hs.nil
  · intro cursor ends lead joined _
    rw [ends] at joined
    simpa using Pieced.gaps joined
  · intro cursor c tl pieces hi ahead ih lead joined _
    have joined' : holds (lead ++ [c] ++ tl) := by simpa [ahead] using joined
    have later := ih (lead ++ [c]) joined' fun seam =>
      (hs.cut _ _ joined' (by
        simpa [IsSeam, Cursor.AtSeam, Cursor.LeftPlain, Cursor.RightPlain, Cursor.step]
          using seam)).1
    simpa using later
  · intro found pieces here isIn ih lead _ ha
    obtain ⟨parts, startSeam, stopSeam⟩ := guarded.parts hs isIn.start here whole
    have tail := (stopSeam.cut hs isIn.stop whole).2
    exact .hit (ha startSeam) parts (ih [] tail fun _ => hs.nil)

theorem assemble_append (image : Match → Text) (left right : List Piece) :
    assemble image (left ++ right) = assemble image left ++ assemble image right := by
  induction left with
  | nil => rfl
  | cons piece left ih => cases piece <;> simp [assemble, ih]

include hs images in
theorem Pieced.assemble {pieces : List Piece} (pieced : Pieced holds pieces) :
    holds (assemble image pieces) := by
  induction pieced with
  | gaps part => rwa [assemble_map_gap]
  | hit part parts _ ih =>
    rw [assemble_append, assemble_map_gap]
    exact hs.append _ _ part (hs.append _ _ (images _ parts) ih)

theorem hits_map_gap_append (t : Text) (rest : List Piece) :
    hits (t.map .gap ++ rest) = hits rest := by
  induction t with
  | nil => rfl
  | cons c t ih => exact ih

theorem Pieced.hits {pieces : List Piece} (pieced : Pieced holds pieces) :
    ∀ found ∈ hits pieces, found.Parts holds := by
  induction pieced with
  | gaps _ =>
    rw [← append_nil (map _ _), hits_map_gap_append]
    simp [Regex.hits]
  | hit _ parts _ ih =>
    intro found mem
    rw [hits_map_gap_append] at mem
    rcases mem_cons.mp mem with rfl | later
    · exact parts
    · exact ih found later

include guarded hs

theorem Guarded.findAll (whole : holds t) : ∀ found ∈ r.findAll t, found.Parts holds :=
  (guarded.pieces hs whole).hits

include images in
theorem Guarded.replaceAll (whole : holds t) : holds (r.replaceAll t image) := by
  rw [replaceAll_eq_assemble]
  exact (guarded.pieces hs whole).assemble hs images

theorem Guarded.replaceAllWith {image : String} (hp : IsPlainText image.toList) (whole : holds t) :
    holds (r.replaceAllWith t image) :=
  guarded.replaceAll hs (fun _ _ => hs.plain _ hp) whole

include images in
theorem Guarded.replaceFirst (whole : holds t) : holds (r.replaceFirst t image) := by
  unfold Regex.replaceFirst
  split
  · next found first =>
    have parts := guarded.find? hs first whole
    exact hs.append₃ parts.lead (images found parts) parts.tail
  · exact whole

end Pieces

end Regex

end PrimePlus
