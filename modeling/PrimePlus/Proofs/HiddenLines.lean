import PrimePlus.Proofs.AlikeSessions

/-!
Lines without influence: those in skipped regions, where no comment of several lines is open in one,
and those in block comments. A comment is over with the first line that ends with `*/`.
-/

namespace PrimePlus

open List Lexical Text

namespace Session

theorem plainLine_of_isSkipping (s : Session) (raw line : Text)
    (skipping : s.directives.isSkipping) : s.plainLine raw line = s := by
  unfold plainLine
  simp only [skipping, if_true, ite_self]

def IsGated (s : Session) : Prop :=
  s.inComment = true → s.directives.isSkipping = false

theorem isGated_of_not_inComment {s : Session} (hc : s.inComment = false) :
    s.IsGated := by
  intro opened
  rw [hc] at opened
  cases opened

theorem isGated_start (cfg : Config) : (start cfg).IsGated :=
  isGated_of_not_inComment rfl

theorem isGated_plainLine (s : Session) (raw line : Text)
    (hc : s.inComment = false) : (s.plainLine raw line).IsGated := by
  cases skipping : s.directives.isSkipping with
  | true =>
    rw [s.plainLine_of_isSkipping raw line skipping]
    exact isGated_of_not_inComment hc
  | false =>
    intro _
    rw [directives_plainLine, skipping]

namespace IsGated

variable {s : Session} (fs : FileSystem) (compile : Text → Session → Progress)

section

variable (gated : s.IsGated)
  (kept : ∀ p s, IsGated s → IsGated (compile p s).1)

include gated

theorem pushSource (p : Text) : IsGated { s with env := s.env.pushSource p } :=
  gated

include kept

theorem line (raw : Text) : (s.line fs compile raw).1.IsGated := by
  unfold Session.line
  dsimp only
  split
  · next opened =>
    intro _
    exact gated opened
  · next hc =>
    have hc : s.inComment = false := by simpa using hc
    obtain ⟨directive, st, env⟩ := Directive.read fs (trim
      (Lexical.expandTabs s.env.nextLine.config.tabWidth raw)) s.directives
      s.env.nextLine
    cases directive with
    | none => exact isGated_plainLine _ _ _ hc
    | consumed => exact isGated_of_not_inComment hc
    | inclusion p => exact kept p _ (isGated_of_not_inComment hc)
    | pass text => exact isGated_of_not_inComment hc
    | embeddedStart language | embeddedEnd language =>
      apply isGated_of_not_inComment
      dsimp only
      split <;> exact hc

theorem allLines (ls : List Text) : (allLines fs compile ls s).1.IsGated := by
  induction ls generalizing s with
  | nil => exact gated
  | cons raw r ih =>
    have next := gated.line fs compile kept raw
    unfold allLines
    split
    · next stopped error reached =>
      rw [reached] at next
      exact next
    · next reached stepped =>
      rw [stepped] at next
      exact ih next

theorem source (p text : Text) : (s.source fs compile p text).1.IsGated :=
  (gated.pushSource p).allLines fs compile kept (Text.lines text)

end

theorem fileFrom (fuel : Nat) (p : Text) (gated : s.IsGated) :
    (fileFrom fs fuel p s).1.IsGated := by
  induction fuel generalizing p s with
  | zero =>
    unfold fileFrom
    split <;> exact gated
  | succ fuel ih =>
    unfold fileFrom
    split
    · exact gated
    · apply gated.source
      intro p s gated
      split
      · exact gated
      · exact ih p gated

theorem inclusion (p : Text) (gated : s.IsGated) :
    (Session.inclusion fs p s).1.IsGated := by
  unfold Session.inclusion
  split
  · exact gated
  · exact gated.fileFrom fs _ p

end IsGated

/-- Whether a line has no bearing on where a skipped region ends: without the blanks around it, it
does not start with a number sign, or it defines, removes, includes or sets options. -/
def IsInert (tabWidth : Nat) (raw : Text) : Prop :=
  (trim raw).head? ≠ some '#' ∨
    ∃ parts ∈ Directive.ofLine? (trim (Lexical.expandTabs tabWidth raw)),
      parts.1 ∈ [.definition, .removal, .inclusion, .pragma]

instance (tabWidth : Nat) (raw : Text) : Decidable (IsInert tabWidth raw) :=
  inferInstanceAs (Decidable (_ ∨ _))

/-- Whether a line lies in a skipped region, outside embedded blocks, and has no bearing on where
the region ends. -/
structure Skips (s : Session) (raw : Text) : Prop where
  skipping : s.directives.isSkipping = true
  unembedded : s.directives.embedded = []
  inert : IsInert s.env.config.tabWidth raw

variable {raw : Text} {fs : FileSystem} {cfg : Config}

theorem IsInert.read_eq {tabWidth : Nat} (inert : IsInert tabWidth raw)
    (fs : FileSystem) (state : DirectiveState) (env : Environment)
    (skipping : state.isSkipping) (unembedded : state.embedded = []) :
    Directive.read fs (trim (Lexical.expandTabs tabWidth raw)) state env =
        (.none, state, env) ∨
      Directive.read fs (trim (Lexical.expandTabs tabWidth raw)) state env =
        (.consumed, state, env) := by
  rcases inert with plain | ⟨⟨w, r⟩, parts, mem⟩
  · left
    apply Directive.read_of_head?_ne
    rw [trim_trim, Lexical.head?_trim_expandTabs]
    exact plain
  · right
    have unmarked := Directive.not_isMarker_of_ofLine? (Option.mem_def.mp parts)
    rw [← trim_trim] at parts unmarked
    rw [Directive.read_of_not_isMarker fs _ state env unembedded unmarked, Option.mem_def.mp parts]
    have eq : state.skip w = state := by
      simp only [mem_cons, not_mem_nil, or_false] at mem
      rcases mem with rfl | rfl | rfl | rfl <;> rfl
    simp only [skipping, if_true, eq]

theorem Skips.line_eq {s : Session} (skips : s.Skips raw)
    (gated : s.IsGated) (fs : FileSystem) (compile : Text → Session → Progress) :
    s.line fs compile raw = ({ s with env := s.env.nextLine }, none) := by
  have hc : s.inComment = false := by
    cases opened : s.inComment with
    | false => rfl
    | true =>
      have taking := gated opened
      rw [skips.skipping] at taking
      cases taking
  have passed := skips.inert.read_eq fs s.directives s.env.nextLine skips.skipping
    skips.unembedded
  unfold line
  simp only [hc, Bool.false_eq_true, if_false, Environment.config_nextLine]
  rcases passed with read | read
  · rw [read]
    rw [plainLine_of_isSkipping]
    exact skips.skipping
  · rw [read]

def reach (config : Config) (files : FileSystem) (lines : List Text) : Progress :=
  allLines files (inclusion files) lines
    { start config with env := (start config).env.pushSource [] }

theorem isGated_reach (cfg : Config) (fs : FileSystem) (ls : List Text) :
    (reach cfg fs ls).1.IsGated := by
  apply ((isGated_start cfg).pushSource []).allLines
  intro p s gated
  exact gated.inclusion fs p

theorem allLines_concat (fs : FileSystem) (compile : Text → Session → Progress)
    (ls : List Text) (raw : Text) (s : Session) :
    allLines fs compile (ls ++ [raw]) s =
      match allLines fs compile ls s with
      | (s, some error) => (s, some error)
      | (s, none) => s.line fs compile raw := by
  induction ls generalizing s with
  | nil =>
    simp only [nil_append, allLines]
    obtain ⟨reached, error⟩ := s.line fs compile raw
    cases error <;> rfl
  | cons first r ih =>
    simp only [cons_append, allLines]
    obtain ⟨reached, error⟩ := s.line fs compile first
    cases error with
    | none => exact ih reached
    | some error => rfl

theorem reach_concat_eq {pre before' : List Text}
    {raw' : Text} (eq : reach cfg fs pre = reach cfg fs before')
    (skipped : raw ≠ raw' → (reach cfg fs pre).1.Skips raw ∧ (reach cfg fs pre).1.Skips raw') :
    reach cfg fs (pre ++ [raw]) = reach cfg fs (before' ++ [raw']) := by
  have gated := isGated_reach cfg fs pre
  unfold reach at eq skipped gated ⊢
  rw [allLines_concat, allLines_concat, ← eq]
  split
  · rfl
  · next reached stepped =>
    rw [stepped] at skipped gated
    by_cases equal : raw = raw'
    · rw [equal]
    · obtain ⟨skips, skips'⟩ := skipped equal
      rw [skips.line_eq gated, skips'.line_eq gated]

/-- Whether two lists of lines are the same but for lines that are skipped. -/
structure AgreeOutsideSkipped (config : Config) (files : FileSystem) (left right : List Text) :
    Prop where
  length_eq : left.length = right.length
  skipped : ∀ (k : Nat) (raw raw' : Text), left[k]? = some raw → right[k]? = some raw' →
    raw ≠ raw' → (reach config files (left.take k)).1.Skips raw ∧
      (reach config files (left.take k)).1.Skips raw'

/-- Lists of lines that are the same but for skipped lines lead through the same states. -/
theorem AgreeOutsideSkipped.reach_take_eq
    {left right : List Text} (agree : AgreeOutsideSkipped cfg fs left right) (k : Nat) :
    reach cfg fs (left.take k) = reach cfg fs (right.take k) := by
  induction k with
  | zero => rfl
  | succ k ih =>
    rw [take_add_one, take_add_one]
    by_cases hi : k < left.length
    · have inside' : k < right.length := agree.length_eq ▸ hi
      have atLeft := getElem?_eq_getElem hi
      have atRight := getElem?_eq_getElem inside'
      rw [atLeft, atRight]
      exact reach_concat_eq ih (agree.skipped k _ _ atLeft atRight)
    · have outside : left.length ≤ k := Nat.le_of_not_lt hi
      have outside' : right.length ≤ k := agree.length_eq ▸ outside
      rw [getElem?_eq_none outside, getElem?_eq_none outside']
      simpa using ih

theorem text_eq_reach (cfg : Config) (fs : FileSystem) (source : Text) :
    (start cfg).text fs source =
      ({ (reach cfg fs (Text.lines source)).1 with
          env := (reach cfg fs (Text.lines source)).1.env.popSource },
        (reach cfg fs (Text.lines source)).2) :=
  rfl

end Session

/-- Two texts that are the same but for skipped lines come to the same program, reports and counts,
or to the same error, and the states after as many lines are the same. -/
theorem skipped_lines_have_no_influence (config : Config) (files : FileSystem) (left right : Text)
    (agree : Session.AgreeOutsideSkipped config files (lines left) (lines right)) :
    compileTextWith config files left = compileTextWith config files right ∧
      ∀ k, Session.reach config files ((lines left).take k) =
        Session.reach config files ((lines right).take k) := by
  have states := agree.reach_take_eq
  refine ⟨?_, states⟩
  have final := states (lines left).length
  rw [take_length, agree.length_eq, take_length] at final
  rw [compileTextWith, compileTextWith, Session.text_eq_reach, Session.text_eq_reach, final]

/-- Two texts that skip an open comment and a definition, and an inclusion and the end of a loop. -/
theorem skipped_lines_have_no_influence_guarded :
    let left : Text := "#ifdef X\n/* BEGIN\n#define Y 1\n#endif\nx := 1;".toList
    let right : Text := "#ifdef X\n#include <list>\n\tuntil END;\n#endif\nx := 1;".toList
    Session.AgreeOutsideSkipped {} {} (lines left) (lines right) ∧
      compileText {} left = compileText {} right := by
  intro left right
  have agree : Session.AgreeOutsideSkipped {} {} (lines left) (lines right) := by
    refine ⟨by decide, ?_⟩
    intro k raw raw' atLeft atRight differ
    rcases k with _ | _ | _ | _ | _ | k <;> cases atLeft <;> cases atRight
    · exact absurd rfl differ
    · exact ⟨⟨by decide, by decide, by decide⟩, ⟨by decide, by decide, by decide⟩⟩
    · exact ⟨⟨by decide, by decide, by decide⟩, ⟨by decide, by decide, by decide⟩⟩
    · exact absurd rfl differ
    · exact absurd rfl differ
  exact ⟨agree, (skipped_lines_have_no_influence {} {} left right agree).1⟩

variable {line : Text}

namespace Comment

def closing : Text := "*/".toList

/-- The part of a line that belongs to a comment, if any does: all of a line in an open comment, and
all that follows the sign of a comment that starts with the line. -/
def part? (isOpen : Bool) (line : Text) : Option Text :=
  if isOpen then some line else dropLead? line "/*".toList

theorem not_isOpen_of_part? {isOpen : Bool} (outside : part? isOpen line = none) :
    isOpen = false := by
  cases isOpen with
  | false => rfl
  | true => cases outside

section Lines

variable (closes : Text → Bool) (width : Nat)

/-- Whether a comment is open after a line, when `closes` tells whether a comment is over with its
part of a line. -/
def openAfter (isOpen : Bool) (raw : Text) : Bool :=
  (part? isOpen (trim (expandTabs width raw))).any fun part => !closes part

def visible : Bool → List Text → List Text
  | _, [] => []
  | isOpen, raw :: rest =>
    let later := visible (openAfter closes width isOpen raw) rest
    if (part? isOpen (trim (expandTabs width raw))).isSome then later else raw :: later

def hidden : Bool → List Text → List Text
  | _, [] => []
  | isOpen, raw :: rest =>
    (part? isOpen (trim (expandTabs width raw))).toList ++
      hidden (openAfter closes width isOpen raw) rest

theorem visible_append (isOpen : Bool) (u back : List Text) :
    visible closes width isOpen (u ++ back) =
      visible closes width isOpen u ++
        visible closes width (u.foldl (openAfter closes width) isOpen) back := by
  induction u generalizing isOpen with
  | nil => rfl
  | cons raw r ih =>
    simp only [cons_append, visible, ih]
    split <;> rfl

theorem hidden_append (isOpen : Bool) (u back : List Text) :
    hidden closes width isOpen (u ++ back) =
      hidden closes width isOpen u ++
        hidden closes width (u.foldl (openAfter closes width) isOpen) back := by
  induction u generalizing isOpen with
  | nil => rfl
  | cons raw r ih => simp only [cons_append, hidden, foldl_cons, ih, append_assoc]

variable {closes width} {closes' : Text → Bool}

theorem eq_of_agree {isOpen : Bool} {lines : List Text}
    (agree : ∀ part ∈ hidden closes width isOpen lines, closes part = closes' part) :
    lines.foldl (openAfter closes width) isOpen = lines.foldl (openAfter closes' width) isOpen ∧
      visible closes width isOpen lines = visible closes' width isOpen lines := by
  induction lines generalizing isOpen with
  | nil => exact ⟨rfl, rfl⟩
  | cons raw r ih =>
    have hsuf : openAfter closes width isOpen raw = openAfter closes' width isOpen raw := by
      unfold openAfter
      cases part : part? isOpen (trim (expandTabs width raw)) with
      | none => rfl
      | some text =>
        have here := agree text (by simp [hidden, part])
        simp only [Option.any_some, here]
    obtain ⟨opened, seen⟩ := ih (forall_mem_append.mp agree).2
    rw [hsuf] at opened seen
    simp only [foldl_cons, visible, hsuf]
    exact ⟨opened, by rw [seen]⟩

end Lines

end Comment

namespace Directive

def IsPlain (line : Text) : Prop :=
  ofLine? line = Option.none ∧ ¬IsMarker line

instance (line : Text) : Decidable (IsPlain line) :=
  inferInstanceAs (Decidable (_ ∧ _))

theorem IsInclusion.not_isPlain (inclusion : IsInclusion line) : ¬IsPlain line := by
  rintro ⟨unread, -⟩
  obtain ⟨parts, read, -⟩ := inclusion
  rw [unread] at read
  cases read

theorem read_of_isPlain (fs : FileSystem) {st : DirectiveState} (env : Environment)
    (outside : st.embedded = []) (hp : IsPlain (trim line)) :
    read fs line st env = (.none, st, env) := by
  rw [read_of_not_isMarker fs line st env outside hp.2, hp.1]

theorem read_of_dropLead? (fs : FileSystem) {r : Text} (st : DirectiveState)
    (env : Environment) (comment : dropLead? (trim line) "/*".toList = some r) :
    read fs line st env = (.none, st, env) := by
  apply read_of_head?_ne
  have first : ("/*".toList ++ r).head? = some '/' := rfl
  rw [dropLead?_eq_some_iff.mp comment, first]
  decide

end Directive

namespace Session

open Comment (part? closing visible openAfter)

variable {s : Session} {fs : FileSystem} {raw : Text}

theorem line_of_part? {part : Text} (taking : s.directives.isSkipping = false)
    (outside : s.directives.embedded = [])
    (commented : part? s.inComment (trim (expandTabs s.env.config.tabWidth raw)) = some part)
    (compile : Text → Session → Progress) :
    s.line fs compile raw =
      ({ s with
          env := s.env.nextLine
          inComment := !endsWith part closing }, none) := by
  unfold part? at commented
  unfold line
  dsimp only
  rw [Environment.config_nextLine]
  split at commented
  · next opened =>
    cases commented
    rw [if_pos opened]
    rfl
  · next hc =>
    have unread := commented
    rw [← trim_trim] at unread
    rw [if_neg hc, Directive.read_of_dropLead? fs _ _ unread]
    dsimp only [plainLine]
    rw [DirectiveState.language?, outside, taking, commented]
    rfl

theorem line_of_not_part? (outside : s.directives.embedded = [])
    (uncommented : part? s.inComment (trim (expandTabs s.env.config.tabWidth raw)) = none)
    (hp : Directive.IsPlain (trim (expandTabs s.env.config.tabWidth raw)))
    (compile : Text → Session → Progress) :
    (s.line fs compile raw).2 = none ∧ (s.line fs compile raw).1.frame = (s.directives, false) := by
  unfold part? at uncommented
  split at uncommented
  · cases uncommented
  · next hc =>
    have closed' : s.inComment = false := by simpa using hc
    rw [← trim_trim] at hp
    unfold line
    dsimp only
    rw [Environment.config_nextLine, if_neg hc, Directive.read_of_isPlain fs _ outside hp]
    refine ⟨rfl, ?_⟩
    rw [frame_plainLine _ raw uncommented, frame, closed']

theorem allLines_visible {view : View} (s : Session) {bare : Session} (fs : FileSystem)
    (compile : Text → Session → Progress) (ls : List Text)
    (alike : Alike view { s with inComment := false } bare)
    (taking : s.directives.isSkipping = false) (outside : s.directives.embedded = [])
    (hp : ∀ raw ∈ visible (endsWith · closing) view.config.tabWidth s.inComment ls,
      Directive.IsPlain (trim (expandTabs view.config.tabWidth raw))) :
    let whole := allLines fs compile ls s
    let seen := allLines fs compile (visible (endsWith · closing)
      view.config.tabWidth s.inComment ls) bare
    Alike view { whole.1 with inComment := false } seen.1 ∧ whole.2 = none ∧ seen.2 = none ∧
      whole.1.inComment = ls.foldl (openAfter (endsWith · closing)
        view.config.tabWidth) s.inComment := by
  induction ls generalizing s bare with
  | nil => exact ⟨alike, rfl, rfl, rfl⟩
  | cons raw r ih =>
    have cfg : s.env.config = view.config := alike.env.config
    simp only [visible, openAfter, foldl_cons] at hp ⊢
    cases commented : part? s.inComment (trim (expandTabs view.config.tabWidth raw)) with
    | some part =>
      -- a hidden line changes the count of lines and whether a comment is open, and both are left
      -- out
      rw [commented] at hp
      rw [← cfg] at commented
      rw [allLines, line_of_part? taking outside commented]
      exact ih _ (alike.withEnv alike.env.nextLeft) taking outside hp
    | none =>
      rw [commented] at hp
      simp only [Option.isSome_none, Bool.false_eq_true, if_false] at hp ⊢
      have here := hp raw mem_cons_self
      -- in front of a visible line no comment is open, so that the sessions agree in this as well
      have alike' : Alike view s bare := by
        have hc := Comment.not_isOpen_of_part? commented
        rw [← hc] at alike
        exact alike
      obtain ⟨after, eq⟩ := alike'.line fs compile compile raw
        fun inclusion => absurd here inclusion.not_isPlain
      rw [← cfg] at commented here
      obtain ⟨error, framed⟩ := line_of_not_part? outside commented here compile
      rw [error] at eq
      unfold allLines
      generalize s.line fs compile raw = done at after error framed ⊢
      generalize bare.line fs compile raw = done' at after eq ⊢
      obtain ⟨next, fault⟩ := done
      obtain ⟨next', fault'⟩ := done'
      obtain rfl : fault = none := error
      obtain rfl : none = fault' := eq
      obtain ⟨dirs, hc⟩ := Prod.mk.inj framed
      have taking' : next.directives.isSkipping = false := dirs ▸ taking
      have outside' : next.directives.embedded = [] := dirs ▸ outside
      have onward : Alike view { next with inComment := false } next' := by
        rw [← hc]
        exact after
      have further := ih _ onward taking' outside'
      rw [hc] at further
      exact further (forall_mem_cons.mp hp).2

theorem directives_start (cfg : Config) : (start cfg).directives = {} := by
  have defines : ∀ line ∈ predefined, ∃ parts ∈ Directive.ofLine? (trim line),
      parts.1 = .definition := by decide +kernel
  refine start_induction (motive := fun s => s.directives = {}) rfl fun s line mem pre => ?_
  obtain ⟨⟨w, r⟩, parts, rfl⟩ := defines line mem
  dsimp only
  rw [pre, Directive.read_of_not_isMarker _ _ _ _ rfl
    (Directive.not_isMarker_of_ofLine? (Option.mem_def.mp parts)), Option.mem_def.mp parts]
  rfl

theorem reach_visible (config : Config) (fs : FileSystem) (ls : List Text)
    (hp : ∀ raw ∈ visible (endsWith · closing) config.tabWidth false ls,
      Directive.IsPlain (trim (expandTabs config.tabWidth raw))) :
    ∃ view, Alike view { (reach config fs ls).1 with inComment := false }
        (reach config fs
          (visible (endsWith · closing) config.tabWidth false ls)).1 ∧
      (reach config fs ls).2 = none ∧
      (reach config fs
        (visible (endsWith · closing) config.tabWidth false ls)).2 = none ∧
      (reach config fs ls).1.inComment =
        ls.foldl (openAfter (endsWith · closing) config.tabWidth) false := by
  have run (s : Session) (settings : s.env.config = config)
      (dirs : s.directives = {}) (hc : s.inComment = false) :=
    have alike : Alike (s.env.view.push [] [])
        { s with env := s.env.pushSource [], inComment := false }
        { s with env := s.env.pushSource [] } := by
      rw [← hc]
      exact s.alike_refl.withEnv (s.env.alike_refl.pushSource [] [])
    allLines_visible { s with env := s.env.pushSource [] } fs (inclusion fs) ls alike
      (by rw [dirs]) (by rw [dirs])
  simp only [Environment.view] at run
  have settings : (start config).env.config = config := (amends_start config).config
  have start := run _ settings (directives_start config) rfl
  rw [settings] at start
  exact ⟨_, start hp⟩

end Session

namespace Comment

/-- Whether the comments of a text hide the lines that a rule for their ends says: after any number
of lines a comment is open if the rule says so, and the text comes to what its visible lines come
to. -/
structure Hides (closes : Text → Bool) (config : Config) (files : FileSystem) (source : Text) :
    Prop where
  inComment : ∀ k, (Session.reach config files ((lines source).take k)).1.inComment =
    ((lines source).take k).foldl (openAfter closes config.tabWidth) false
  outline : (compileTextWith config files source).map Compiled.outline =
    (Session.reach config files
      (visible closes config.tabWidth false (lines source))).finish.map Compiled.outline

theorem Hides.of_agree {closes closes' : Text → Bool} {config : Config} {fs : FileSystem}
    {source : Text} (hides : Hides closes' config fs source)
    (agree : ∀ part ∈ hidden closes config.tabWidth false (lines source),
      closes part = closes' part) : Hides closes config fs source where
  inComment k := by
    have among : ∀ part ∈ hidden closes config.tabWidth false ((lines source).take k),
        closes part = closes' part := by
      intro part mem
      apply agree part
      rw [← take_append_drop k (lines source), hidden_append]
      exact mem_append_left _ mem
    rw [hides.inComment, (eq_of_agree among).1]
  outline := by rw [hides.outline, (eq_of_agree agree).2]

end Comment

/-- **What block comments hide.** In a text without directives outside comments, a comment starts
with a line that starts with `/*` and is over with the first of its lines that ends with `*/`, the
sign at its start not counted; its lines are dropped, and all other lines are compiled as if the
comments were not there. Where in each line of a comment that has a `*/` the line ends with one, so
that a comment is over with the first `*/`, no line is hidden but those up to there. -/
theorem comments_hide_lines (config : Config) (files : FileSystem) (source : Text)
    (plain : ∀ raw ∈ Comment.visible (endsWith · Comment.closing) config.tabWidth false
        (lines source),
      Directive.IsPlain (trim (expandTabs config.tabWidth raw))) :
    Comment.Hides (endsWith · Comment.closing) config files source ∧
      ((∀ part ∈ Comment.hidden (fun part => Comment.closing <:+: part) config.tabWidth false
          (lines source), Comment.closing <:+: part → Comment.closing <:+ part) →
        Comment.Hides (fun part => Comment.closing <:+: part) config files source) := by
  have ends : Comment.Hides (endsWith · Comment.closing) config files source := by
    refine ⟨fun k => ?_, ?_⟩
    · have among : ∀ raw ∈ Comment.visible (endsWith · Comment.closing) config.tabWidth false
          ((lines source).take k),
          Directive.IsPlain (trim (expandTabs config.tabWidth raw)) := by
        intro raw listed
        apply plain raw
        rw [← take_append_drop k (lines source), Comment.visible_append]
        exact mem_append_left _ listed
      obtain ⟨view, -, -, -, opened⟩ := Session.reach_visible config files _ among
      exact opened
    · obtain ⟨view, alike, error, error', -⟩ := Session.reach_visible config files _ plain
      rw [compileTextWith, Session.text_eq_reach, error]
      generalize (Session.reach config files (lines source)).1 = whole at alike ⊢
      have popped := alike.withEnv alike.env.popLeft
      exact @outline_finish _ ({ whole with env := whole.env.popSource, inComment := false }, none)
        _ popped error'.symm
  refine ⟨ends, fun last => ends.of_agree ?_⟩
  intro part listed
  rw [endsWith, Bool.eq_iff_iff, decide_eq_true_iff, isSuffixOf_iff_suffix]
  exact ⟨last part listed, IsSuffix.isInfix⟩

/-- Comments of one line and of several, with a directive in one of them. -/
theorem comments_hide_lines_with_directive :
    let config : Config := {}
    let source := "/* a\n#endif\n b */\nx := 1;\n/* c */\ny := 2;\n".toList
    Comment.visible (fun part => Comment.closing <:+: part) config.tabWidth false
        (lines source) = ["x := 1;".toList, "y := 2;".toList] ∧
      Comment.Hides (fun part => Comment.closing <:+: part) config {} source :=
  ⟨by decide +kernel, (comments_hide_lines {} {} _ (by decide +kernel)).2 (by decide +kernel)⟩

/-- A line that goes on behind the end of its comment leaves the comment open, and all that follows
is dropped. -/
theorem comment_open_behind_its_end :
    let config : Config := {}
    let source := "/* a */ b\nx := 1;\n".toList
    (∀ raw ∈ lines source,
        Directive.IsPlain (trim (expandTabs config.tabWidth raw))) ∧
      Comment.visible (fun part => Comment.closing <:+: part) config.tabWidth false
        (lines source) = ["x := 1;".toList] ∧
      (compileText config source).map Compiled.text = .ok [] ∧
      ¬Comment.Hides (fun part => Comment.closing <:+: part) config {} source := by
  intro config source
  refine ⟨by decide +kernel, by decide +kernel, by decide +kernel, fun hides => ?_⟩
  have opened : (Session.reach config {} ((lines source).take 1)).1.inComment ≠
      ((lines source).take 1).foldl (Comment.openAfter
        (fun part => Comment.closing <:+: part) config.tabWidth) false := by decide +kernel
  exact opened (hides.inComment 1)

end PrimePlus
