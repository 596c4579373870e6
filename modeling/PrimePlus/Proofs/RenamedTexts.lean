import PrimePlus.Proofs.AliasSeams
import PrimePlus.Proofs.FlatMatches
import PrimePlus.Proofs.NestedBrackets
import PrimePlus.Proofs.TextLines

/-!
Texts that differ in what stands in quotes only, and the expressions that read them alike.
-/

namespace PrimePlus

open List

variable {R : Text → Text → Prop} {t t' : Text}

section OptionRel

variable {α β γ δ : Type} {P : α → β → Prop} {left : Option α} {right : Option β}

theorem rel_cases (hr : Option.Rel P left right) :
    left = none ∧ right = none ∨ ∃ a b, left = some a ∧ right = some b ∧ P a b := by
  cases hr with
  | none => exact .inl ⟨rfl, rfl⟩
  | some both => exact .inr ⟨_, _, rfl, rfl, both⟩

theorem rel_imp {Q : α → β → Prop} (hr : Option.Rel P left right)
    (each : ∀ a b, left = some a → P a b → Q a b) : Option.Rel Q left right := by
  cases hr with
  | none => exact .none
  | some both => exact .some (each _ _ rfl both)

theorem rel_or {left' : Option α} {right' : Option β} (first : Option.Rel P left right)
    (second : Option.Rel P left' right') : Option.Rel P (left.or left') (right.or right') := by
  cases first with
  | none => exact second
  | some both => exact .some both

theorem rel_map {Q : γ → δ → Prop} {f : α → γ} {g : β → δ} (hr : Option.Rel P left right)
    (each : ∀ a b, P a b → Q (f a) (g b)) : Option.Rel Q (left.map f) (right.map g) := by
  cases hr with
  | none => exact .none
  | some both => exact .some (each _ _ both)

end OptionRel

namespace Lexical

/-- Two texts of plain characters and of parts that start with a quote, which are the same but for
these parts; what follows the quotes is related pairwise. -/
inductive Renamed (R : Text → Text → Prop) : Text → Text → Prop
  | nil : Renamed R [] []
  | char {c : Char} {t t' : Text} (plain : isPlain c = true) (rest : Renamed R t t') :
    Renamed R (c :: t) (c :: t')
  | held {body body' t t' : Text} (related : R body body') (rest : Renamed R t t') :
    Renamed R ('"' :: (body ++ t)) ('"' :: (body' ++ t'))

def Throughout (holds : Text → Prop) (R : Text → Text → Prop) : Prop :=
  ∀ body body', R body body' → holds body ∧ holds body'

def IsShut (body : Text) : Prop :=
  body.getLast? = some '"'

def IsLevel (body : Text) : Prop :=
  ∀ c ∈ body, bracketStep c = 0 ∧ c ≠ ','

instance (body : Text) : Decidable (IsLevel body) :=
  decidableBAll _ body

namespace Renamed

variable {left left' right right' : Text}

theorem append (first : Renamed R left left') (second : Renamed R right right') :
    Renamed R (left ++ right) (left' ++ right') := by
  induction first with
  | nil => exact second
  | char hp _ ih => exact .char hp ih
  | held hr _ ih =>
    rw [cons_append, append_assoc, cons_append, append_assoc]
    exact .held hr ih

theorem of_plain (hp : IsPlainText t) : Renamed R t t := by
  induction t with
  | nil => exact .nil
  | cons c t ih =>
    obtain ⟨first, others⟩ := forall_mem_cons.mp hp
    exact .char first (ih others)

theorem getLast?_held (shut : Throughout IsShut R) {body body' : Text} (hr : R body body')
    (earlier : left.getLast? = left'.getLast?) :
    (left ++ '"' :: body).getLast? = (left' ++ '"' :: body').getLast? := by
  obtain ⟨ends, ends'⟩ := shut _ _ hr
  rw [getLast?_append, getLast?_append, getLast?_cons, getLast?_cons, ends, ends', earlier]

variable (renamed : Renamed R t t')

include renamed

theorem eq_nil_iff : t = [] ↔ t' = [] := by
  cases renamed with
  | nil => rfl
  | char | held => simp

theorem head?_eq : t.head? = t'.head? := by
  cases renamed with
  | nil | char | held => rfl

theorem cases_head :
    (∃ c tl rest', isPlain c ∧ t = c :: tl ∧ t' = c :: rest' ∧ Renamed R tl rest') ∨
      t.head?.all (!isPlain ·) ∧ t'.head?.all (!isPlain ·) := by
  cases renamed with
  | nil => exact .inr ⟨rfl, rfl⟩
  | @char c t t' hp tl => exact .inl ⟨c, t, t', hp, rfl, rfl, tl⟩
  | held => exact .inr ⟨rfl, rfl⟩

omit renamed in
theorem of_cons {c : Char} (hp : isPlain c) (renamed : Renamed R (c :: t) (c :: t')) :
    Renamed R t t' := by
  rcases renamed.cases_head with ⟨d, tl, rest', -, whole, whole', more⟩ | ⟨blocked, -⟩
  · obtain ⟨rfl, rfl⟩ := cons.inj whole
    obtain ⟨-, rfl⟩ := cons.inj whole'
    exact more
  · simp [hp] at blocked

theorem trimStart : Renamed R (Text.trimStart t) (Text.trimStart t') := by
  unfold Text.trimStart
  induction renamed with
  | nil => exact .nil
  | @char c t t' hp more ih =>
    rw [dropWhile_cons, dropWhile_cons]
    split
    · exact ih
    · exact .char hp more
  | held hr more => exact .held hr more

theorem isBlankText_eq : Text.isBlankText t = Text.isBlankText t' := by
  unfold Text.isBlankText
  induction renamed with
  | nil => rfl
  | char _ _ ih => rw [all_cons, all_cons, ih]
  | held => rfl

variable (shut : Throughout IsShut R)

include shut

theorem getLast?_eq : t.getLast? = t'.getLast? := by
  induction renamed with
  | nil => rfl
  | char _ _ ih => rw [getLast?_cons, getLast?_cons, ih]
  | held hr _ ih =>
    obtain ⟨ends, ends'⟩ := shut _ _ hr
    rw [getLast?_cons, getLast?_cons, getLast?_append, getLast?_append, ih, ends, ends']

theorem trimEnd : Renamed R (Text.trimEnd t) (Text.trimEnd t') := by
  induction renamed with
  | nil => exact .nil
  | @char c t t' hp more ih =>
    have alone : Renamed R (Text.trimEnd [c]) (Text.trimEnd [c]) := by
      refine of_plain (IsPlainText.subset (t := [c]) (by simpa [IsPlainText] using hp) ?_)
      unfold Text.trimEnd
      simpa using dropWhile_subset _
    have eq := more.isBlankText_eq
    rw [← singleton_append, ← @singleton_append _ c t']
    cases hb : Text.isBlankText t with
    | true =>
      rw [Text.trimEnd_append_of_isBlankText hb,
        Text.trimEnd_append_of_isBlankText (eq.symm.trans hb)]
      exact alone
    | false =>
      rw [Text.trimEnd_append hb, Text.trimEnd_append (eq.symm.trans hb)]
      exact .char hp ih
  | @held body body' t t' hr more ih =>
    have eq := more.isBlankText_eq
    rw [← cons_append, ← cons_append]
    cases hb : Text.isBlankText t with
    | true =>
      have kept {body : Text} (ends : IsShut body) : Text.trimEnd ('"' :: body) = '"' :: body := by
        obtain ⟨u, rfl⟩ := getLast?_eq_some_iff.mp ends
        simp [Text.trimEnd, Unicode.isBlank]
      obtain ⟨ends, ends'⟩ := shut _ _ hr
      rw [Text.trimEnd_append_of_isBlankText hb,
        Text.trimEnd_append_of_isBlankText (eq.symm.trans hb), kept ends, kept ends']
      simpa using held hr .nil
    | false =>
      rw [Text.trimEnd_append hb, Text.trimEnd_append (eq.symm.trans hb)]
      exact .held hr ih

theorem trim : Renamed R (Text.trim t) (Text.trim t') :=
  renamed.trimStart.trimEnd shut

end Renamed

section Brackets

theorem IsLevel.cons {c : Char} {t : Text} (level : IsLevel t) (step : bracketStep c = 0)
    (o : c ≠ ',') : IsLevel (c :: t) :=
  forall_mem_cons.mpr ⟨⟨step, o⟩, level⟩

theorem IsLevel.symm (level : IsLevel t) : ∀ c ∈ t, c ≠ ',' ∧ bracketStep c = 0 :=
  fun c mem => (level c mem).symm

theorem isLevel_of_not_isPlain (blocked : ∀ c ∈ t, isPlain c = false) : IsLevel t := by
  intro c mem
  have divides : (!isPlain c) := by rw [blocked c mem, Bool.not_false]
  exact (@neutral_of (fun c => !isPlain c) ',' (by decide) c divides).symm

theorem closingOffset?_level {passed : Text} (level : IsLevel passed) (d : Nat) (t : Text) :
    closingOffset? d (passed ++ t) = (closingOffset? d t).map (passed.length + ·) := by
  induction passed with
  | nil => simp
  | cons c passed ih =>
    obtain ⟨first, tl⟩ := forall_mem_cons.mp level
    have opens : c ≠ '(' := by
      rintro rfl
      exact absurd first.1 (by decide)
    have closes : c ≠ ')' := by
      rintro rfl
      exact absurd first.1 (by decide)
    rw [cons_append, closingOffset?_other opens closes, ih tl, Option.map_map]
    congr 1
    funext n
    simp only [Function.comp_apply, length_cons]
    omega

/-- Whether two numbers are those of the characters in front of corresponding closing
parentheses. -/
def SameClosing (R : Text → Text → Prop) (t t' : Text) (n n' : Nat) : Prop :=
  ∃ inside inside' rest rest', t = inside ++ ')' :: rest ∧ t' = inside' ++ ')' :: rest' ∧
    n = inside.length ∧ n' = inside'.length ∧ Renamed R inside inside' ∧ Renamed R rest rest'

variable (renamed : Renamed R t t') (level : Throughout IsLevel R)

include renamed level

theorem Renamed.closingOffset? (depth : Nat) :
    Option.Rel (SameClosing R t t') (closingOffset? depth t) (closingOffset? depth t') := by
  induction renamed generalizing depth with
  | nil => exact .none
  | @char c t t' hp more ih =>
    have behind (depth : Nat) : Option.Rel (SameClosing R (c :: t) (c :: t'))
        ((Lexical.closingOffset? depth t).map (· + 1))
        ((Lexical.closingOffset? depth t').map (· + 1)) := by
      refine rel_map (ih depth) ?_
      rintro _ _ ⟨inside, inside', rest, rest', rfl, rfl, rfl, rfl, held, last⟩
      exact ⟨c :: inside, c :: inside', rest, rest', rfl, rfl, rfl, rfl, .char hp held, last⟩
    by_cases opens : c = '('
    · subst opens
      exact behind (depth + 1)
    · by_cases closes : c = ')'
      · subst closes
        cases depth with
        | zero => exact .none
        | succ depth =>
          cases depth with
          | zero => exact .some ⟨[], [], t, t', rfl, rfl, rfl, rfl, .nil, more⟩
          | succ depth => exact behind (depth + 1)
      · rw [closingOffset?_other opens closes, closingOffset?_other opens closes]
        exact behind depth
  | @held body body' t t' hr more ih =>
    obtain ⟨flat, flat'⟩ := level _ _ hr
    rw [← cons_append, ← cons_append, closingOffset?_level (flat.cons (by decide) (by decide)),
      closingOffset?_level (flat'.cons (by decide) (by decide))]
    refine rel_map (ih depth) ?_
    rintro _ _ ⟨inside, inside', rest, rest', rfl, rfl, rfl, rfl, held, last⟩
    exact ⟨'"' :: (body ++ inside), '"' :: (body' ++ inside'), rest, rest', by simp, by simp,
      by simp; omega, by simp; omega, .held hr held, last⟩

theorem Renamed.splitTopFrom (d : Int) :
    Forall₂ (Renamed R) (splitTopFrom ',' d t) (splitTopFrom ',' d t') := by
  induction renamed generalizing d with
  | nil => exact .cons .nil .nil
  | @char c t t' hs more ih =>
    unfold Lexical.splitTopFrom
    split
    · exact .cons .nil (ih d)
    · have parts := ih (d + bracketStep c)
      generalize Lexical.splitTopFrom ',' (d + bracketStep c) t = xs at parts ⊢
      generalize Lexical.splitTopFrom ',' (d + bracketStep c) t' = list' at parts ⊢
      cases parts with
      | nil => exact .cons (.char hs .nil) .nil
      | cons first tl => exact .cons (.char hs first) tl
  | held hr more ih =>
    obtain ⟨flat, flat'⟩ := level _ _ hr
    have parts := ih d
    obtain ⟨part, tl, split⟩ := exists_cons_of_ne_nil (splitTopFrom_ne_nil ',' d _)
    obtain ⟨part', rest', split'⟩ := exists_cons_of_ne_nil (splitTopFrom_ne_nil ',' d _)
    rw [split, split'] at parts
    rw [← cons_append, ← cons_append,
      splitTopFrom_append_of_neutral (flat.cons (by decide) (by decide)).symm, split,
      splitTopFrom_append_of_neutral (flat'.cons (by decide) (by decide)).symm, split']
    cases parts with
    | cons first others => exact .cons (.held hr first) others

theorem Renamed.splitArguments : Forall₂ (Renamed R) (splitArguments t) (splitArguments t') := by
  rw [splitArguments_eq, splitArguments_eq, renamed.isBlankText_eq]
  split
  · exact .nil
  · exact renamed.splitTopFrom level 0

end Brackets

end Lexical

open Lexical

namespace Regex

open Cursor (between)

variable {accepts : Char → Bool} {α : Type} {groups : Groups}

theorem run_one_blocked (plain : PlainClass accepts) {pre after : Text} {next : Continuation α}
    (blocked : after.head?.all (!isPlain ·)) :
    (one accepts).run (between pre after) groups next = none := by
  cases after with
  | nil => rfl
  | cons c tl =>
    rw [run_one_between, if_neg]
    intro acc
    simp [plain c acc] at blocked

theorem rounds_cons (body : Cursor → Groups → Continuation α → Option α) (next : Continuation α)
    (c : Char) (bound : Text) (cur : Cursor) (groups : Groups) :
    rounds body true next (c :: bound) cur groups =
      (body cur groups fun reached groups =>
        if cur.index < reached.index then rounds body true next bound reached groups
        else none).or (next cur groups) := by
  rw [rounds.eq_2]
  dsimp only
  rw [if_pos rfl]
  split
  · next hit => rw [hit]; rfl
  · next hit => rw [hit]; rfl

theorem rounds_nil {next : Continuation α} (bound pre : Text) :
    rounds (one accepts).run true next bound (between pre []) groups =
      next (between pre []) groups := by
  cases bound with
  | nil => rfl
  | cons c bound => rfl

theorem getLast?_append_eq {pre before' : Text} (earlier : pre.getLast? = before'.getLast?)
    (read : Text) : (pre ++ read).getLast? = (before' ++ read).getLast? := by
  rw [getLast?_append, getLast?_append, earlier]

/-- Whether an expression reads the same plain text at corresponding places of texts that differ in
what stands in quotes. Of what stands in front of such a place only the last character has a
part. -/
structure Agrees (R : Text → Text → Prop) (r : Regex) : Prop where
  run {α β : Type} {Q : α → β → Prop} {next : Continuation α} {next' : Continuation β}
    {before before' after after' : Text} {groups : Groups}
    (earlier : before.getLast? = before'.getLast?)
    (renamed : Renamed R after after')
    (goes : ∀ read rest rest', after = read ++ rest → after' = read ++ rest' → IsPlainText read →
      Renamed R rest rest' →
      Option.Rel Q (next (between (before ++ read) rest) groups)
        (next' (between (before' ++ read) rest') groups)) :
    Option.Rel Q (r.run (between before after) groups next)
      (r.run (between before' after') groups next')

namespace Agrees

variable {first second : Regex}

theorem empty : Agrees R .empty where
  run _ renamed goes := by
    have here := goes [] _ _ rfl rfl (by simp [IsPlainText]) renamed
    rwa [append_nil, append_nil] at here

theorem one {accepts : Char → Bool} (plain : PlainClass accepts) : Agrees R (.one accepts) where
  run _ renamed goes := by
    rcases renamed.cases_head with ⟨c, tl, rest', hs, rfl, rfl, more⟩ | ⟨blocked, blocked'⟩
    · rw [run_one_between, run_one_between]
      split
      · exact goes [c] tl rest' rfl rfl (by simpa [IsPlainText] using hs) more
      · exact .none
    · rw [run_one_blocked plain blocked, run_one_blocked plain blocked']
      exact .none

theorem edge : Agrees R Regex.edge where
  run {_ _ _ _ _ pre before' after after' _} earlier renamed goes := by
    have eq : (between pre after).atEdge Unicode.isWordChar =
        (between before' after').atEdge Unicode.isWordChar := by
      rw [Cursor.atEdge_between, Cursor.atEdge_between, earlier, renamed.head?_eq]
    have here := empty.run earlier renamed goes
    cases ha : (between pre after).atEdge Unicode.isWordChar with
    | false => simp [Regex.edge, Regex.run, ha, ← eq]
    | true => simpa [Regex.edge, Regex.run, ha, ← eq] using here

theorem seq (left : Agrees R first) (right : Agrees R second) : Agrees R (.seq first second) where
  run earlier renamed goes := by
    refine left.run earlier renamed fun read tl rest' split split' hp more => ?_
    refine right.run (getLast?_append_eq earlier read) more
      fun read' tl rest' whole whole' plain' last => ?_
    rw [append_assoc, append_assoc]
    refine goes (read ++ read') tl rest' ?_ ?_ (isPlainText_append hp plain') last
    · rw [split, whole, append_assoc]
    · rw [split', whole', append_assoc]

theorem alt (left : Agrees R first) (right : Agrees R second) : Agrees R (.alt first second) where
  run earlier renamed goes := by
    unfold Regex.run
    rcases rel_cases (left.run earlier renamed goes) with
      ⟨missed, missed'⟩ | ⟨_, _, hit, found', hr⟩
    · rw [missed, missed']
      exact right.run earlier renamed goes
    · rw [hit, found']
      exact .some hr

theorem opt (agrees : Agrees R first) : Agrees R (opt first) :=
  agrees.alt .empty

theorem text (hp : IsPlainText t) : Agrees R (Regex.text t) := by
  induction t with
  | nil => exact .empty
  | cons c t ih =>
    obtain ⟨first, others⟩ := forall_mem_cons.mp hp
    exact (one ((plainClass_beq c).mpr first)).seq (ih others)

theorem rounds (plain : PlainClass accepts) {β : Type} {Q : α → β → Prop} {next : Continuation α}
    {next' : Continuation β} {bound bound' pre before' after after' : Text}
    (enough : after.length ≤ bound.length) (enough' : after'.length ≤ bound'.length)
    (earlier : pre.getLast? = before'.getLast?) (renamed : Renamed R after after')
    (goes : ∀ read tl rest', after = read ++ tl → after' = read ++ rest' → IsPlainText read →
      Renamed R tl rest' → Option.Rel Q (next (between (pre ++ read) tl) groups)
        (next' (between (before' ++ read) rest') groups)) :
    Option.Rel Q (Regex.rounds (Regex.one accepts).run true next bound (between pre after) groups)
      (Regex.rounds (Regex.one accepts).run true next' bound' (between before' after') groups) := by
  induction bound generalizing bound' pre before' after after' with
  | nil =>
    have ended : after = [] := eq_nil_of_length_eq_zero (Nat.le_zero.mp enough)
    have ended' := renamed.eq_nil_iff.mp ended
    subst ended ended'
    rw [rounds_nil, rounds_nil]
    exact empty.run earlier renamed goes
  | cons c bound ih =>
    cases bound' with
    | nil =>
      have ended' : after' = [] := eq_nil_of_length_eq_zero (Nat.le_zero.mp enough')
      have ended := renamed.eq_nil_iff.mpr ended'
      subst ended ended'
      exact empty.run earlier renamed goes
    | cons c' bound' =>
      rw [rounds_cons, rounds_cons]
      refine rel_or ((one plain).run earlier renamed ?_) (empty.run earlier renamed goes)
      rintro read tl rest' rfl rfl hs more
      by_cases ne : read = []
      · simp [ne]
      · have longer := length_pos_of_ne_nil ne
        rw [length_append, length_cons] at enough enough'
        rw [if_pos (index_lt ne), if_pos (index_lt ne)]
        refine ih (by omega) (by omega) (getLast?_append_eq earlier read) more ?_
        rintro read' tl rest' rfl rfl shown' last
        rw [append_assoc, append_assoc]
        exact goes (read ++ read') tl rest' (by simp) (by simp) (isPlainText_append hs shown') last

theorem many (plain : PlainClass accepts) : Agrees R (.many true (.one accepts)) where
  run earlier renamed goes := by
    unfold Regex.run
    refine (one plain).run earlier renamed ?_
    rintro read tl rest' rfl rfl hs more
    by_cases ne : read = []
    · subst ne
      simpa using goes [] tl rest' rfl rfl (by simp [IsPlainText]) more
    · rw [if_pos (index_lt ne), if_pos (index_lt ne)]
      refine rounds plain (Nat.le_refl _) (Nat.le_refl _) (getLast?_append_eq earlier read) more ?_
      rintro read' tl rest' rfl rfl shown' last
      rw [append_assoc, append_assoc]
      exact goes (read ++ read') tl rest' (by simp) (by simp) (isPlainText_append hs shown') last

theorem any {xs : List Regex} (all : ∀ r ∈ xs, Agrees R r) : Agrees R (any xs) :=
  forall_any (one (by simp [PlainClass])) (fun _ _ left right => left.alt right) all

theorem edged (agrees : Agrees R first) (t : Text) : Agrees R (Pattern.edged t first) := by
  have side (asked : Bool) : Agrees R (if asked then Regex.edge else .empty) := by
    cases asked with
    | false => exact .empty
    | true => exact .edge
  exact (side _).seq (agrees.seq (side _))

theorem nameRegexIn {namespaces : List Text} (spaces : ∀ space ∈ namespaces, IsPlainText space)
    (hp : IsPlainText (Pattern.unqualified namespaces t)) :
    Agrees R (Pattern.nameRegexIn namespaces t) := by
  unfold Pattern.nameRegexIn
  split
  · next bare =>
    rw [isEmpty_iff.mp bare] at hp
    exact (text hp).edged t
  · exact ((((any (forall_mem_map.mpr fun space hi => text (spaces space hi))).seq
      (text (by decide))).opt).seq (text hp)).edged _

theorem call (agrees : Agrees R first) : Agrees R (.seq first (.seq blanks (char '('))) :=
  agrees.seq (((many plainClass_isBlank).alt .empty).seq
    (one ((plainClass_beq '(').mpr (by decide))))

end Agrees

theorem Matches.index_le {r : Regex} {start stop : Cursor} {fin : Groups}
    (hm : Matches r start groups stop fin) :
    start.index ≤ stop.index ∧ (stop.index = start.index → r.first.isNullable) := by
  induction hm with
  | empty | assert => exact ⟨Nat.le_refl _, fun _ => rfl⟩
  | one => exact ⟨Nat.le_succ _, fun eq => absurd eq (Nat.succ_ne_self _)⟩
  | seq _ _ left right =>
    refine ⟨left.1.trans right.1, fun eq => ?_⟩
    have here := left.2 (by omega)
    have there := right.2 (by omega)
    simp [first, First.seq, here, there]
  | altLeft _ ih => exact ⟨ih.1, fun eq => by simp [first, First.alt, ih.2 eq]⟩
  | altRight _ ih => exact ⟨ih.1, fun eq => by simp [first, First.alt, ih.2 eq]⟩
  | once _ ih => exact ih
  | more _ _ round tl => exact ⟨round.1.trans tl.1, fun eq => round.2 (by omega)⟩
  | capture _ ih => exact ih

structure StartsPlain (r : Regex) : Prop where
  filled : r.first.isNullable = false
  plain : PlainClass r.first.accepts

def SameRead (R : Text → Text → Prop) (before before' after after' : Text) (found found' : Match) :
    Prop :=
  ∃ read rest rest', read ≠ [] ∧ IsPlainText read ∧ after = read ++ rest ∧ after' = read ++ rest' ∧
    Renamed R rest rest' ∧ found = ⟨between before after, between (before ++ read) rest, []⟩ ∧
    found' = ⟨between before' after', between (before' ++ read) rest', []⟩

def SameFind (R : Text → Text → Prop) (before before' after after' : Text) (found found' : Match) :
    Prop :=
  ∃ lead lead' rest rest', after = lead ++ rest ∧ after' = lead' ++ rest' ∧ Renamed R lead lead' ∧
    SameRead R (before ++ lead) (before' ++ lead') rest rest' found found'

def Skips (r : Regex) (body : Text) : Prop :=
  ∀ before passed rest after, body = passed ++ rest → rest ≠ [] →
    r.matchAt (between (before ++ '"' :: passed) (rest ++ after)) = none

namespace StartsPlain

variable {r : Regex} {pre before' after after' : Text}

section

variable (starts : r.StartsPlain)

include starts

theorem matchAt_blocked (blocked : after.head?.all (!isPlain ·)) :
    r.matchAt (between pre after) = none := by
  refine run_eq_none r _ _ _ (fun c ha => ?_) fun nullable => ?_
  · have head : after.head? = some c := ha
    cases acc : r.first.accepts c with
    | false => rfl
    | true => simp [head, starts.plain c acc] at blocked
  · rw [starts.filled] at nullable
    cases nullable

theorem skips {body : Text} (blocked : ∀ c ∈ body, isPlain c = false) : r.Skips body := by
  rintro pre passed tl after rfl ne
  obtain ⟨c, tl, rfl⟩ := exists_cons_of_ne_nil ne
  exact starts.matchAt_blocked (by simp [blocked c (by simp)])

theorem matchAt_renamed (agrees : r.Agrees R) (earlier : pre.getLast? = before'.getLast?)
    (renamed : Renamed R after after') :
    Option.Rel (SameRead R pre before' after after') (r.matchAt (between pre after))
      (r.matchAt (between before' after')) := by
  have eq : Option.Rel (fun hit found' : Match => ∃ read tl rest',
      IsPlainText read ∧ after = read ++ tl ∧ after' = read ++ rest' ∧
        Renamed R tl rest' ∧ hit = ⟨between pre after, between (pre ++ read) tl, []⟩ ∧
        found' = ⟨between before' after', between (before' ++ read) rest', []⟩)
      (r.matchAt (between pre after)) (r.matchAt (between before' after')) :=
    agrees.run earlier renamed fun read tl rest' split split' plain more =>
      .some ⟨read, tl, rest', plain, split, split', more, rfl, rfl⟩
  refine rel_imp eq ?_
  rintro _ _ here ⟨read, tl, rest', plain, split, split', more, rfl, rfl⟩
  refine ⟨read, tl, rest', ?_, plain, split, split', more, rfl, rfl⟩
  rintro rfl
  have nullable := (matches_of_matchAt here).2.index_le.2 (by simp [between])
  rw [starts.filled] at nullable
  cases nullable

theorem matchAt_skipped {body : Text} (skips : r.Skips body) (pre after : Text)
    {passed tl : Text} (split : '"' :: body = passed ++ tl) (ne : tl ≠ []) :
    r.matchAt (between (pre ++ passed) (tl ++ after)) = none := by
  cases passed with
  | nil =>
    rw [nil_append] at split
    rw [← split]
    exact starts.matchAt_blocked rfl
  | cons c passed =>
    obtain ⟨rfl, rfl⟩ := cons.inj split
    exact skips pre passed tl after rfl ne

variable (agrees : r.Agrees R) (shut : Throughout IsShut R) (skips : Throughout r.Skips R)

include agrees shut skips

theorem findFrom_renamed (earlier : pre.getLast? = before'.getLast?)
    (renamed : Renamed R after after') :
    Option.Rel (SameFind R pre before' after after') (r.findFrom pre.length pre.reverse after)
      (r.findFrom before'.length before'.reverse after') := by
  induction renamed generalizing pre before' with
  | nil =>
    have missed (pre : Text) : r.findFrom pre.length pre.reverse [] = none :=
      starts.matchAt_blocked rfl
    rw [missed, missed]
    exact .none
  | @char c t t' plain more ih =>
    rw [findFrom_between, findFrom_between]
    have here := starts.matchAt_renamed agrees earlier (.char plain more)
    have later := ih (getLast?_append_eq earlier [c])
    refine rel_or (rel_imp here fun _ _ _ eq => ?_) (rel_imp later fun _ _ _ eq => ?_)
    · exact ⟨[], [], _, _, rfl, rfl, .nil, by simpa using eq⟩
    · obtain ⟨lead, lead', tl, rest', rfl, rfl, passed, eq⟩ := eq
      refine ⟨c :: lead, c :: lead', tl, rest', rfl, rfl, .char plain passed, ?_⟩
      simpa using eq
  | @held body body' t t' hr more ih =>
    rw [← cons_append, ← cons_append,
      findFrom_passed fun _ _ => starts.matchAt_skipped (skips _ _ hr).1 pre t,
      findFrom_passed fun _ _ => starts.matchAt_skipped (skips _ _ hr).2 before' t']
    refine rel_imp (ih (Renamed.getLast?_held shut hr earlier)) fun _ _ _ eq => ?_
    obtain ⟨lead, lead', tl, rest', rfl, rfl, passed, eq⟩ := eq
    refine ⟨'"' :: (body ++ lead), '"' :: (body' ++ lead'), tl, rest', by simp, by simp,
      .held hr passed, ?_⟩
    simpa using eq

theorem isMatch_renamed (renamed : Renamed R t t') : r.isMatch t = r.isMatch t' := by
  have eq : Option.Rel _ (r.findFrom 0 [] t) (r.findFrom 0 [] t') :=
    @findFrom_renamed R r [] [] t t' starts agrees shut skips rfl renamed
  unfold isMatch find?
  generalize r.findFrom 0 [] t = hit at eq ⊢
  generalize r.findFrom 0 [] t' = found' at eq ⊢
  cases eq with
  | none => rfl
  | some => rfl

variable {image image' : Match → Text} {S : Text → Text → Prop}
  (among : ∀ body body', R body body' → S body body')
  (images : ∀ hit found' : Match, hit.text = found'.text → IsPlainText hit.text → Renamed
    S (image hit) (image' found'))

include among images

theorem assemble_renamed {fresh fresh' : Bool} (earlier : pre.getLast? = before'.getLast?)
    (renamed : Renamed R after after') :
    Renamed S (assemble image (r.piecesAt fresh (between pre after)))
      (assemble image' (r.piecesAt fresh' (between before' after'))) := by
  -- a match may read any number of characters
  induction ha : after.length using Nat.strongRecOn
    generalizing pre before' after after' fresh fresh' with
  | ind n ih =>
    cases renamed with
    | nil =>
      rw [piecesAt_nil (starts.matchAt_blocked rfl), piecesAt_nil (starts.matchAt_blocked rfl)]
      exact .nil
    | @char c t t' hs more =>
      rcases rel_cases (starts.matchAt_renamed agrees earlier (.char hs more)) with
        ⟨missed, missed'⟩ | ⟨_, _, hit, found', read, tl, rest', ne, readPlain, split, split',
          last, rfl, rfl⟩
      · rw [piecesAt_gap fresh missed, piecesAt_gap fresh' missed']
        exact .char hs (ih t.length (by simp [← ha]) (getLast?_append_eq earlier [c]) more rfl)
      · rw [split] at hit ha ⊢
        rw [split'] at found' ⊢
        rw [piecesAt_hit fresh ne hit rfl, piecesAt_hit fresh' ne found' rfl]
        have shorter := length_pos_of_ne_nil ne
        rw [length_append] at ha
        have shows (pre tl : Text) :
            Match.text ⟨between pre (read ++ tl), between (pre ++ read) tl, []⟩ = read :=
          Cursor.spanTo_between pre read tl
        exact (images _ _ (by rw [shows, shows]) (by rwa [shows])).append
          (ih tl.length (by omega) (getLast?_append_eq earlier read) last rfl)
    | @held body body' t t' hr more =>
      rw [length_cons, length_append] at ha
      rw [← cons_append, ← cons_append,
        piecesAt_passed (cons_ne_nil _ _) fun _ _ =>
          starts.matchAt_skipped (skips _ _ hr).1 pre t,
        piecesAt_passed (cons_ne_nil _ _) fun _ _ =>
          starts.matchAt_skipped (skips _ _ hr).2 before' t',
        assemble_append, assemble_append, assemble_map_gap, assemble_map_gap]
      exact .held (among _ _ hr)
        (ih t.length (by omega) (Renamed.getLast?_held shut hr earlier) more rfl)

theorem replaceAll_renamed (renamed : Renamed R t t') :
    Renamed S (r.replaceAll t image) (r.replaceAll t' image') := by
  rw [replaceAll_eq_assemble, replaceAll_eq_assemble]
  exact @assemble_renamed R r [] [] t t' starts agrees shut skips image image' S among images true
    true rfl renamed

end

end StartsPlain

end Regex

end PrimePlus
