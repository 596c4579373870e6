import PrimePlus.Proofs.LiteralProtection
import PrimePlus.Proofs.TextLines

/-!
A line as a list of lexemes: words, other characters and literals, each behind its blanks. A literal
is held as it is or as a number, so that rewriting is described once for both.
-/

namespace PrimePlus.Lexical

open List Part

open Unicode (isBlank isWordChar)

variable {t a tail body : Text} {c : Char} {escaped : Bool}

/-- What stands between blanks: a word, another character, or something held. -/
inductive Atom (α : Type) where
  | word (t : Text)
  | sign (c : Char)
  | held (a : α)

structure Lexeme (α : Type) where
  gap : Text
  atom : Atom α

variable {α β : Type}

namespace Atom

def isWord : Atom α → Bool
  | .word _ => true
  | _ => false

def render (spell : Text → Text) (shown : α → Text) : Atom α → Text
  | .word t => spell t
  | .sign c => [c]
  | .held a => shown a

def map (f : α → β) : Atom α → Atom β
  | .word t => .word t
  | .sign c => .sign c
  | .held a => .held (f a)

/-- Words are made of word characters, and the other characters have no meaning of their own for
words, blanks, placeholders and escapes. -/
def IsLawful : Atom α → Prop
  | .word t => t ≠ [] ∧ ∀ c ∈ t, isWordChar c = true
  | .sign c => isWordChar c = false ∧ isBlank c = false ∧ isMarked c = false ∧ c ≠ '\\'
  | .held _ => True

def isSign (c : Char) : Atom α → Bool
  | .sign d => d == c
  | _ => false

/-- What an atom has to do with literals: something held is one, and a quote that stands alone opens
one that is not closed. -/
def mark? : Atom α → Option (Option α)
  | .word _ => none
  | .sign c => if c = '"' then some none else none
  | .held a => some (some a)

end Atom

def render (spell : Text → Text) (shown : α → Text) (list : List (Lexeme α)) : Text :=
  list.flatMap fun lexeme => lexeme.gap ++ lexeme.atom.render spell shown

def write (shown : α → Text) (list : List (Lexeme α)) : Text :=
  render id shown list

def Lexeme.map (f : α → β) (lexeme : Lexeme α) : Lexeme β :=
  ⟨lexeme.gap, lexeme.atom.map f⟩

def startsSign (c : Char) : List (Lexeme α) → Bool
  | [] => false
  | lexeme :: _ => lexeme.gap.isEmpty && lexeme.atom.isSign c

/-- No character of one kind stands right before one of another kind. -/
def Apart (c d : Char) : List (Lexeme α) → Prop
  | [] => True
  | lexeme :: rest => (lexeme.atom.isSign c && startsSign d rest) = false ∧ Apart c d rest

abbrev Unslashed (list : List (Lexeme α)) : Prop :=
  Apart '/' '/' list

def marks (list : List (Lexeme α)) : List (Option α) :=
  list.filterMap fun lexeme => lexeme.atom.mark?

/-- Lexemes as they come from a line: gaps are blank, and a word that follows another one has a gap.
The flag says that a word has just ended. -/
def AreLawful : Bool → List (Lexeme α) → Prop
  | _, [] => True
  | behindWord, lexeme :: rest =>
    (∀ c ∈ lexeme.gap, isBlank c = true) ∧ lexeme.atom.IsLawful ∧
      (behindWord = true → lexeme.atom.isWord = true → lexeme.gap ≠ []) ∧
      AreLawful lexeme.atom.isWord rest

def IsHidden (shown : α → Text) : Prop :=
  ∀ a, shown a ≠ [] ∧ ∀ c ∈ shown a, isPlain c = false

theorem IsHidden.eq_false {shown : α → Text} (hidden : IsHidden shown) {accepts : Char → Bool}
    (hp : ∀ c, accepts c → isPlain c) (a : α) : ∀ c ∈ shown a, accepts c = false := by
  intro c mem
  have divides := (hidden a).2 c mem
  refine Bool.eq_false_iff.mpr fun acc => ?_
  rw [hp c acc] at divides
  cases divides

theorem isHidden_placeholder : IsHidden placeholder := by
  intro i
  exact ⟨by simp [placeholder_eq], fun c mem => not_isPlain_of_mem_placeholder mem⟩

def Writes (shown : α → Text) (list : List (Lexeme α)) (t : Text) : Prop :=
  ∃ tail, (∀ c ∈ tail, isBlank c = true) ∧ t = write shown list ++ tail

section Basic

variable {behindWord : Bool}

variable {spell : Text → Text} {shown : α → Text} {list left right : List (Lexeme α)}

@[simp] theorem render_nil : render spell shown ([] : List (Lexeme α)) = [] :=
  rfl

@[simp] theorem render_cons (lex : Lexeme α) (list : List (Lexeme α)) :
    render spell shown (lex :: list) =
      lex.gap ++ (lex.atom.render spell shown ++ render spell shown list) := by
  rw [render, flatMap_cons, append_assoc]
  rfl

@[simp] theorem render_append : render spell shown (left ++ right) =
    render spell shown left ++ render spell shown right :=
  flatMap_append

@[simp] theorem write_nil : write shown ([] : List (Lexeme α)) = [] :=
  rfl

@[simp] theorem write_cons (lex : Lexeme α) (list : List (Lexeme α)) :
    write shown (lex :: list) = lex.gap ++ (lex.atom.render id shown ++ write shown list) :=
  render_cons lex list

@[simp] theorem write_append :
    write shown (left ++ right) = write shown left ++ write shown right :=
  render_append

theorem write_map (f : α → β) (shown : β → Text) :
    write shown (list.map (Lexeme.map f)) = write (shown ∘ f) list := by
  induction list with
  | nil => rfl
  | cons lex list ih =>
    rw [map_cons, write_cons, write_cons, ih]
    cases lex with
    | mk gap atom => cases atom <;> rfl

@[simp] theorem marks_nil : marks ([] : List (Lexeme α)) = [] :=
  rfl

@[simp] theorem marks_append : marks (left ++ right) = marks left ++ marks right :=
  filterMap_append

theorem marks_cons (lex : Lexeme α) (list : List (Lexeme α)) :
    marks (lex :: list) = lex.atom.mark?.toList ++ marks list := by
  rw [marks, filterMap_cons]
  cases lex.atom.mark? <;> rfl

theorem isSign_eq_true {atom : Atom α} (sign : atom.isSign c) : atom = .sign c := by
  cases atom with
  | sign d => rw [beq_iff_eq.mp sign]
  | word | held => cases sign

theorem startsSign_eq_true (starts : startsSign c list) : ∃ rest, list = ⟨[], .sign c⟩ :: rest := by
  cases list with
  | nil => cases starts
  | cons lex rest =>
    obtain ⟨gap, atom⟩ := lex
    obtain ⟨empty, sign⟩ := Bool.and_eq_true_iff.mp starts
    cases isEmpty_iff.mp empty
    exact ⟨rest, congrArg (⟨[], ·⟩ :: rest) (isSign_eq_true sign)⟩

theorem AreLawful.weaken (lawful : AreLawful behindWord list) : AreLawful false list := by
  cases list with
  | nil => trivial
  | cons lex rest => exact ⟨lawful.1, lawful.2.1, by simp, lawful.2.2.2⟩

theorem AreLawful.of_append {behindWord : Bool} (lawful : AreLawful behindWord (left ++ right)) :
    AreLawful behindWord left ∧ AreLawful false right := by
  induction left generalizing behindWord with
  | nil => exact ⟨trivial, lawful.weaken⟩
  | cons lex left ih =>
    obtain ⟨blank, first, ha, others⟩ := lawful
    exact ⟨⟨blank, first, ha, (ih others).1⟩, (ih others).2⟩

theorem Atom.exists_render (hidden : IsHidden shown) {atom : Atom α} (lawful : atom.IsLawful) :
    ∃ c t, atom.render id shown = c :: t ∧ isBlank c = false ∧ isWordChar c = atom.isWord := by
  cases atom with
  | word t =>
    obtain ⟨filled, worded⟩ := lawful
    obtain ⟨c, t, rfl⟩ := exists_cons_of_ne_nil filled
    have inWord := worded c mem_cons_self
    exact ⟨c, t, rfl, Unicode.not_isBlank_of_isWordChar inWord, inWord⟩
  | sign c => exact ⟨c, [], rfl, lawful.2.1, lawful.1⟩
  | held a =>
    obtain ⟨c, t, shape⟩ := exists_cons_of_ne_nil (hidden a).1
    have first : c ∈ shown a := by
      rw [shape]
      exact mem_cons_self
    exact ⟨c, t, shape, hidden.eq_false (fun _ => isPlain_of_isBlank) a c first,
      hidden.eq_false (fun _ => isPlain_of_isWordChar) a c first⟩

theorem AreLawful.head?_render (hidden : IsHidden shown) (lawful : AreLawful behindWord list)
    (ended : behindWord) (blank : ∀ c ∈ tail, isBlank c) :
    (render spell shown list ++ tail).head?.any isWordChar = false := by
  have blanks {gap : Text} (all : ∀ c ∈ gap, isBlank c) {c : Char} {more : Text}
      (shape : gap = c :: more) : isWordChar c = false :=
    Unicode.not_isWordChar_of_isBlank (all c (by rw [shape]; exact mem_cons_self))
  cases list with
  | nil =>
    cases tail with
    | nil => rfl
    | cons c tail => exact blanks blank rfl
  | cons lex rest =>
    obtain ⟨gap_blank, first, ha, -⟩ := lawful
    obtain ⟨gap, atom⟩ := lex
    cases gap with
    | cons c more => exact blanks gap_blank rfl
    | nil =>
      cases atom with
      | word t => exact absurd rfl (ha ended rfl)
      | sign c => exact first.1
      | held a =>
        obtain ⟨c, t, shape, -, word⟩ := Atom.exists_render hidden first
        show (shown a ++ render spell shown rest ++ tail).head?.any isWordChar = false
        have eq : shown a = c :: t := shape
        rw [eq]
        exact word

theorem AreLawful.head?_eq_sign (lawful : AreLawful behindWord list) (noWord : isWordChar c = false)
    (noBlank : isBlank c = false)
    (ho : ∀ a, some a ∈ marks list → ∃ d more, shown a = d :: more ∧ d ≠ c)
    (ha : list = [] → tail.head? ≠ some c) :
    (write shown list ++ tail).head? = some c ↔ startsSign c list := by
  have ne_of {accepts : Char → Bool} (rejected : accepts c = false) {d : Char}
      (acc : accepts d) : d ≠ c := by
    rintro rfl
    cases rejected.symm.trans acc
  cases list with
  | nil => simpa [startsSign] using ha rfl
  | cons lex rest =>
    obtain ⟨blank, first, -⟩ := lawful
    obtain ⟨gap, atom⟩ := lex
    cases gap with
    | cons d gap => simpa [startsSign] using ne_of noBlank (blank d mem_cons_self)
    | nil =>
      cases atom with
      | word word =>
        obtain ⟨d, word, rfl⟩ := exists_cons_of_ne_nil first.1
        simpa [startsSign, Atom.isSign, Atom.render] using ne_of noWord (first.2 d mem_cons_self)
      | sign d => simp [startsSign, Atom.isSign, Atom.render]
      | held a =>
        obtain ⟨d, more, shape, ne⟩ := ho a (by exact mem_cons_self)
        simpa [startsSign, Atom.isSign, Atom.render, shape] using ne

end Basic

section Quotes

/-- A literal that ends for every reader where it ends: no backslash stands in front of the quote
that ends it. It has no marked characters. -/
def IsQuoted (a : Text) : Prop :=
  ∃ body, a = '"' :: (body ++ ['"']) ∧ literalLength? false (body ++ ['"']) =
    some (body.length + 1) ∧ ('"' :: body).getLast? ≠ some '\\' ∧ Unmarked body

theorem IsQuoted.isLiteral (quoted : IsQuoted a) : IsLiteral a := by
  obtain ⟨body, rfl, hc, -⟩ := quoted
  exact ⟨body ++ ['"'], rfl, by simpa using hc⟩

/-- Literals, and at most one quote behind them that is not closed. -/
def AreQuoted : List (Option Text) → Prop
  | [] => True
  | some a :: rest => IsQuoted a ∧ AreQuoted rest
  | none :: rest => rest = []

theorem AreQuoted.of_append {left right : List (Option Text)} (quoted : AreQuoted (left ++ right)) :
    AreQuoted left ∧ AreQuoted right := by
  induction left with
  | nil => exact ⟨trivial, quoted⟩
  | cons mark left ih =>
    cases mark with
    | some a =>
      obtain ⟨hu, back⟩ := ih quoted.2
      exact ⟨⟨quoted.1, hu⟩, back⟩
    | none =>
      obtain ⟨rfl, rfl⟩ := append_eq_nil_iff.mp quoted
      exact ⟨rfl, trivial⟩

theorem AreQuoted.isQuoted {list : List (Option Text)} (quoted : AreQuoted list)
    (mem : some a ∈ list) : IsQuoted a := by
  obtain ⟨left, right, rfl⟩ := append_of_mem mem
  exact quoted.of_append.2.1

def heldOf (list : List (Lexeme α)) : List α :=
  (marks list).filterMap id

def AreClosed (list : List (Lexeme α)) : Prop :=
  none ∉ marks list

theorem closes_cons_iff : literalLength? escaped (c :: t) = some (c :: t).length ↔
    escaped = false ∧ c = '"' ∧ t = [] ∨ (escaped = false → c ≠ '"') ∧
      literalLength? (!escaped && c == '\\') t = some t.length := by
  cases escaped with
  | true => simp [literalLength?]
  | false =>
    by_cases quote : c = '"'
    · simp [literalLength?, quote]
    · simp [literalLength?, quote]

theorem exists_of_literalLength? (hc : literalLength? escaped body = some body.length) :
    ∃ inner, body = inner ++ ['"'] := by
  induction body generalizing escaped with
  | nil => cases escaped <;> cases hc
  | cons c rest ih =>
    rcases closes_cons_iff.mp hc with ⟨-, rfl, rfl⟩ | ⟨-, hc⟩
    · exact ⟨[], rfl⟩
    · obtain ⟨inner, rfl⟩ := ih hc
      exact ⟨c :: inner, rfl⟩

/-- A part that every reader of quotes takes alike: it has no marked characters, backslashes stand
in closed literals only, and none in front of the quote that ends it. -/
def Part.isClear : Part → Bool
  | .code c => c != '\\' && !isMarked c
  | .literal a => a.dropLast.getLast? != some '\\' && a.all fun c => !isMarked c
  | .unclosed t => t.all fun c => c != '\\' && !isMarked c

def IsClear (t : Text) : Prop :=
  ∀ part ∈ parts t, part.isClear = true

instance (t : Text) : Decidable (IsClear t) :=
  decidableBAll _ (parts t)

theorem isClear_of_forall (hp : ∀ c ∈ t, isMarked c = false ∧ c ≠ '\\') : IsClear t := by
  intro part mem
  have hi : ∀ c ∈ part.text, isMarked c = false ∧ c ≠ '\\' :=
    fun c shown => hp c (text_subset mem shown)
  cases part with
  | code c =>
    obtain ⟨hu, noEscape⟩ := hi c (mem_singleton.mpr rfl)
    simp [isClear, hu, noEscape]
  | literal a =>
    rw [isClear, Bool.and_eq_true, bne_iff_ne, all_eq_true]
    refine ⟨fun last => ?_, fun c shown => by simp [(hi c shown).1]⟩
    exact (hi _ (dropLast_subset a (mem_of_getLast? last))).2 rfl
  | unclosed u =>
    rw [isClear, all_eq_true]
    intro c shown
    simp [hi c shown]

theorem literalLength?_eq_none_iff (noEscape : '\\' ∉ t) :
    literalLength? false t = none ↔ '"' ∉ t := by
  induction t with
  | nil => simp [literalLength?]
  | cons c t ih =>
    obtain ⟨o, free⟩ := not_or.mp (mt mem_cons.mpr noEscape)
    have escape : (c == '\\') = false := beq_eq_false_iff_ne.mpr (Ne.symm o)
    by_cases quote : c = '"'
    · simp [literalLength?, quote]
    · simp [literalLength?, quote, escape, ih free, Ne.symm quote]

end Quotes

section Existence

variable {shown : α → Text} {list : List (Lexeme α)} {t : Text}

theorem exists_lexemes_cons (hp : isMarked c = false) (noEscape : c ≠ '\\') (noQuote : c ≠ '"')
    (lawful : AreLawful false list) (writes : Writes shown list t) :
    ∃ more : List (Lexeme α), AreLawful false more ∧ Writes shown more (c :: t) ∧
      marks more = marks list := by
  obtain ⟨tail, tail_blank, rfl⟩ := writes
  by_cases blank : isBlank c
  · cases list with
    | nil =>
      exact ⟨[], trivial, ⟨c :: tail, forall_mem_cons.mpr ⟨blank, tail_blank⟩, rfl⟩, rfl⟩
    | cons lex rest =>
      obtain ⟨gap_blank, first, -, others⟩ := lawful
      exact ⟨⟨c :: lex.gap, lex.atom⟩ :: rest, ⟨forall_mem_cons.mpr ⟨blank, gap_blank⟩, first,
        by simp, others⟩, ⟨tail, tail_blank, by simp⟩, rfl⟩
  · by_cases inWord : isWordChar c
    · -- a word that follows without a gap is continued to the front
      by_cases joined : ∃ word rest, list = ⟨[], .word word⟩ :: rest
      · obtain ⟨word, rest, rfl⟩ := joined
        obtain ⟨-, ⟨-, worded⟩, -, others⟩ := lawful
        exact ⟨⟨[], .word (c :: word)⟩ :: rest, ⟨by simp, ⟨by simp, forall_mem_cons.mpr
          ⟨inWord, worded⟩⟩, by simp, others⟩, ⟨tail, tail_blank, rfl⟩, rfl⟩
      · refine ⟨⟨[], .word [c]⟩ :: list, ⟨by simp, ⟨by simp, by simpa using inWord⟩, by simp, ?_⟩,
          ⟨tail, tail_blank, rfl⟩, rfl⟩
        cases list with
        | nil => trivial
        | cons lex rest =>
          refine ⟨lawful.1, lawful.2.1, fun _ isWord gap => joined ?_, lawful.2.2.2⟩
          obtain ⟨gap', atom⟩ := lex
          cases atom with
          | word word => exact ⟨word, rest, by rw [show gap' = [] from gap]⟩
          | sign | held => cases isWord
    · refine ⟨⟨[], .sign c⟩ :: list, ⟨by simp, ?_, by simp, lawful⟩, ⟨tail, tail_blank, rfl⟩, ?_⟩
      · exact ⟨by simpa using inWord, by simpa using blank, hp, noEscape⟩
      · simp [marks_cons, Atom.mark?, noQuote]

theorem exists_lexemes_of_quoteFree (hp : ∀ c ∈ t, isMarked c = false ∧ c ≠ '\\' ∧ c ≠ '"') :
    ∃ list : List (Lexeme α), AreLawful false list ∧ Writes shown list t ∧ marks list = [] := by
  induction t with
  | nil => exact ⟨[], trivial, ⟨[], by simp, rfl⟩, rfl⟩
  | cons c rest ih =>
    obtain ⟨⟨hu, noEscape, noQuote⟩, others⟩ := forall_mem_cons.mp hp
    obtain ⟨list, lawful, writes, unmarked⟩ := ih others
    obtain ⟨more, lawful, writes, eq⟩ := exists_lexemes_cons hu noEscape noQuote lawful writes
    exact ⟨more, lawful, writes, eq.trans unmarked⟩

theorem isLawful_quote : (Atom.sign '"' : Atom α).IsLawful :=
  ⟨by decide, by decide, by decide, by decide⟩

theorem IsLiteral.isQuoted (literal : IsLiteral a) (clear : (Part.literal a).isClear) :
    IsQuoted a := by
  obtain ⟨body, rfl, hc⟩ := literal
  obtain ⟨inner, rfl⟩ := exists_of_literalLength? hc
  rw [isClear, Bool.and_eq_true, bne_iff_ne, all_eq_true, ← cons_append, dropLast_concat] at clear
  refine ⟨inner, rfl, by simpa using hc, clear.1, fun c mem => ?_⟩
  simpa using clear.2 c (by simp [mem])

theorem Cut.exists_lexemes {parts : List Part} (cut : Cut parts)
    (clear : ∀ part ∈ parts, part.isClear) : ∃ list : List (Lexeme Text), AreLawful false list ∧
      Writes id list (parts.flatMap text) ∧ AreQuoted (marks list) := by
  induction cut with
  | nil => exact ⟨[], trivial, ⟨[], by simp, rfl⟩, trivial⟩
  | @code c rest o _ ih =>
    obtain ⟨list, lawful, writes, quoted⟩ := ih (forall_mem_cons.mp clear).2
    have first := clear (.code c) mem_cons_self
    rw [isClear, Bool.and_eq_true, bne_iff_ne, Bool.not_eq_true'] at first
    obtain ⟨more, lawful, writes, eq⟩ := exists_lexemes_cons first.2 first.1 o lawful writes
    exact ⟨more, lawful, writes, eq ▸ quoted⟩
  | @literal t rest literal _ ih =>
    obtain ⟨list, lawful, ⟨tail, blank, whole⟩, quoted⟩ := ih (forall_mem_cons.mp clear).2
    refine ⟨⟨[], .held t⟩ :: list, ⟨by simp, trivial, by simp, lawful⟩, ⟨tail, blank, ?_⟩,
      literal.isQuoted (clear (.literal t) mem_cons_self), quoted⟩
    rw [flatMap_cons, whole]
    simp [text, Atom.render]
  | @unclosed t unclosed =>
    have first := clear (.unclosed t) mem_cons_self
    obtain ⟨body, rfl, opened⟩ := unclosed
    have hi : ∀ c ∈ body, c ≠ '\\' ∧ isMarked c = false := by
      rw [isClear, all_eq_true] at first
      intro c mem
      simpa using first c (mem_cons_of_mem _ mem)
    have noEscape : '\\' ∉ body := fun mem => (hi '\\' mem).1 rfl
    have noQuote := (literalLength?_eq_none_iff noEscape).mp opened
    obtain ⟨list, lawful, ⟨tail, blank, whole⟩, hu⟩ :=
      @exists_lexemes_of_quoteFree Text id body fun c mem =>
        ⟨(hi c mem).2, (hi c mem).1, ne_of_mem_of_not_mem mem noQuote⟩
    refine ⟨⟨[], .sign '"'⟩ :: list, ⟨by simp, isLawful_quote, by simp, lawful⟩,
      ⟨tail, blank, ?_⟩, ?_⟩
    · rw [flatMap_singleton]
      rw [whole]
      rfl
    · rw [marks_cons, hu]
      rfl

theorem exists_lexemes (clear : IsClear t) :
    ∃ list : List (Lexeme Text), AreLawful false list ∧ Writes id list t ∧
      AreQuoted (marks list) := by
  have hit := (cut_parts t).exists_lexemes clear
  rwa [flatMap_text_parts] at hit

end Existence

section Protection

/-- Lexemes with numbers for their literals, the first of which is given. -/
def number : Nat → List (Lexeme Text) → List (Lexeme Nat)
  | _, [] => []
  | n, ⟨gap, .word t⟩ :: rest => ⟨gap, .word t⟩ :: number n rest
  | n, ⟨gap, .sign c⟩ :: rest => ⟨gap, .sign c⟩ :: number n rest
  | n, ⟨gap, .held _⟩ :: rest => ⟨gap, .held n⟩ :: number (n + 1) rest

variable {list : List (Lexeme Text)} {behindWord : Bool}

theorem AreLawful.number (lawful : AreLawful behindWord list) (n : Nat) :
    AreLawful behindWord (number n list) := by
  induction list generalizing behindWord n with
  | nil => trivial
  | cons lex rest ih =>
    obtain ⟨blank, first, ha, others⟩ := lawful
    obtain ⟨gap, atom⟩ := lex
    cases atom with
    | word t | sign c => exact ⟨blank, first, ha, ih others n⟩
    | held a => exact ⟨blank, first, ha, ih others (n + 1)⟩

@[simp] theorem heldOf_word (gap t : Text) (rest : List (Lexeme α)) :
    heldOf (⟨gap, .word t⟩ :: rest) = heldOf rest :=
  rfl

@[simp] theorem heldOf_sign (gap : Text) (c : Char) (rest : List (Lexeme α)) :
    heldOf (⟨gap, .sign c⟩ :: rest) = heldOf rest := by
  by_cases quote : c = '"' <;> simp [heldOf, marks_cons, Atom.mark?]

@[simp] theorem heldOf_held (gap : Text) (a : α) (rest : List (Lexeme α)) :
    heldOf (⟨gap, .held a⟩ :: rest) = a :: heldOf rest :=
  rfl

theorem map_number {f : Nat → Text} {n : Nat}
    (eq : ∀ i a, (heldOf list)[i]? = some a → f (n + i) = a) :
    (number n list).map (Lexeme.map f) = list := by
  induction list generalizing n with
  | nil => rfl
  | cons lex rest ih =>
    obtain ⟨gap, atom⟩ := lex
    cases atom with
    | word t =>
      rw [number, map_cons, ih eq]
      rfl
    | sign c =>
      rw [heldOf_sign] at eq
      rw [number, map_cons, ih eq]
      rfl
    | held a =>
      have first : f n = a := eq 0 a rfl
      have others : ∀ i b, (heldOf rest)[i]? = some b → f (n + 1 + i) = b := by
        intro i b there
        rw [Nat.add_assoc, Nat.add_comm 1]
        exact eq (i + 1) b there
      rw [number, map_cons, ih others]
      show (⟨gap, .held (f n)⟩ : Lexeme Text) :: rest = _
      rw [first]

theorem write_number_of_unmarked (hu : marks list = []) (n : Nat) :
    write placeholder (number n list) = write id list := by
  induction list generalizing n with
  | nil => rfl
  | cons lex rest ih =>
    obtain ⟨gap, atom⟩ := lex
    rw [marks_cons] at hu
    obtain ⟨first, others⟩ := append_eq_nil_iff.mp hu
    cases atom with
    | word t | sign c =>
      rw [number, write_cons, write_cons, ih others]
      rfl
    | held a => cases first

theorem parts_append_of_quoteFree (free : '"' ∉ t) (rest : Text) :
    parts (t ++ rest) = t.map .code ++ parts rest := by
  induction t with
  | nil => rfl
  | cons c t ih =>
    have other : c ≠ '"' := fun eq => free (eq ▸ mem_cons_self)
    rw [cons_append, parts_cons_of_ne other, ih (mt (mem_cons_of_mem c) free)]
    rfl

theorem protectParts_code (st : Store) (t : Text) (rest : List Part) :
    protectParts st (t.map .code ++ rest) =
      (t ++ (protectParts st rest).1, (protectParts st rest).2) := by
  induction t with
  | nil => rfl
  | cons c t ih =>
    show (c :: (protectParts st (t.map .code ++ rest)).1,
      (protectParts st (t.map .code ++ rest)).2) = _
    rw [ih]
    rfl

theorem protect_append_of_quoteFree (st : Store) (free : '"' ∉ t) (rest : Text) :
    protect st (t ++ rest) = (t ++ (protect st rest).1, (protect st rest).2) := by
  rw [protect, parts_append_of_quoteFree free, protectParts_code]
  rfl

theorem Built.isClosed (built : Built t) : IsClosed t := by
  induction built with
  | nil => simp [IsClosed, parts, partsFrom]
  | code o _ ih =>
    rw [IsClosed, parts_cons_of_ne o]
    exact forall_mem_cons.mpr ⟨rfl, ih⟩
  | literal first _ ih =>
    rw [IsClosed, parts_literal_append first]
    exact forall_mem_cons.mpr ⟨rfl, ih⟩

theorem literals_cons_of_ne (o : c ≠ '"') (t : Text) : literals (c :: t) = literals t := by
  rw [literals, parts_cons_of_ne o]
  rfl

theorem literals_literal_append (literal : IsLiteral a) (rest : Text) :
    literals (a ++ rest) = a :: literals rest := by
  rw [literals, parts_literal_append literal]
  rfl

theorem parts_open (noQuote : '"' ∉ t) (noEscape : '\\' ∉ t) :
    parts ('"' :: t) = [.unclosed ('"' :: t)] := by
  have unclosed := (literalLength?_eq_none_iff noEscape).mpr noQuote
  rw [parts, partsFrom, if_pos rfl, unclosed]

theorem protect_quoted_append (st : Store) (quoted : IsQuoted a) (rest : Text) :
    protect st (a ++ rest) = (placeholder st.length ++ (protect (st ++ [a]) rest).1,
      (protect (st ++ [a]) rest).2) := by
  have hu : marker ∉ a := by
    obtain ⟨body, rfl, -, -, hi⟩ := quoted
    intro mem
    rcases mem_cons.mp mem with eq | hv
    · cases eq
    · rcases mem_append.mp hv with inner | last
      · exact absurd (hi marker inner) (by decide)
      · cases mem_singleton.mp last
  rw [protect, parts_literal_append quoted.isLiteral, protectParts_literal st hu]
  rfl

theorem protect_open (store : Store) (noQuote : '"' ∉ t) (noEscape : '\\' ∉ t) :
    protect store ('"' :: t) = ('"' :: t, store) := by
  rw [protect, parts_open noQuote noEscape]
  simp [protectParts, text]

theorem ne_of_isBlank (blank : isBlank c) : c ≠ '"' ∧ c ≠ '\\' ∧ c ≠ '/' := by
  refine ⟨?_, ?_, ?_⟩ <;> rintro rfl <;> cases blank

theorem quote_notMem_of_isBlank {gap : Text} (blank : ∀ c ∈ gap, isBlank c) : '"' ∉ gap :=
  fun mem => (ne_of_isBlank (blank _ mem)).1 rfl

theorem ne_of_isWordChar (inWord : isWordChar c) : c ≠ '"' ∧ c ≠ '\\' ∧ c ≠ '/' := by
  refine ⟨?_, ?_, ?_⟩ <;> rintro rfl <;> exact absurd inWord (by decide)

theorem Atom.mark_cases (atom : Atom α) :
    atom.mark? = none ∨ atom = .sign '"' ∨ ∃ a, atom = .held a := by
  cases atom with
  | word t => exact .inl rfl
  | sign c =>
    by_cases quote : c = '"'
    · exact .inr (.inl (congrArg _ quote))
    · exact .inl (if_neg quote)
  | held a => exact .inr (.inr ⟨a, rfl⟩)

theorem Atom.free_of_mark? {atom : Atom α} (lawful : atom.IsLawful) (missed : atom.mark? = none)
    (shown : α → Text) : ∀ c ∈ atom.render id shown, c ≠ '"' ∧ c ≠ '\\' := by
  intro c mem
  cases atom with
  | word t => exact (ne_of_isWordChar (lawful.2 c mem)).imp_right And.left
  | sign d =>
    cases mem_singleton.mp mem
    refine ⟨?_, lawful.2.2.2⟩
    rintro rfl
    cases missed
  | held a => cases missed

theorem AreLawful.free_of_unmarked (lawful : AreLawful behindWord list) (hu : marks list = [])
    (blank : ∀ c ∈ tail, isBlank c) : ∀ c ∈ write id list ++ tail, c ≠ '"' ∧ c ≠ '\\' := by
  induction list generalizing behindWord with
  | nil => exact fun c mem => (ne_of_isBlank (blank c mem)).imp_right And.left
  | cons lex rest ih =>
    obtain ⟨gap_blank, first, -, others⟩ := lawful
    rw [marks_cons] at hu
    obtain ⟨missed, hu⟩ := append_eq_nil_iff.mp hu
    intro c mem
    rw [write_cons, append_assoc, append_assoc, mem_append, mem_append] at mem
    rcases mem with gap | atom | hv
    · exact (ne_of_isBlank (gap_blank c gap)).imp_right And.left
    · exact Atom.free_of_mark? first (Option.toList_eq_nil_iff.mp missed) id c atom
    · exact ih others hu c hv

def Part.mark? : Part → Option (Option Text)
  | .code _ => none
  | .literal a => some (some a)
  | .unclosed _ => some none

theorem literals_eq (t : Text) : literals t = ((parts t).filterMap mark?).filterMap id := by
  rw [literals, filterMap_filterMap]
  congr 1
  funext part
  cases part <;> rfl

theorem mem_literals : a ∈ literals t ↔ literal a ∈ parts t := by
  unfold literals
  rw [mem_filterMap]
  constructor
  · rintro ⟨part, mem, eq⟩
    cases part with
    | literal b => exact Option.some.inj eq ▸ mem
    | code | unclosed => cases eq
  · exact fun mem => ⟨_, mem, rfl⟩

theorem isLiteral_of_mem_literals (mem : a ∈ literals t) : IsLiteral a := by
  have cut := cut_parts t
  rw [mem_literals] at mem
  generalize parts t = list at cut mem
  induction cut with
  | nil => cases mem
  | code _ _ ih => exact ih (by simpa using mem)
  | literal first _ ih =>
    rcases mem_cons.mp mem with eq | later
    · exact literal.inj eq ▸ first
    · exact ih later
  | unclosed => simp at mem

theorem mem_literals_of_mem_protect (mem : a ∈ (protect [] t).2) : a ∈ literals t := by
  have taken (list : List Part) (st : Store) (mem : a ∈ (protectParts st list).2) :
      a ∈ st ∨ literal a ∈ list := by
    induction list generalizing st with
    | nil => exact .inl mem
    | cons part list ih =>
      cases part with
      | literal b =>
        unfold protectParts at mem
        split at mem
        · exact (ih st mem).imp id (mem_cons_of_mem _)
        · rcases ih _ mem with old | later
          · rcases mem_append.mp old with old | new
            · exact .inl old
            · exact .inr (mem_singleton.mp new ▸ mem_cons_self)
          · exact .inr (mem_cons_of_mem _ later)
      | code | unclosed => exact (ih st mem).imp id (mem_cons_of_mem _)
  exact mem_literals.mpr ((taken (parts t) [] mem).resolve_left (by simp))

theorem subset_of_mem_literals (mem : a ∈ literals t) : a ⊆ t :=
  text_subset (mem_literals.mp mem)

theorem isClosed_iff : IsClosed t ↔ none ∉ (parts t).filterMap mark? := by
  have opened {part : Part} : part.isClosed ↔ part.mark? ≠ some none := by
    cases part <;> simp [isClosed, mark?]
  simp only [IsClosed, opened, mem_filterMap, not_exists, not_and]

section

variable (lawful : AreLawful behindWord list) (quoted : AreQuoted (marks list)) {tail : Text}
  (blank : ∀ c ∈ tail, isBlank c)

include lawful quoted blank

theorem marks_parts_write : (parts (write id list ++ tail)).filterMap mark? = marks list := by
  have code {t : Text} (free : '"' ∉ t) (rest : Text) :
      (parts (t ++ rest)).filterMap mark? = (parts rest).filterMap mark? := by
    have missed : (t.map code).filterMap mark? = [] := by
      simp [mark?]
    rw [parts_append_of_quoteFree free, filterMap_append, missed, nil_append]
  induction list generalizing behindWord with
  | nil =>
    have whole := code (quote_notMem_of_isBlank blank) []
    rwa [append_nil] at whole
  | cons lexeme rest ih =>
    obtain ⟨gap_blank, first, -, others⟩ := lawful
    obtain ⟨gap, atom⟩ := lexeme
    rw [marks_cons] at quoted
    rw [write_cons, append_assoc, append_assoc, code (quote_notMem_of_isBlank gap_blank),
      marks_cons]
    rcases atom.mark_cases with missed | rfl | ⟨a, rfl⟩
    · rw [missed] at quoted ⊢
      have free := Atom.free_of_mark? first missed id
      exact (code (fun mem => (free _ mem).1 rfl) _).trans (ih others quoted)
    · have free := others.free_of_unmarked quoted blank
      show (parts ('"' :: (write id rest ++ tail))).filterMap mark? = none :: marks rest
      rw [parts_open (fun mem => (free _ mem).1 rfl) (fun mem => (free _ mem).2 rfl),
        show marks rest = [] from quoted]
      rfl
    · show (parts (a ++ (write id rest ++ tail))).filterMap mark? = _
      rw [parts_literal_append quoted.1.isLiteral]
      exact congrArg (some a :: ·) (ih others quoted.2)

theorem literals_write : literals (write id list ++ tail) = heldOf list := by
  rw [literals_eq, marks_parts_write lawful quoted blank, heldOf]

theorem isClosed_write_iff : IsClosed (write id list ++ tail) ↔ AreClosed list := by
  rw [isClosed_iff, marks_parts_write lawful quoted blank, AreClosed]

theorem protect_write (store : Store) : protect store (write id list ++ tail) =
    (write placeholder (number store.length list) ++ tail, store ++ heldOf list) := by
  induction list generalizing behindWord store with
  | nil =>
    have whole := protect_append_of_quoteFree store (quote_notMem_of_isBlank blank) []
    rw [append_nil] at whole
    rw [write_nil, nil_append, whole]
    show (tail ++ [], store) = (tail, store ++ [])
    rw [append_nil, append_nil]
  | cons lex rest ih =>
    obtain ⟨gap_blank, first, -, others⟩ := lawful
    obtain ⟨gap, atom⟩ := lex
    rw [marks_cons] at quoted
    rw [write_cons, append_assoc, append_assoc,
      protect_append_of_quoteFree store (quote_notMem_of_isBlank gap_blank)]
    rcases atom.mark_cases with missed | rfl | ⟨a, rfl⟩
    · rw [missed] at quoted
      have free := Atom.free_of_mark? first missed id
      rw [protect_append_of_quoteFree store (fun mem => (free _ mem).1 rfl), ih others quoted]
      cases atom with
      | word | sign => simp [number, Atom.render]
      | held => cases missed
    · have free := others.free_of_unmarked quoted blank
      have hu : marks rest = [] := quoted
      have held : heldOf rest = [] := by rw [heldOf, hu, filterMap_nil]
      rw [show (Atom.sign '"' : Atom Text).render id id = ['"'] from rfl, singleton_append,
        protect_open store (fun mem => (free _ mem).1 rfl) (fun mem => (free _ mem).2 rfl),
        number, write_cons, write_number_of_unmarked hu, heldOf_sign, held]
      simp [Atom.render]
    · rw [show (Atom.held a : Atom Text).render id id = a from rfl,
        protect_quoted_append store quoted.1, ih others quoted.2, number]
      simp [Atom.render]

end

theorem restore_write {list : List (Lexeme Nat)} (lawful : AreLawful behindWord list) (st : Store) :
    restore st (write placeholder list) = write (fun i => (st[i]?).getD (placeholder i)) list := by
  have hu {list : List (Lexeme Nat)} (lawful : AreLawful false list) :
      (write placeholder list).head? ≠ some marker := by
    intro starts
    rw [← append_nil (write placeholder list)] at starts
    obtain ⟨rest, rfl⟩ := startsSign_eq_true ((lawful.head?_eq_sign (by decide +kernel) (by decide)
      (fun i _ => ⟨'"', _, placeholder_eq i, by decide⟩) (by simp)).mp starts)
    exact absurd lawful.2.1.2.2.1 (by decide)
  induction list generalizing behindWord with
  | nil => rfl
  | cons lex rest ih =>
    obtain ⟨blank, first, -, others⟩ := lawful
    obtain ⟨gap, atom⟩ := lex
    rw [write_cons, restore_append_of_quoteFree st (quote_notMem_of_isBlank blank), write_cons]
    congr 1
    rcases atom.mark_cases with missed | rfl | ⟨i, rfl⟩
    · have free := Atom.free_of_mark? first missed placeholder
      rw [restore_append_of_quoteFree st (fun mem => (free _ mem).1 rfl), ih others]
      cases atom with
      | word | sign => rfl
      | held => cases missed
    · rw [← ih others]
      exact restore_quote st (hu others.weaken)
    · rw [← ih others]
      exact restore_placeholder_append ..

end Protection

section Comment

abbrev comment? (t : Text) : Option (Text × Text) :=
  cutComment false '\x00' t

theorem splitComment_of_none {line : Text} (missed : comment? line = none) :
    (splitComment line).1 = line := by
  have missed : cutComment false '\x00' line = none := missed
  rw [splitComment, missed]

theorem splitComment_of_some {l code comment : Text} (ne : comment? l = some (code, comment)) :
    (splitComment l).1 = Text.trimEnd code := by
  have ne : cutComment false '\x00' l = some (code, comment) := ne
  rw [splitComment, ne]

theorem splitComment_subset (line : Text) : (splitComment line).1 ⊆ line := by
  intro c mem
  cases cut : comment? line with
  | none => rwa [splitComment_of_none cut] at mem
  | some parts =>
    obtain ⟨code, comment⟩ := parts
    rw [splitComment_of_some cut] at mem
    rw [(eq_of_cutComment cut).1]
    exact mem_append_left comment (Text.mem_of_mem_trimEnd mem)

theorem cutComment_prev {prev : Char} (noEscape : prev ≠ '\\') (inString : Bool) (t : Text) :
    cutComment inString prev t = cutComment inString '\x00' t := by
  have eq : (prev != '\\') = ('\x00' != '\\') := by simpa using noEscape
  cases t with
  | nil => rfl
  | cons c t => rw [cutComment, cutComment, eq]

theorem cutComment_cons {inString : Bool} (noEscape : c ≠ '\\')
    (passes : (!inString && c == '/' && t.head? == some '/') = false) :
    cutComment inString '\x00' (c :: t) =
      (cutComment (if c = '"' then !inString else inString) '\x00' t).map
        fun cut => (c :: cut.1, cut.2) := by
  have step : cutComment inString '\x00' (c :: t) =
      (cutComment (if c == '"' && '\x00' != '\\' then !inString else inString) c t).map
        fun cut => (c :: cut.1, cut.2) := by
    rw [cutComment, passes, if_neg Bool.false_ne_true]
  have eq : (if c == '"' && '\x00' != '\\' then !inString else inString) =
      if c = '"' then !inString else inString := by
    simp
  rw [step, cutComment_prev noEscape, eq]

theorem comment?_cons (noQuote : c ≠ '"') (noEscape : c ≠ '\\')
    (noSlash : c = '/' → t.head? ≠ some '/') :
    comment? (c :: t) = (comment? t).map fun cut => (c :: cut.1, cut.2) := by
  have passes : (!false && c == '/' && t.head? == some '/') = false := by
    by_cases slash : c = '/'
    · simpa [slash] using noSlash slash
    · simp [slash]
  rw [comment?, cutComment_cons noEscape passes, if_neg noQuote]

theorem comment?_append {s : Text} (free : ∀ c ∈ s, c ≠ '"' ∧ c ≠ '\\' ∧ c ≠ '/') (t : Text) :
    comment? (s ++ t) = (comment? t).map fun cut => (s ++ cut.1, cut.2) := by
  induction s with
  | nil => simp
  | cons c s ih =>
    obtain ⟨quote, escape, slash⟩ := free c mem_cons_self
    rw [cons_append, comment?_cons quote escape fun eq => absurd eq slash,
      ih (forall_mem_cons.mp free).2, Option.map_map]
    rfl

theorem cutComment_inString {s : Text} (free : ∀ c ∈ s, c ≠ '"' ∧ c ≠ '\\') (t : Text) :
    cutComment true '\x00' (s ++ t) =
      (cutComment true '\x00' t).map fun cut => (s ++ cut.1, cut.2) := by
  induction s with
  | nil => simp
  | cons c s ih =>
    obtain ⟨quote, escape⟩ := free c mem_cons_self
    rw [cons_append, cutComment_cons escape rfl, if_neg quote,
      ih (forall_mem_cons.mp free).2, Option.map_map]
    rfl

theorem cutComment_inside {prev : Char} (hi : (c == '"' && prev != '\\') = false) (t : Text) :
    cutComment true prev (c :: t) = (cutComment true c t).map fun cut => (c :: cut.1, cut.2) := by
  rw [cutComment, hi]
  rfl

/-- A literal that ends where it ends for the reader of literals ends there for the reader of
comments, unless a backslash stands in front of its last quote. -/
theorem cutComment_literal {prev : Char}
    (hc : literalLength? escaped (body ++ ['"']) = some (body ++ ['"']).length)
    (escape : escaped → prev = '\\') (last : (prev :: body).getLast? ≠ some '\\') (t : Text) :
    cutComment true prev (body ++ '"' :: t) =
      (comment? t).map fun cut => (body ++ '"' :: cut.1, cut.2) := by
  induction body generalizing escaped prev with
  | nil =>
    have noEscape : prev ≠ '\\' := by simpa using last
    rw [nil_append, cutComment_prev noEscape, cutComment_cons (by decide) rfl]
    rfl
  | cons c body ih =>
    obtain ⟨quote, hc⟩ := (closes_cons_iff.mp hc).resolve_left (by simp)
    rw [cons_append, cutComment_inside (by cases escaped <;> simp_all), ih hc (by simp) last,
      Option.map_map]
    rfl

theorem comment?_quote (t : Text) : comment? ('"' :: t) =
    (cutComment true '\x00' t).map fun cut => ('"' :: cut.1, cut.2) := by
  rw [comment?, cutComment_cons (by decide) rfl]
  rfl

theorem comment?_quoted (quoted : IsQuoted a) (t : Text) :
    comment? (a ++ t) = (comment? t).map fun cut => (a ++ cut.1, cut.2) := by
  obtain ⟨body, rfl, hc, last, -⟩ := quoted
  have shape : '"' :: (body ++ ['"']) ++ t = '"' :: (body ++ '"' :: t) := by simp
  rw [shape, comment?_quote, ← @cutComment_prev '"' (by decide),
    cutComment_literal (by simpa using hc) (by simp) last, Option.map_map]
  congr 1
  funext cut
  simp

variable {list rest : List (Lexeme Text)} {behindWord : Bool} {tail t : Text}

theorem AreLawful.head?_eq_slash (lawful : AreLawful behindWord list)
    (quoted : AreQuoted (marks list)) (ha : list = [] → t.head? ≠ some '/') :
    (write id list ++ t).head? = some '/' ↔ startsSign '/' list := by
  refine lawful.head?_eq_sign (by decide) (by decide) (fun a mem => ?_) ha
  obtain ⟨body, rfl, -⟩ := quoted.isQuoted mem
  exact ⟨'"', _, rfl, by decide⟩

/-- What an atom has to do with the comment of a line: nothing, unless it opens a string or the
comment. -/
theorem comment?_atom {gap : Text} {atom : Atom Text} (blank : ∀ c ∈ gap, isBlank c)
    (lawful : atom.IsLawful) (quoted : AreQuoted atom.mark?.toList) (hc : atom.mark? ≠ some none)
    (ha : atom.isSign '/' → t.head? ≠ some '/') :
    comment? (gap ++ (atom.render id id ++ t)) =
      (comment? t).map fun cut => (gap ++ (atom.render id id ++ cut.1), cut.2) := by
  have inner : comment? (atom.render id id ++ t) =
      (comment? t).map fun cut => (atom.render id id ++ cut.1, cut.2) := by
    cases atom with
    | word word => exact comment?_append (fun c mem => ne_of_isWordChar (lawful.2 c mem)) t
    | sign c =>
      have quote : c ≠ '"' := by
        rintro rfl
        exact hc rfl
      exact comment?_cons quote lawful.2.2.2 fun slash => ha (by simp [Atom.isSign, slash])
    | held a => exact comment?_quoted quoted.1 t
  rw [comment?_append (fun c mem => ne_of_isBlank (blank c mem)), inner, Option.map_map]
  rfl

theorem comment?_write (lawful : AreLawful behindWord list) (quoted : AreQuoted (marks list))
    (hc : AreClosed list) (unslashed : Unslashed list) (ha : t.head? ≠ some '/') :
    comment? (write id list ++ t) = (comment? t).map fun cut =>
      (write id list ++ cut.1, cut.2) := by
  induction list generalizing behindWord with
  | nil => simp
  | cons lex rest ih =>
    obtain ⟨blank, first, -, others⟩ := lawful
    obtain ⟨single, unslashed⟩ := unslashed
    rw [marks_cons] at quoted
    rw [AreClosed, marks_cons, mem_append, not_or] at hc
    obtain ⟨first_quoted, quoted⟩ := quoted.of_append
    have onward : lex.atom.isSign '/' → (write id rest ++ t).head? ≠ some '/' := by
      intro slash there
      rw [slash, (others.head?_eq_slash quoted fun _ => ha).mp there] at single
      cases single
    rw [write_cons, append_assoc, append_assoc,
      comment?_atom blank first first_quoted (fun eq => hc.1 (by simp [eq])) onward,
      ih others quoted hc.2 unslashed, Option.map_map]
    congr 1
    funext cut
    simp

theorem comment?_of_isBlank (blank : ∀ c ∈ tail, isBlank c) : comment? tail = none := by
  have whole := comment?_append (fun c mem => ne_of_isBlank (blank c mem)) []
  rw [append_nil] at whole
  rw [whole]
  rfl

theorem head?_ne_slash (blank : ∀ c ∈ tail, isBlank c) : tail.head? ≠ some '/' := by
  cases tail with
  | nil => simp
  | cons c tail =>
    have ho := (ne_of_isBlank (blank c mem_cons_self)).2.2
    simpa using ho

section

variable (lawful : AreLawful behindWord list) (quoted : AreQuoted (marks list))

include lawful quoted

/-- Either a comment can only start behind lexemes, or one of them opens a literal that is not
closed, or two slashes next to each other start the comment. -/
theorem comment?_cases : AreClosed list ∧ Unslashed list ∨
    (∃ front gap behind, list = front ++ ⟨gap, .sign '"'⟩ :: behind ∧ AreLawful false behind ∧
      marks behind = [] ∧ ∀ t, comment? (write id list ++ t) =
        (cutComment true '\x00' (write id behind ++ t)).map fun cut =>
          (write id front ++ (gap ++ '"' :: cut.1), cut.2)) ∨
    ∃ front gap behind, list = front ++ ⟨gap, .sign '/'⟩ :: ⟨[], .sign '/'⟩ :: behind ∧
      AreClosed front ∧ Unslashed front ∧ ∀ t, comment? (write id list ++ t) =
        some (write id front ++ gap, '/' :: '/' :: (write id behind ++ t)) := by
  induction list generalizing behindWord with
  | nil => exact .inl ⟨by simp [AreClosed], trivial⟩
  | cons lex rest ih =>
    obtain ⟨gap_blank, first, -, others⟩ := lawful
    obtain ⟨gap, atom⟩ := lex
    rw [marks_cons] at quoted
    obtain ⟨first_quoted, others_quoted⟩ := quoted.of_append
    have passes := comment?_append fun c mem => ne_of_isBlank (gap_blank c mem)
    by_cases opens : atom = .sign '"'
    · subst opens
      refine .inr (.inl ⟨[], gap, rest, rfl, others.weaken, quoted, fun t => ?_⟩)
      rw [write_cons, append_assoc, passes]
      exact (congrArg _ (comment?_quote _)).trans (Option.map_map ..)
    have hc : none ∉ atom.mark?.toList := by
      rcases atom.mark_cases with missed | quote | ⟨a, rfl⟩
      · simp [missed]
      · exact absurd quote opens
      · simp [Atom.mark?]
    by_cases here : (atom.isSign '/' && startsSign '/' rest)
    · obtain ⟨slash, next⟩ := Bool.and_eq_true_iff.mp here
      obtain rfl := isSign_eq_true slash
      obtain ⟨behind, rfl⟩ := startsSign_eq_true next
      refine .inr (.inr ⟨[], gap, behind, rfl, by simp [AreClosed], trivial, fun t => ?_⟩)
      rw [write_cons, append_assoc, passes]
      show some (gap ++ [], '/' :: '/' :: (write id behind ++ t)) = _
      rw [append_nil]
      rfl
    -- the lexeme is passed over, whatever comes behind the others
    have onward (filled : rest ≠ []) (t : Text) : comment? (write id (⟨gap, atom⟩ :: rest) ++ t) =
        (comment? (write id rest ++ t)).map fun cut =>
          (gap ++ (atom.render id id ++ cut.1), cut.2) := by
      rw [write_cons, append_assoc, append_assoc]
      refine comment?_atom gap_blank first first_quoted (fun eq => hc (by simp [eq]))
        fun slash there => here (Bool.and_eq_true_iff.mpr ⟨slash, ?_⟩)
      exact (others.head?_eq_slash others_quoted fun missed => absurd missed filled).mp there
    have joined {front : List (Lexeme Text)} (starts : startsSign '/' front →
        startsSign '/' rest) (closed' : AreClosed front) (unslashed : Unslashed front) :
        AreClosed (⟨gap, atom⟩ :: front) ∧ Unslashed (⟨gap, atom⟩ :: front) := by
      refine ⟨?_, Bool.eq_false_iff.mpr fun both => ?_, unslashed⟩
      · rw [AreClosed, marks_cons, mem_append, not_or]
        exact ⟨hc, closed'⟩
      · obtain ⟨slash, next⟩ := Bool.and_eq_true_iff.mp both
        exact here (Bool.and_eq_true_iff.mpr ⟨slash, starts next⟩)
    rcases ih others others_quoted with ⟨closed', unslashed⟩ |
      ⟨front, gap', behind, rfl, lawful, hu, cut⟩ |
      ⟨front, gap', behind, rfl, closed', unslashed, cut⟩
    · exact .inl (joined id closed' unslashed)
    · refine .inr (.inl ⟨⟨gap, atom⟩ :: front, gap', behind, rfl, lawful, hu, fun t => ?_⟩)
      rw [onward (by simp) t, cut]
      simp [Function.comp_def]
    · have starts : startsSign '/' front →
          startsSign '/' (front ++ ⟨gap', .sign '/'⟩ :: ⟨[], .sign '/'⟩ :: behind) := by
        cases front <;> simp [startsSign]
      obtain ⟨hc, unslashed⟩ := joined starts closed' unslashed
      refine .inr (.inr ⟨⟨gap, atom⟩ :: front, gap', behind, rfl, hc, unslashed, fun t => ?_⟩)
      rw [onward (by simp) t, cut]
      simp

theorem unslashed_of_comment? (hc : AreClosed list)
    (missed : comment? (write id list ++ tail) = none) : Unslashed list := by
  rcases comment?_cases lawful quoted with both | ⟨front, gap, behind, rfl, -⟩ |
    ⟨front, gap, behind, rfl, -, -, hit⟩
  · exact both.2
  · exact absurd (by simp [marks_cons, Atom.mark?]) hc
  · rw [hit] at missed
    cases missed

variable (blank : ∀ c ∈ tail, isBlank c)

include blank

/-- A comment starts at the first slashes next to each other, behind closed literals. -/
theorem exists_of_comment? {code comment : Text}
    (cut : comment? (write id list ++ tail) = some (code, comment)) :
    ∃ front gap behind,
      list = front ++ ⟨gap, .sign '/'⟩ :: ⟨[], .sign '/'⟩ :: behind ∧
      code = write id front ++ gap ∧ comment = '/' :: '/' :: (write id behind ++ tail) ∧
      AreClosed front ∧ Unslashed front := by
  rcases comment?_cases lawful quoted with ⟨hc, unslashed⟩ |
    ⟨front, gap, behind, rfl, lawful, hu, opened⟩ |
    ⟨front, gap, behind, rfl, hc, unslashed, hit⟩
  · rw [comment?_write lawful quoted hc unslashed (head?_ne_slash blank),
      comment?_of_isBlank blank] at cut
    cases cut
  · have hi := cutComment_inString (lawful.free_of_unmarked hu blank) []
    rw [append_nil] at hi
    rw [opened, hi] at cut
    cases cut
  · rw [hit] at cut
    cases cut
    exact ⟨front, gap, behind, rfl, rfl, rfl, hc, unslashed⟩

theorem closed_and_unslashed_of_comment? {comment : Text}
    (cut : comment? (write id list ++ (tail ++ comment)) = some (write id list ++ tail, comment)) :
    AreClosed list ∧ Unslashed list := by
  rcases comment?_cases lawful quoted with both |
    ⟨front, gap, behind, rfl, lawful, hu, opened⟩ | ⟨front, gap, behind, rfl, -, -, hit⟩
  · exact both
  · rw [opened, ← append_assoc, cutComment_inString (lawful.free_of_unmarked hu blank),
      Option.map_map] at cut
    obtain ⟨⟨code, comment'⟩, hi, eq⟩ := Option.map_eq_some_iff.mp cut
    have empty : code = [] := by simpa [Atom.render] using (Prod.mk.inj eq).1
    subst empty
    cases comment with
    | nil => cases hi
    | cons c comment =>
      obtain ⟨hit, -, eq⟩ := Option.map_eq_some_iff.mp hi
      cases eq
  · rw [hit] at cut
    simp [Atom.render] at cut

end

end Comment

end PrimePlus.Lexical
