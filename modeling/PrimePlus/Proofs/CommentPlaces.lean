import PrimePlus.Proofs.Lexemes

/-!
Where the comment of a line starts. Behind a backslash, the readers of literals and of comments
disagree about quotes.
-/

namespace PrimePlus.Lexical

open List

variable {prev : Char}

def startsSlashes : List Part → Bool
  | .code c :: .code d :: _ => c == '/' && d == '/'
  | _ => false

/-- Parts cut in front of the first two slashes next to each other outside literals. -/
def cutSlashes : List Part → Option (List Part × List Part)
  | [] => none
  | part :: rest =>
    if startsSlashes (part :: rest) then some ([], part :: rest)
    else (cutSlashes rest).map fun cut => (part :: cut.1, cut.2)

/-- Whether no quote in front of the comment opens or closes a literal right behind a backslash. The
flag says that a backslash has just passed. -/
def quotesPlainly (escaped : Bool) : List Part → Bool
  | [] => true
  | .code c :: rest => startsSlashes (.code c :: rest) || quotesPlainly (c == '\\') rest
  | .literal a :: rest =>
    !escaped && a.dropLast.getLast? != some '\\' && quotesPlainly false rest
  | .unclosed _ :: _ => !escaped

def textOf (parts : List Part) : Text :=
  parts.flatMap Part.text

theorem Cut.head?_textOf {parts : List Part} (cut : Cut parts) {c : Char} (o : c ≠ '"') :
    (textOf parts).head? = some c ↔ parts.head? = some (.code c) := by
  cases cut with
  | nil => simp [textOf]
  | code _ _ => simp [textOf, Part.text]
  | literal hc _ =>
    obtain ⟨b, rfl, -⟩ := hc
    simp [textOf, Part.text, o.symm]
  | unclosed opened =>
    obtain ⟨b, rfl, -⟩ := opened
    simp [textOf, Part.text, o.symm]

theorem cutComment_unclosed {b : Text} {escaped : Bool}
    (unclosed : literalLength? escaped b = none) (escape : escaped → prev = '\\') :
    cutComment true prev b = none := by
  induction b generalizing escaped prev with
  | nil => rfl
  | cons c b ih =>
    cases escaped with
    | true =>
      rw [literalLength?, Option.map_eq_none_iff] at unclosed
      rw [cutComment_inside (by simp [escape rfl]), ih unclosed (by simp)]
      rfl
    | false =>
      rw [literalLength?] at unclosed
      split at unclosed
      · cases unclosed
      · next o =>
        rw [Option.map_eq_none_iff] at unclosed
        rw [cutComment_inside (by simp [o]), ih unclosed (by simp)]
        rfl

theorem cutComment_quote (noEscape : prev ≠ '\\') (t : Text) : cutComment false prev ('"' :: t) =
      (cutComment true '"' t).map fun cut => ('"' :: cut.1, cut.2) := by
  rw [cutComment_prev noEscape]
  rfl

theorem Cut.cutComment_textOf {parts : List Part} (cut : Cut parts)
    (plain : quotesPlainly (prev == '\\') parts) :
    cutComment false prev (textOf parts) =
      (cutSlashes parts).map fun cut => (textOf cut.1, textOf cut.2) := by
  induction cut generalizing prev with
  | nil => rfl
  | @code c rest other behind ih =>
    have text : textOf (.code c :: rest) = c :: textOf rest := rfl
    have slashes : (!false && c == '/' && (textOf rest).head? == some '/') =
        startsSlashes (.code c :: rest) := by
      rw [Bool.eq_iff_iff]
      simp only [Bool.and_eq_true, beq_iff_eq,
        behind.head?_textOf (c := '/') (by decide)]
      cases rest with
      | nil => simp [startsSlashes]
      | cons part rest => cases part <;> simp [startsSlashes]
    rw [quotesPlainly] at plain
    rw [text, cutComment, slashes, cutSlashes]
    cases here : startsSlashes (.code c :: rest) with
    | true => rfl
    | false =>
      rw [here] at plain
      have outside : (c == '"' && prev != '\\') = false := by simp [other]
      rw [outside]
      simp only [Bool.false_eq_true, if_false, ih plain, Option.map_map]
      rfl
  | @literal a rest closed behind ih =>
    obtain ⟨body, rfl, length⟩ := closed
    obtain ⟨inner, rfl⟩ := exists_of_literalLength? length
    simp only [quotesPlainly, Bool.and_eq_true, Bool.not_eq_true', beq_eq_false_iff_ne,
      bne_iff_ne, ← cons_append, dropLast_concat] at plain
    obtain ⟨⟨noEscape, last⟩, plain⟩ := plain
    have text : textOf (.literal ('"' :: (inner ++ ['"'])) :: rest) =
        '"' :: (inner ++ '"' :: textOf rest) := by
      simp [textOf, Part.text]
    have further : cutComment false '\x00' (textOf rest) = _ := ih plain
    rw [text, cutComment_quote noEscape, cutComment_literal length (by simp) last,
      comment?, further]
    simp [cutSlashes, startsSlashes, Function.comp_def, textOf, Part.text]
  | @unclosed a opened =>
    obtain ⟨body, rfl, length⟩ := opened
    have noEscape : prev ≠ '\\' := by simpa [quotesPlainly] using plain
    have text : textOf [.unclosed ('"' :: body)] = '"' :: body := by simp [textOf, Part.text]
    rw [text, cutComment_quote noEscape, cutComment_unclosed length (by simp)]
    rfl

/-- A line is split at the first two slashes that stand outside every literal, and where there are
none there is no comment, unless a quote in front of the comment opens or closes a literal right
behind a backslash. -/
theorem splitComment_outside_literals {line : Text}
    (plain : quotesPlainly false (parts line) = true) :
    splitComment line = ((cutSlashes (parts line)).map fun cut =>
      (Text.trimEnd (textOf cut.1), some (textOf cut.2))).getD (line, none) := by
  have cut : cutComment false '\x00' (textOf (parts line)) = _ :=
    (cut_parts line).cutComment_textOf plain
  rw [textOf, flatMap_text_parts] at cut
  rw [splitComment, cut]
  cases cutSlashes (parts line) <;> rfl

/-- Escaped quotes, slashes in a literal and a backslash in the code. -/
theorem splitComment_outside_literals_escaped :
    let line := "f(\\x, \"a\\\"//\\\\b\") ; // \"c".toList
    quotesPlainly false (parts line) = true ∧
      splitComment line = ("f(\\x, \"a\\\"//\\\\b\") ;".toList, some "// \"c".toList) := by
  intro line
  have plain : quotesPlainly false (parts line) = true := by decide
  exact ⟨plain, (splitComment_outside_literals plain).trans (by decide)⟩

/-- A literal that ends with an escaped backslash is closed, but the comment behind it is not
found. -/
theorem splitComment_misses_comment :
    let line := "\"a\\\\\" // b".toList
    cutSlashes (parts line) =
        some ([.literal "\"a\\\\\"".toList, .code ' '], "// b".toList.map .code) ∧
      splitComment line = (line, none) := by
  decide

end PrimePlus.Lexical
