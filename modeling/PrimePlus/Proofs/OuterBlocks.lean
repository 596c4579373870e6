import PrimePlus.Proofs.MinifySeams

/-!
The outermost blocks of a text: the words between which a `BEGIN` is closed, and the `BEGIN`s that
are never closed. -/

namespace PrimePlus.Lexical

open List

def BlockToken.Begins (token : BlockToken) : Prop :=
  token.effect = .opens ∧ token.word = "BEGIN".toList

def gain (tokens : List BlockToken) : Int :=
  balance (tokens.map BlockToken.effect)

/-- Block words that reach from a `BEGIN` to the word that closes it. -/
structure IsBlock (block : Nat × Nat) (tokens : List BlockToken) : Prop where
  begins : ∃ first ∈ tokens.head?, first.Begins ∧ first.start = block.1
  ends : ∃ last ∈ tokens.getLast?, last.effect = .closes ∧ last.stop = block.2
  level : gain tokens = 0
  inside : ∀ pre, pre <+: tokens → pre ≠ [] → pre ≠ tokens → 0 < gain pre

/-- Block words from a `BEGIN` on that is never closed. -/
structure NeverCloses (tokens : List BlockToken) : Prop where
  begins : ∃ first ∈ tokens.head?, first.Begins
  inside : ∀ pre, pre <+: tokens → pre ≠ [] → 0 < gain pre

/-- The blocks that start among block words: a word starts one that is closed, starts one that is
never closed, or starts none. -/
inductive Outer : List BlockToken → List (Nat × Nat) → Prop
  | nil : Outer [] []
  | other {token : BlockToken} {rest : List BlockToken} {blocks : List (Nat × Nat)}
      (plain : ¬token.Begins) (more : Outer rest blocks) : Outer (token :: rest) blocks
  | closed {block : Nat × Nat} {tokens rest : List BlockToken} {blocks : List (Nat × Nat)}
      (isBlock : IsBlock block tokens) (more : Outer rest blocks) :
      Outer (tokens ++ rest) (block :: blocks)
  | unclosed {tokens : List BlockToken} (never : NeverCloses tokens) : Outer tokens []

section Gain

variable {first : BlockToken} {tokens : List BlockToken} (begins : first.Begins)

theorem gain_cons (token : BlockToken) (tokens : List BlockToken) :
    gain (token :: tokens) = balance [token.effect] + gain tokens :=
  balance_append [token.effect] (tokens.map BlockToken.effect)

theorem gain_append (left right : List BlockToken) :
    gain (left ++ right) = gain left + gain right := by
  rw [gain, map_append, balance_append]
  rfl

include begins

theorem gain_cons_of_begins (tokens : List BlockToken) :
    gain (first :: tokens) = gain tokens + 1 := by
  rw [gain_cons, begins.1, Int.add_comm]
  rfl

theorem neverCloses_cons (stays : ∀ pre, pre <+: tokens → 0 ≤ gain pre) :
    NeverCloses (first :: tokens) := by
  refine ⟨⟨first, rfl, begins⟩, ?_⟩
  intro pre le ne
  rcases prefix_cons_iff.mp le with rfl | ⟨more, rfl, inner⟩
  · exact absurd rfl ne
  · have held := stays more inner
    rw [gain_cons_of_begins begins]
    omega

variable {last token : BlockToken}

theorem isBlock_cons (ends : last.effect = .closes) (level : gain tokens = 0)
    (stays : ∀ pre, pre <+: tokens → 0 ≤ gain pre) :
    IsBlock (first.start, last.stop) (first :: (tokens ++ [last])) := by
  refine ⟨⟨first, rfl, begins, rfl⟩, ⟨last, ?_, ends, rfl⟩, ?_, ?_⟩
  · rw [← cons_append, getLast?_concat]
    rfl
  · rw [gain_cons_of_begins begins, gain_append, level, gain, map_singleton, ends]
    rfl
  · intro pre le ne proper
    rw [← cons_append, prefix_concat_iff] at le
    rcases le with eq | le
    · exact absurd eq proper
    · exact (neverCloses_cons begins stays).inside pre le ne

end Gain

/-- From inside a block either the word is found that closes it or there is none. -/
theorem outerBlocksFrom_cases (start inner : Nat) (tokens : List BlockToken) :
    (∃ held last rest, tokens = held ++ last :: rest ∧ last.effect = .closes ∧ gain held = -inner ∧
        (∀ pre, pre <+: held → -inner ≤ gain pre) ∧
        outerBlocksFrom (some (start, inner)) tokens =
          (start, last.stop) :: outerBlocksFrom none rest) ∨
      (∀ pre, pre <+: tokens → -inner ≤ gain pre) ∧
        outerBlocksFrom (some (start, inner)) tokens = [] := by
  have nil (inner : Nat) : ∀ pre : List BlockToken, pre <+: [] → -(inner : Int) ≤ gain pre := by
    intro pre le
    rw [prefix_nil.mp le]
    exact Int.neg_nonpos_of_nonneg (Int.natCast_nonneg inner)
  induction tokens generalizing inner with
  | nil => exact .inr ⟨nil inner, rfl⟩
  | cons token tokens ih =>
    cases ends : decide (token.effect = .closes ∧ inner = 0) with
    | true =>
      obtain ⟨effect, rfl⟩ := of_decide_eq_true ends
      exact .inl ⟨[], token, tokens, rfl, effect, rfl, nil 0, by simp [outerBlocksFrom, effect]⟩
    | false =>
      -- a word that does not close the block leads to a number of blocks that are open inside it
      obtain ⟨next, step, eq⟩ : ∃ next : Nat, (next : Int) = inner + balance [token.effect] ∧
          outerBlocksFrom (some (start, inner)) (token :: tokens) =
            outerBlocksFrom (some (start, next)) tokens := by
        have opened := of_decide_eq_false ends
        cases effect : token.effect with
        | opens => exact ⟨inner + 1, rfl, by simp [outerBlocksFrom, effect]⟩
        | divides => exact ⟨inner, (Int.add_zero _).symm, by simp [outerBlocksFrom, effect]⟩
        | closes =>
          cases inner with
          | zero => exact absurd ⟨effect, rfl⟩ opened
          | succ inner =>
            exact ⟨inner, (Int.add_neg_cancel_right _ 1).symm, by simp [outerBlocksFrom, effect]⟩
      have front {l : List BlockToken} (held : ∀ pre, pre <+: l → -(next : Int) ≤ gain pre) :
          ∀ pre, pre <+: token :: l → -(inner : Int) ≤ gain pre := by
        intro pre le
        rcases prefix_cons_iff.mp le with rfl | ⟨more, rfl, later⟩
        · exact nil inner [] (prefix_refl [])
        · have further := held more later
          rw [gain_cons]
          omega
      rw [eq]
      rcases ih next with ⟨held, last, rest, rfl, closes, level, inside, found⟩ | ⟨stays, found⟩
      · refine .inl ⟨token :: held, last, rest, rfl, closes, ?_, front inside, found⟩
        rw [gain_cons]
        omega
      · exact .inr ⟨front stays, found⟩

theorem outer_outerBlocksFrom (tokens : List BlockToken) :
    Outer tokens (outerBlocksFrom none tokens) := by
  induction size : tokens.length using Nat.strongRecOn generalizing tokens with
  | ind n ih =>
    cases tokens with
    | nil => exact .nil
    | cons token tokens =>
      rw [length_cons] at size
      unfold outerBlocksFrom
      split
      · next starts =>
        have begins : token.Begins := by simpa [BlockToken.Begins] using starts
        rcases outerBlocksFrom_cases token.start 0 tokens with
          ⟨held, last, rest, rfl, ends, level, inside, found⟩ | ⟨stays, found⟩
        · rw [length_append, length_cons] at size
          have more := ih rest.length (by omega) rest rfl
          have outer := Outer.closed (isBlock_cons begins ends level inside) more
          rwa [cons_append, append_assoc, ← found] at outer
        · rw [found]
          exact .unclosed (neverCloses_cons begins stays)
      · next starts =>
        exact .other (by simpa [BlockToken.Begins] using starts) (ih _ (by omega) tokens rfl)

def BlockToken.within (block : Nat × Nat) (token : BlockToken) : Bool :=
  block.1 ≤ token.start && token.stop ≤ block.2

structure AreInOrder (tokens : List BlockToken) : Prop where
  apart : tokens.Pairwise (fun a b => a.stop ≤ b.start)
  forward : ∀ token ∈ tokens, token.start < token.stop

section InOrder

variable {t : Text} {passed : Nat} {token last : BlockToken} {tokens inner : List BlockToken}
  {block : Nat × Nat}

theorem TokensAt.areInOrder (tokensAt : TokensAt t passed tokens) :
    AreInOrder tokens ∧ ∀ token ∈ tokens, passed ≤ token.start := by
  induction tokensAt with
  | nil => exact ⟨⟨.nil, nofun⟩, nofun⟩
  | cons ordered ends _ filled _ _ ih =>
    obtain ⟨⟨apart, forward⟩, behind⟩ := ih
    have wide := length_pos_of_ne_nil filled
    refine ⟨⟨.cons behind apart, forall_mem_cons.mpr ⟨by omega, forward⟩⟩,
      forall_mem_cons.mpr ⟨ordered, ?_⟩⟩
    intro later mem
    have := behind later mem
    omega

theorem BlocksAt.apart {blocks : List (Nat × Nat)} (blocksAt : BlocksAt t passed blocks) :
    blocks.Pairwise (fun a b => a.2 ≤ b.1) ∧ ∀ block ∈ blocks, passed ≤ block.1 := by
  induction blocksAt with
  | nil => exact ⟨.nil, nofun⟩
  | cons ordered inside _ _ _ ih =>
    refine ⟨.cons ih.2 ih.1, forall_mem_cons.mpr ⟨ordered, ?_⟩⟩
    intro later mem
    have := ih.2 later mem
    omega

theorem AreInOrder.sublist (order : AreInOrder tokens) (le : inner <+ tokens) : AreInOrder inner :=
  ⟨order.apart.sublist le, fun token mem => order.forward token (le.subset mem)⟩

theorem AreInOrder.start_le_of_head? (order : AreInOrder tokens) {first : BlockToken}
    (head : first ∈ tokens.head?) (mem : token ∈ tokens) : first.start ≤ token.start := by
  cases tokens with
  | nil => cases mem
  | cons a tokens =>
    cases head
    rcases mem_cons.mp mem with rfl | later
    · exact Nat.le_refl _
    · have := rel_of_pairwise_cons order.apart later
      have := order.forward first mem_cons_self
      omega

theorem AreInOrder.stop_le_of_getLast? (order : AreInOrder tokens)
    (final : last ∈ tokens.getLast?) (mem : token ∈ tokens) : token.stop ≤ last.stop := by
  obtain ⟨front, rfl⟩ := getLast?_eq_some_iff.mp final
  rcases mem_append.mp mem with earlier | here
  · have := (pairwise_append.mp order.apart).2.2 token earlier last mem_cons_self
    have := order.forward last (by simp)
    omega
  · rw [mem_singleton.mp here]

theorem IsBlock.within (isBlock : IsBlock block tokens) (order : AreInOrder tokens)
    (mem : token ∈ tokens) : block.1 ≤ token.start ∧ token.stop ≤ block.2 := by
  obtain ⟨first, head, -, start⟩ := isBlock.begins
  obtain ⟨last, final, -, stop⟩ := isBlock.ends
  rw [← start, ← stop]
  exact ⟨order.start_le_of_head? head mem, order.stop_le_of_getLast? final mem⟩

theorem IsBlock.forward (isBlock : IsBlock block tokens) (order : AreInOrder tokens) :
    block.1 < block.2 := by
  obtain ⟨first, head, -⟩ := isBlock.begins
  have within := isBlock.within order (mem_of_head? head)
  have wide := order.forward first (mem_of_head? head)
  omega

theorem IsBlock.filter_within {pre post : List BlockToken} (isBlock : IsBlock block inner)
    (order : AreInOrder (pre ++ inner ++ post)) :
    (pre ++ inner ++ post).filter (BlockToken.within block) = inner := by
  obtain ⟨first, head, -, start⟩ := isBlock.begins
  obtain ⟨last, final, -, stop⟩ := isBlock.ends
  obtain ⟨left, -, behind⟩ := pairwise_append.mp order.apart
  obtain ⟨-, -, ahead⟩ := pairwise_append.mp left
  have here : inner.filter (BlockToken.within block) = inner := by
    refine filter_eq_self.mpr fun token mem => ?_
    simpa [BlockToken.within] using isBlock.within (order.sublist (by simp)) mem
  have missed {outside : List BlockToken}
      (apart : ∀ token ∈ outside, token.start < block.1 ∨ block.2 < token.stop) :
      outside.filter (BlockToken.within block) = [] := by
    refine filter_eq_nil_iff.mpr fun token mem => ?_
    have := apart token mem
    simp only [BlockToken.within, Bool.and_eq_true, decide_eq_true_eq]
    omega
  rw [filter_append, filter_append, here, missed, missed, nil_append, append_nil]
  · intro token mem
    have := behind last (mem_append_right pre (mem_of_getLast? final)) token mem
    have := order.forward token (by simp [mem])
    omega
  · intro token mem
    have := ahead token mem first (mem_of_head? head)
    have := order.forward token (by simp [mem])
    omega

end InOrder

section Outer

variable {tokens : List BlockToken} {blocks : List (Nat × Nat)} (outer : Outer tokens blocks)

include outer

theorem Outer.exists_isBlock {block : Nat × Nat} (mem : block ∈ blocks) :
    ∃ pre inner post, tokens = pre ++ inner ++ post ∧ IsBlock block inner := by
  induction outer with
  | nil | unclosed => cases mem
  | @other token _ _ _ _ ih =>
    obtain ⟨pre, inner, post, rfl, found⟩ := ih mem
    exact ⟨token :: pre, inner, post, rfl, found⟩
  | @closed _ tokens rest _ isBlock _ ih =>
    rcases mem_cons.mp mem with rfl | later
    · exact ⟨[], tokens, rest, rfl, isBlock⟩
    · obtain ⟨pre, inner, post, rfl, found⟩ := ih later
      exact ⟨tokens ++ pre, inner, post, by simp, found⟩

theorem Outer.exists_of_begins {token : BlockToken} (mem : token ∈ tokens)
    (begins : token.Begins) :
    (∃ block ∈ blocks, ∃ inner, inner <:+: tokens ∧ IsBlock block inner ∧ token ∈ inner) ∨
      ∃ rest, rest <:+ tokens ∧ NeverCloses rest ∧ token ∈ rest := by
  induction outer with
  | nil => cases mem
  | @other other _ _ plain _ ih =>
    rcases mem_cons.mp mem with rfl | later
    · exact absurd begins plain
    · rcases ih later with ⟨block, found, inner, le, rest⟩ | ⟨rest, le, never⟩
      · exact .inl ⟨block, found, inner, le.trans (suffix_cons other _).isInfix, rest⟩
      · exact .inr ⟨rest, le.trans (suffix_cons other _), never⟩
  | @closed block tokens more _ isBlock _ ih =>
    rcases mem_append.mp mem with here | later
    · exact .inl ⟨block, mem_cons_self, tokens, (prefix_append _ _).isInfix, isBlock, here⟩
    · rcases ih later with ⟨block, found, inner, le, rest⟩ | ⟨rest, le, never⟩
      · exact .inl
          ⟨block, mem_cons_of_mem _ found, inner, le.trans (suffix_append _ _).isInfix, rest⟩
      · exact .inr ⟨rest, le.trans (suffix_append _ _), never⟩
  | @unclosed tokens never => exact .inr ⟨tokens, suffix_refl tokens, never, mem⟩

end Outer

/-- The blocks that are found stand in order. Each reaches from a `BEGIN` to the word that closes
it, and a `BEGIN` outside all of them stands at or behind one that is never closed. -/
theorem outerBlocks_are_outermost (t : Text) :
    (outerBlocks t).Pairwise (fun a b => a.2 ≤ b.1) ∧
      (∀ block ∈ outerBlocks t, block.1 < block.2 ∧
        IsBlock block ((blockTokens t).filter (BlockToken.within block))) ∧
      ∀ token ∈ blockTokens t, token.Begins →
        (∃ block ∈ outerBlocks t, token.within block) ∨
          ∃ rest, rest <:+ blockTokens t ∧ NeverCloses rest ∧
            ∃ first ∈ rest.head?, first.start ≤ token.start := by
  have order := (tokensAt_blockTokens t).areInOrder.1
  have outer := outer_outerBlocksFrom (blockTokens t)
  refine ⟨(blocksAt_outerBlocks t).apart.1, ?_, ?_⟩
  · intro block mem
    obtain ⟨pre, inner, post, eq, isBlock⟩ := outer.exists_isBlock mem
    rw [eq] at order ⊢
    rw [isBlock.filter_within order]
    exact ⟨isBlock.forward (order.sublist (by simp)), isBlock⟩
  · intro token mem begins
    rcases outer.exists_of_begins mem begins with
      ⟨block, found, inner, le, isBlock, inside⟩ | ⟨rest, le, never, inside⟩
    · refine .inl ⟨block, found, ?_⟩
      simpa [BlockToken.within] using isBlock.within (order.sublist le.sublist) inside
    · obtain ⟨first, head, -⟩ := never.begins
      exact .inr
        ⟨rest, le, never, first, head, (order.sublist le.sublist).start_le_of_head? head inside⟩

end PrimePlus.Lexical
