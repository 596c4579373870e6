import PrimePlus.Proofs.Lexemes
import PrimePlus.Proofs.QualifiedNames
import PrimePlus.Proofs.RenamedTexts

/-!
Names that are replaced a second time, with other numbers for the literals around them.
-/

namespace PrimePlus

open List

open Lexical
open Cursor (between)

variable {t' : Text}

variable {t : Text}

section Names

namespace Regex

theorem OpensPlain.first {r : Regex} {follow : Prop} (opens : r.OpensPlain follow) :
    PlainClass r.first.accepts ∧ (r.first.isNullable → follow) := by
  induction r generalizing follow with
  | empty | assert => exact ⟨by simp [PlainClass, Regex.first], fun _ => opens⟩
  | one accepts => exact ⟨opens, fun nullable => by cases nullable⟩
  | seq left right ihLeft ihRight =>
    obtain ⟨hp, goesOn⟩ := ihLeft opens
    unfold Regex.first First.seq
    split
    · next nullable =>
      obtain ⟨plain', ends⟩ := ihRight (goesOn nullable)
      exact ⟨fun c acc => (Bool.or_eq_true_iff.mp acc).elim (hp c) (plain' c), ends⟩
    · next reads => exact ⟨hp, fun nullable => absurd nullable reads⟩
  | alt left right ihLeft ihRight =>
    obtain ⟨hp, ends⟩ := ihLeft opens.1
    obtain ⟨plain', ends'⟩ := ihRight opens.2
    exact ⟨fun c acc => (Bool.or_eq_true_iff.mp acc).elim (hp c) (plain' c),
      fun nullable => (Bool.or_eq_true_iff.mp nullable).elim ends ends'⟩
  | many greedy b ih =>
    obtain ⟨hp, ends⟩ := ih opens
    exact ⟨hp, fun nullable => (ends nullable).elim⟩
  | capture index b ih => exact ih opens

theorem StartsPlain.of_opensPlain {r : Regex} (opens : r.OpensPlain False) : r.StartsPlain :=
  ⟨Bool.eq_false_iff.mpr fun nullable => opens.first.2 nullable, opens.first.1⟩

end Regex

open Regex

theorem Pattern.opensPlain_nameRegexIn {namespaces : List Text}
    (spaces : ∀ space ∈ namespaces, IsPlainText space)
    (hp : IsPlainText (unqualified namespaces t)) {follow : Prop}
    (ends : unqualified namespaces t = [] → follow) :
    (nameRegexIn namespaces t).OpensPlain follow := by
  have edge {t : Text} {r : Regex} (opens : r.OpensPlain follow) :
      (edged t r).OpensPlain follow := by
    unfold edged
    split <;> split <;> exact opens
  unfold nameRegexIn
  split
  · next bare =>
    rw [List.isEmpty_iff.mp bare] at hp ends
    exact edge (opensPlain_text hp ends)
  · refine edge ⟨?_, opensPlain_text hp ends⟩
    exact opensPlain_any (forall_mem_map.mpr fun space hi =>
      opensPlain_text (spaces space hi) fun _ => opensPlain_text (by decide) (by simp))

/-- Whether an expression is found at corresponding places of texts that differ in what stands in
quotes. -/
structure Regex.IsUniform (R : Text → Text → Prop) (r : Regex) : Prop where
  starts : r.StartsPlain
  agrees : r.Agrees R
  skips : Throughout r.Skips R

end Names

namespace Alias

variable {R : Text → Text → Prop}

section Calls

variable {r : Regex} {pre before' after after' : Text}

/-- Whether two calls correspond to each other: the texts in front of them, what they hold and what
stands behind them are the same but for the numbers of placeholders. -/
structure SameCall (R : Text → Text → Prop) (before before' after after' : Text)
    (call call' : Call) : Prop where
  lead : Renamed R call.lead call'.lead
  inside : Renamed R call.inside call'.inside
  shorter : call.inside.length < after.length
  shorter' : call'.inside.length < after'.length
  behind : ∃ passed passed' rest rest', passed ≠ [] ∧ passed' ≠ [] ∧ after = passed ++ rest ∧
    after' = passed' ++ rest' ∧ Renamed R passed passed' ∧ Renamed R rest rest' ∧
    call.after = between (before ++ passed) rest ∧ call'.after = between (before' ++ passed') rest'

theorem closingOffset?_renamed {c : Char} {tl rest' : Text} (hp : isPlain c)
    (level : Throughout IsLevel R) (renamed : Renamed R tl rest') :
    Option.Rel (fun n n' => ∃ a inside' tail tail', tl = a ++ ')' :: tail ∧
        rest' = inside' ++ ')' :: tail' ∧ n = a.length + 1 ∧ n' = inside'.length + 1 ∧
        Renamed R a inside' ∧ Renamed R tail tail')
      (closingOffset? 0 (c :: tl)) (closingOffset? 0 (c :: rest')) := by
  rcases rel_cases ((Renamed.char hp renamed).closingOffset? level 0) with
    ⟨opened, opened'⟩ | ⟨_, _, hc, closed', held, held', tail, tail', whole, whole', rfl, rfl, a, v⟩
  · rw [opened, opened']
    exact .none
  · rw [hc, closed']
    refine .some ?_
    obtain ⟨_, _, -, long⟩ := exists_of_closingOffset? hc
    obtain ⟨_, _, -, long'⟩ := exists_of_closingOffset? closed'
    obtain ⟨d, held, rfl⟩ := exists_cons_of_length_pos (by omega : 0 < held.length)
    obtain ⟨d', held', rfl⟩ := exists_cons_of_length_pos (by omega : 0 < held'.length)
    obtain ⟨rfl, rfl⟩ := cons.inj whole
    obtain ⟨rfl, rfl⟩ := cons.inj whole'
    exact ⟨held, held', tail, tail', rfl, rfl, rfl, rfl, a.of_cons hp, v⟩

theorem findCall?_eq {lead read tl : Text} {last : Char}
    (hit : r.findFrom pre.length pre.reverse (lead ++ (read ++ last :: tl)) =
      some ⟨between (pre ++ lead) (read ++ last :: tl),
        between (pre ++ lead ++ (read ++ [last])) tl, []⟩) :
    findCall? (.regex r) (between pre (lead ++ (read ++ last :: tl))) =
      if 0x7F < last.toNat then none else (closingOffset? 0 (last :: tl)).map fun n =>
        ⟨lead, ((last :: tl).take n).drop 1,
          ⟨(pre ++ lead ++ (read ++ [last])).length + n,
            (tl.take n).reverse ++ (pre ++ lead ++ (read ++ [last])).reverse, tl.drop n⟩⟩ := by
  have search : Finder.findFrom (between pre (lead ++ (read ++ last :: tl))).index
      (between pre (lead ++ (read ++ last :: tl))).before
      (between pre (lead ++ (read ++ last :: tl))).after (.regex r) = _ := hit
  have back : (between (pre ++ lead ++ (read ++ [last])) tl).before =
      last :: (pre ++ lead ++ read).reverse := by
    simp [between]
  unfold findCall?
  rw [search, Option.bind_some]
  split
  · next missed =>
    rw [back] at missed
    cases missed
  · next eq =>
    rw [back] at eq
    cases eq
    rw [Cursor.spanTo_between]
    rfl

theorem findCall?_renamed (uniform : r.IsUniform R) (shut : Throughout IsShut R)
    (level : Throughout IsLevel R) (earlier : pre.getLast? = before'.getLast?)
    (renamed : Renamed R after after') :
    Option.Rel (SameCall R pre before' after after') (findCall? (.regex r) (between pre after))
      (findCall? (.regex r) (between before' after')) := by
  rcases rel_cases (uniform.starts.findFrom_renamed uniform.agrees shut uniform.skips earlier
      renamed) with
    ⟨missed, missed'⟩ | ⟨_, _, hit, found', lead, lead', _, _, rfl, rfl, passed, read, tl, rest',
      ne, plain, rfl, rfl, more, rfl, rfl⟩
  · have absent {pre after : Text} (missed : r.findFrom pre.length pre.reverse after = none) :
        findCall? (.regex r) (between pre after) = none := by
      exact congrArg (Option.bind · _) missed
    rw [absent missed, absent missed']
    exact .none
  · obtain ⟨front, last, rfl⟩ : ∃ front last, read = front ++ [last] :=
      ⟨read.dropLast, read.getLast ne, (dropLast_append_getLast ne).symm⟩
    have hs : isPlain last := plain last (by simp)
    rw [append_assoc, singleton_append] at hit found' ⊢
    rw [append_assoc, singleton_append, findCall?_eq hit, findCall?_eq found']
    split
    · exact .none
    refine rel_map (closingOffset?_renamed hs level more) ?_
    rintro _ _ ⟨a, inside', tail, tail', rfl, rfl, rfl, rfl, held, behind⟩
    have hc : IsPlainText [')'] := by decide
    have place (front a tail : Text) :
        (⟨front.length + (a.length + 1),
          ((a ++ ')' :: tail).take (a.length + 1)).reverse ++ front.reverse,
          (a ++ ')' :: tail).drop (a.length + 1)⟩ : Cursor) =
          between (front ++ (a ++ [')'])) tail := by
      rw [← @singleton_append _ ')' tail, ← append_assoc a, take_left' (by simp)]
      simp [between]
    refine ⟨passed, by simpa using held, by simp; omega, by simp; omega,
      lead ++ (front ++ [last]) ++ (a ++ [')']), lead' ++ (front ++ [last]) ++ (inside' ++ [')']),
      tail, tail', by simp, by simp, by simp, by simp,
      (passed.append (.of_plain plain)).append (held.append (.of_plain hc)), behind,
      ?_, ?_⟩
    · simpa using place (pre ++ lead ++ (front ++ [last])) a tail
    · simpa using place (before' ++ lead' ++ (front ++ [last])) inside' tail'

end Calls

section Arguments

variable {α β : Type} {P : α → β → Prop} {list' : List β} {xs : List α}

theorem forall₂_insertBySize {size : α → Nat} {size' : β → Nat}
    (eq : ∀ a b, P a b → size a = size' b) {a : α} {b : β} (first : P a b)
    (tl : Forall₂ P xs list') :
    Forall₂ P (insertBySize size a xs) (insertBySize size' b list') := by
  induction tl with
  | nil => exact .cons first .nil
  | @cons c d _ _ next tl ih =>
    unfold insertBySize
    rw [eq a b first, eq c d next]
    split
    · exact .cons next ih
    · exact .cons first (.cons next tl)

theorem rel_find? {test : α → Bool} {test' : β → Bool} (eq : ∀ a b, P a b → test a = test' b)
    (hr : Forall₂ P xs list') : Option.Rel P (xs.find? test) (list'.find? test') := by
  induction hr with
  | nil => exact .none
  | @cons a b _ _ first _ ih =>
    rw [find?_cons, find?_cons, eq a b first]
    cases test' b with
    | true => exact .some first
    | false => exact ih

def SameArgument (R : Text → Text → Prop) (entry entry' : Text × Text) : Prop :=
  entry.1 = entry'.1 ∧ Renamed R entry.2 entry'.2

variable {parameters parameters' : List (Text × Text)} {t : Text}

theorem orderedParameters_renamed (eq : Forall₂ (SameArgument R) parameters parameters') :
    Forall₂ (SameArgument R) (orderedParameters parameters) (orderedParameters parameters') :=
  rel_foldl (fun _ _ ordered _ _ e =>
    forall₂_insertBySize (fun _ _ both => by rw [both.1]) e ordered) .nil eq

def parameterRegexes (parameters : List (Text × Text)) : Regex :=
  Regex.any ((orderedParameters parameters).map fun entry => parameterRegex entry.1)

theorem substitute_renamed (eq : Forall₂ (SameArgument R) parameters parameters')
    (replaced : ∀ image image' : Match → Text,
      (∀ hit found' : Match, hit.text = found'.text → IsPlainText hit.text →
        Renamed R (image hit) (image' found')) →
      Renamed R ((parameterRegexes parameters).replaceAll t image)
        ((parameterRegexes parameters).replaceAll t image')) :
    Renamed R (substitute parameters t) (substitute parameters' t) := by
  have ordered := orderedParameters_renamed eq
  have names : (orderedParameters parameters).map (fun e => parameterRegex e.1) =
      (orderedParameters parameters').map fun e => parameterRegex e.1 := by
    rw [← forall₂_eq_eq_eq, forall₂_map_left_iff, forall₂_map_right_iff]
    exact ordered.imp fun _ _ both => congrArg parameterRegex both.1
  unfold substitute
  dsimp only
  rw [← names]
  refine replaced _ _ fun hit found' shows hs => ?_
  have chosen := rel_find? (fun e entry' (both : SameArgument R e entry') =>
      show (e.1 == hit.text) = (entry'.1 == found'.text) by rw [both.1, shows])
    (forall₂_reverse_iff.mpr ordered)
  rcases rel_cases chosen with ⟨missed, missed'⟩ | ⟨e, entry', here, here', both⟩
  · rw [missed, missed', ← shows]
    exact .of_plain hs
  · rw [here, here']
    exact both.2

/-- Whether the replacement of an identity is the same for texts that correspond, also where
parameters in it are given corresponding arguments. -/
structure Identity.IsCopied (R : Text → Text → Prop) (identity : Identity) : Prop where
  real : Renamed R identity.real identity.real
  filled {parameters parameters' : List (Text × Text)}
    (names : ∀ entry ∈ parameters, entry.1 ∈ identity.parameters)
    (same : Forall₂ (SameArgument R) parameters parameters') :
    Renamed R (substitute parameters identity.real) (substitute parameters' identity.real)

variable {ident : Identity}

theorem Identity.isCopied_of_isPlainText (hp : IsPlainText ident.real) : ident.IsCopied R :=
  ⟨.of_plain hp, fun _ eq => substitute_renamed eq fun _ _ images =>
    Regex.replaceAll_rel_of_isPlainText _ .nil .char (fun hs => (images _ _ rfl hs).append) hp⟩

theorem applyCall_renamed (copied : ident.IsCopied R) (loc loc' : Location)
    {args arguments' : List Text} (eq : Forall₂ (Renamed R) args arguments') :
    Renamed R (applyCall ident loc args).1 (applyCall ident loc' arguments').1 := by
  have zipped (names : List Text) :
      Forall₂ (SameArgument R) (names.zip args) (names.zip arguments') := by
    induction eq generalizing names with
    | nil => cases names <;> exact .nil
    | cons first _ ih =>
      cases names with
      | nil => exact .nil
      | cons n names => exact .cons ⟨rfl, first⟩ (ih names)
  unfold applyCall
  rw [eq.length_eq]
  split
  · exact copied.filled (fun e mem => (of_mem_zip mem).1) (zipped ident.parameters)
  · exact copied.real

end Arguments

section Passes

variable {r : Regex}

variable {ident : Identity} {namespaces : List Text}

/-- Calls are replaced in the same way. The bounds on the steps may differ, as placeholders of
different numbers have different lengths. -/
theorem expandFrom_renamed (uniform : r.IsUniform R) (shut : Throughout IsShut R)
    (level : Throughout IsLevel R) (copied : ident.IsCopied R) (loc loc' : Location)
    {fuel fuel' : Nat} {pre before' after after' : Text} (enough : after.length < fuel)
    (enough' : after'.length < fuel') (earlier : pre.getLast? = before'.getLast?)
    (renamed : Renamed R after after') :
    Renamed R (expandFrom ident (.regex r) loc fuel (between pre after)).1
      (expandFrom ident (.regex r) loc' fuel' (between before' after')).1 := by
  induction fuel generalizing fuel' pre before' after after' with
  | zero => exact absurd enough (Nat.not_lt_zero _)
  | succ fuel ih =>
    obtain ⟨fuel', rfl⟩ := Nat.exists_eq_succ_of_ne_zero (Nat.ne_zero_of_lt enough')
    unfold expandFrom
    rcases rel_cases (findCall?_renamed uniform shut level earlier renamed) with
      ⟨missed, missed'⟩ | ⟨call, call', hit, found', eq⟩
    · rw [missed, missed']
      exact renamed
    · rw [hit, found']
      obtain ⟨passed, passed', tl, rest', ne, some'', rfl, rfl, front, behind, place, place'⟩ :=
        eq.behind
      dsimp only
      rw [place, place']
      have shorter := length_pos_of_ne_nil ne
      have shorter' := length_pos_of_ne_nil some''
      have hi := eq.shorter
      have inside' := eq.shorter'
      rw [length_append] at enough enough' hi inside'
      have last : (pre ++ passed).getLast? = (before' ++ passed').getLast? := by
        rw [getLast?_append, getLast?_append, front.getLast?_eq shut, earlier]
      have arguments := forall₂_iff_zip.mp (eq.inside.splitArguments level)
      refine (eq.lead.append (applyCall_renamed copied loc loc' ?_)).append
        (ih (by omega) (by omega) last behind)
      rw [map_map, map_map, forall₂_map_left_iff, forall₂_map_right_iff, forall₂_iff_zip]
      refine ⟨arguments.1, fun {argument argument'} mem => ?_⟩
      have held := (infix_trim_of_mem_splitArguments (of_mem_zip mem).1).length_le
      have held' := (infix_trim_of_mem_splitArguments (of_mem_zip mem).2).length_le
      exact @ih fuel' [] [] _ _ (by omega) (by omega) rfl ((arguments.2 mem).trim shut)

/-- Whether an entry of a table does the same to texts that correspond. The parentheses of a call
are looked for in what stands in quotes too. -/
structure Entry.IsUniform (R : Text → Text → Prop) (entry : Entry) : Prop where
  finder : ∃ r : Regex, entry.finder = .regex r ∧ r.IsUniform R
  copied : entry.identity.IsCopied R
  level : entry.identity.isCall = true → Throughout IsLevel R

theorem Entry.resolve_renamed {e : Entry} (uniform : e.IsUniform R)
    (shut : Throughout IsShut R) (loc loc' : Location) (renamed : Renamed R t t') :
    Renamed R (e.resolve loc t).1 (e.resolve loc' t').1 := by
  obtain ⟨r, finder, hit⟩ := uniform.finder
  unfold resolve
  have eq : e.finder.isMatch t = e.finder.isMatch t' := by
    rw [finder]
    exact hit.starts.isMatch_renamed hit.agrees shut hit.skips renamed
  rw [eq, finder]
  split
  · exact renamed
  · split
    · next called =>
      have start : ([] : Text).getLast? = ([] : Text).getLast? := rfl
      exact expandFrom_renamed hit shut (uniform.level called) uniform.copied loc loc'
        (Nat.lt_succ_self _) (Nat.lt_succ_self _) start renamed
    · exact hit.starts.replaceAll_renamed hit.agrees shut hit.skips
        (fun _ _ => id) (fun _ _ _ _ => uniform.copied.real) renamed

theorem Table.renamed_resolveOnce {tbl : Table} (shut : Throughout IsShut R)
    (uniform : ∀ e ∈ tbl.entries, e.IsUniform R) (loc loc' : Location)
    (renamed : Renamed R t t') :
    Renamed R (tbl.resolveOnce loc t).1 (tbl.resolveOnce loc' t').1 := by
  have run (entries : List Entry) (hi : entries ⊆ tbl.entries) :
      Renamed R (entries.foldl (fun t e => (e.resolve loc t).1) t)
        (entries.foldl (fun t e => (e.resolve loc' t).1) t') := by
    induction entries generalizing t t' with
    | nil => exact renamed
    | cons e entries ih =>
      exact ih (Entry.resolve_renamed (uniform e (hi mem_cons_self)) shut loc
        loc' renamed) fun other later => hi (mem_cons_of_mem e later)
  rw [resolveOnce_text, resolveOnce_text]
  exact run tbl.entries (Subset.refl _)

/-- Whether an identity is found by plain characters and replaced by plain ones. A name that is left
empty by a namespace in use is found by the parenthesis of its call only. -/
def Identity.IsLegible (namespaces : List Text) (identity : Identity) : Prop :=
  match Pattern.parse identity.identifier with
  | .name t => IsPlainText t ∧ IsPlainText identity.real ∧
    (identity.isCall = true ∨ Pattern.unqualified namespaces t ≠ [])
  | .verbatim _ => False

instance (namespaces : List Text) (identity : Identity) :
    Decidable (identity.IsLegible namespaces) := by
  unfold Identity.IsLegible
  exact match Pattern.parse identity.identifier with
    | .name _ => inferInstance
    | .verbatim _ => inferInstance

def Identity.HasLegibleName (namespaces : List Text) (identity : Identity) : Prop :=
  { identity with real := [] }.IsLegible namespaces

instance (namespaces : List Text) (identity : Identity) :
    Decidable (identity.HasLegibleName namespaces) :=
  inferInstanceAs (Decidable ({ identity with real := [] }.IsLegible namespaces))

theorem Identity.IsLegible.hasLegibleName (legible : ident.IsLegible namespaces) :
    ident.HasLegibleName namespaces ∧ IsPlainText ident.real := by
  unfold HasLegibleName
  unfold IsLegible at legible ⊢
  dsimp only
  split at legible
  · exact ⟨⟨legible.1, by simp [IsPlainText], legible.2.2⟩, legible.2.1⟩
  · exact legible.elim

theorem Identity.HasLegibleName.finder (hn : ident.HasLegibleName namespaces)
    (spaces : ∀ space ∈ namespaces, IsPlainText space) {finder : Finder}
    (hit : ident.finder? namespaces = some finder) :
    ∃ r : Regex, finder = .regex r ∧ r.StartsPlain ∧ ∀ R, r.Agrees R := by
  unfold HasLegibleName IsLegible at hn
  unfold finder? at hit
  split at hn
  · next t parsed =>
    obtain ⟨hp, -, ends⟩ := hn
    have base := hp.subset (Pattern.unqualified_suffix namespaces t).subset
    rw [parsed] at hit
    cases hit
    refine ⟨_, rfl, ?_⟩
    split
    · refine ⟨.of_opensPlain ?_, fun _ => (Regex.Agrees.nameRegexIn spaces base).call⟩
      have paren : (Regex.char '(').OpensPlain False := (Regex.plainClass_beq '(').mpr (by decide)
      exact Pattern.opensPlain_nameRegexIn spaces base fun _ => ⟨Regex.plainClass_isBlank, paren⟩
    · next bare =>
      exact ⟨.of_opensPlain (Pattern.opensPlain_nameRegexIn spaces base (ends.resolve_left bare)),
        fun _ => .nameRegexIn spaces base⟩
  · exact hn.elim

@[mk_iff] structure Table.IsLegible (table : Table) : Prop where
  spaces : ∀ space ∈ table.namespaceNames, IsPlainText space
  identities : ∀ identity ∈ table.identities, identity.IsLegible table.namespaceNames

instance (table : Table) : Decidable table.IsLegible :=
  @decidable_of_iff _ _ table.isLegible_iff.symm
    (@instDecidableAnd _ _ (decidableBAll _ _) (decidableBAll _ _))

end Passes

end Alias

section Restoration

variable {store other : Store} {t : Text}

/-- Whether two stores hold one literal under the numbers of two placeholders, of which what follows
the quote is given. -/
def Lexical.SameLiteral (store other : Store) (body body' : Text) : Prop :=
  ∃ index index' a, store[index]? = some a ∧ other[index']? = some a ∧
    placeholder index = '"' :: body ∧ placeholder index' = '"' :: body'

theorem Lexical.throughout_sameLiteral {P : Text → Prop}
    (all : ∀ index b, placeholder index = '"' :: b → P b) :
    Throughout P (SameLiteral store other) := by
  rintro b body' ⟨index, index', a, -, -, written, written'⟩
  exact ⟨all index b written, all index' body' written'⟩

variable {index : Nat} {t' : Text}

theorem Lexical.isShut_of_placeholder {body : Text} (written : placeholder index = '"' :: body) :
    IsShut body := by
  rw [placeholder_eq] at written
  rw [IsShut, ← (cons.inj written).2]
  simp [getLast?_cons]

theorem Lexical.not_isPlain_of_placeholder {b : Text}
    (written : placeholder index = '"' :: b) : ∀ c ∈ b, isPlain c = false :=
  fun _ mem => not_isPlain_of_mem_placeholder (written ▸ mem_cons_of_mem _ mem)

theorem Lexical.Renamed.placeholder {index' : Nat} {a t : Text} (here : store[index]? = some a)
    (there : other[index']? = some a) (tl : Renamed (SameLiteral store other) t t') :
    Renamed (SameLiteral store other) (Lexical.placeholder index ++ t)
      (Lexical.placeholder index' ++ t') := by
  have written (index : Nat) : ∃ body, Lexical.placeholder index = '"' :: body :=
    ⟨_, placeholder_eq index⟩
  obtain ⟨body, first⟩ := written index
  obtain ⟨body', second⟩ := written index'
  rw [first, second]
  exact .held ⟨index, index', a, here, there, first, second⟩ tl

theorem Lexical.Renamed.restore_eq {t : Text} (renamed : Renamed (SameLiteral store other) t t') :
    restore store t = restore other t' := by
  induction renamed with
  | nil => rfl
  | char hp _ ih =>
    have ha := ne_quote_of_isPlain hp
    rw [restore_cons_of_ne _ ha, restore_cons_of_ne _ ha, ih]
  | held hr _ ih =>
    obtain ⟨index, index', a, here, there, written, written'⟩ := hr
    rw [← cons_append, ← cons_append, ← written, ← written', restore_placeholder_append,
      restore_placeholder_append, here, there, ih, Option.getD_some, Option.getD_some]

theorem Lexical.Sealed.renamed (sealed : Sealed store.length t) :
    Renamed (SameLiteral store store) t t := by
  induction sealed with
  | nil => exact .nil
  | char hp _ ih => exact .char hp ih
  | held stored _ ih =>
    have here := getElem?_eq_getElem stored
    exact .placeholder here here ih

theorem Lexical.Renamed.sealed (renamed : Renamed (SameLiteral store other) t t') :
    Sealed other.length t' := by
  induction renamed with
  | nil => exact .nil
  | char hp _ ih => exact .char hp ih
  | held hr _ ih =>
    obtain ⟨index, index', a, -, there, -, written⟩ := hr
    rw [← cons_append, ← written]
    exact .held (List.getElem?_eq_some_iff.mp there).1 ih

def Lexical.Store.IsSound (store : Store) : Prop :=
  ∀ a ∈ store, IsLiteral a ∧ marker ∉ a

/-- A text that is restored and protected again has its placeholders under other numbers. -/
theorem Lexical.Sealed.renamed_protect_restore (sealed : Sealed other.length t)
    (sound : Store.IsSound other) (store : Store) :
    Renamed (SameLiteral (protect store (restore other t)).2 other)
      (protect store (restore other t)).1 t := by
  unfold protect
  induction sealed generalizing store with
  | nil => exact .nil
  | char hp _ ih =>
    have ha := ne_quote_of_isPlain hp
    rw [restore_cons_of_ne _ ha, parts_cons_of_ne ha]
    exact .char hp (ih store)
  | @held index t hi _ ih =>
    obtain ⟨literal, hu⟩ := sound _ (getElem_mem hi)
    rw [restore_placeholder_append, getElem?_eq_getElem hi, Option.getD_some,
      parts_literal_append literal, protectParts_literal store hu]
    refine .placeholder ?_ (getElem?_eq_getElem hi) (ih (store ++ [other[index]]))
    obtain ⟨further, eq⟩ := prefix_protectParts (store ++ [other[index]]) (parts (restore other t))
    rw [← eq]
    simp

theorem Lexical.Store.isSound_protect (hu : marker ∉ t) : IsSound (protect [] t).2 := by
  have each {xs : List Part} (cut : Cut xs) (free : ∀ part ∈ xs, marker ∉ part.text)
      (store : Store) (sound : IsSound store) : IsSound (protectParts store xs).2 := by
    induction cut generalizing store with
    | nil => exact sound
    | code _ _ ih => exact ih (forall_mem_cons.mp free).2 store sound
    | @literal a tl literal _ ih =>
      have first : marker ∉ a := free (.literal a) mem_cons_self
      rw [protectParts_literal store first]
      exact ih (forall_mem_cons.mp free).2 (store ++ [a])
        (forall_mem_append.mpr ⟨sound, forall_mem_singleton.mpr ⟨literal, first⟩⟩)
    | unclosed => exact sound
  exact each (cut_parts t) (unmarked_of_mem_parts hu) [] (by simp [IsSound])

end Restoration

theorem settle_isFixed {pass : Text → Reported Text} {limit : Nat}
    (fixed : (settle pass limit t).isFixed) :
    (pass (settle pass limit t).text).1 = (settle pass limit t).text := by
  induction limit generalizing t with
  | zero => cases fixed
  | succ limit ih =>
    unfold settle at fixed ⊢
    dsimp only at fixed ⊢
    split
    · next eq => exact eq
    · next changed =>
      rw [if_neg changed] at fixed
      exact ih fixed

namespace Alias.Table

variable {tbl : Table}

section

variable {store : Store}

variable (legible : tbl.IsLegible)

include legible

theorem IsLegible.renamed_resolveOnce (hc : tbl.IsCompiled) (loc loc' : Location)
    {other : Store} (renamed : Renamed (SameLiteral store other) t t') :
    Renamed (SameLiteral store other) (tbl.resolveOnce loc t).1 (tbl.resolveOnce loc' t').1 := by
  refine Table.renamed_resolveOnce (throughout_sameLiteral fun _ _ => isShut_of_placeholder)
    (fun e mem => ?_) loc loc' renamed
  obtain ⟨finder, hit, eq⟩ := Option.map_eq_some_iff.mp (hc e mem)
  obtain ⟨hn, real⟩ := (legible.identities _ (mem_map_of_mem mem)).hasLegibleName
  obtain ⟨r, regex, starts, agrees⟩ := hn.finder legible.spaces hit
  exact ⟨⟨r, (congrArg Entry.finder eq).symm.trans regex, starts, agrees _,
      throughout_sameLiteral fun _ _ written =>
        starts.skips (not_isPlain_of_placeholder written)⟩,
    Identity.isCopied_of_isPlainText real, fun _ => throughout_sameLiteral
      fun _ _ written => isLevel_of_not_isPlain (not_isPlain_of_placeholder written)⟩

theorem IsLegible.sealed_resolveOnce (hc : tbl.IsCompiled) (loc : Location)
    (sealed : Sealed store.length t) :
    Sealed store.length (tbl.resolveOnce loc t).1 :=
  (legible.renamed_resolveOnce hc loc loc sealed.renamed).sealed

/-- Once a pass over a protected text changes nothing, protecting the restored text anew and
replacing names in it comes to the same text. -/
theorem IsLegible.resolve_restore (hc : tbl.IsCompiled) (loc : Location)
    (sound : store.IsSound) (sealed : Sealed store.length t)
    (fixed : (tbl.resolveOnce loc t).1 = t) (loc' : Location) :
    (tbl.resolve loc' (restore store t)).1 = restore store t := by
  unfold resolve
  split
  · rfl
  · have start := sealed.renamed_protect_restore sound []
    generalize protect [] (restore store t) = again at start ⊢
    -- as the text itself is fixed, each pass stays at a text that differs from it in numbers only
    have step (next : Text) (eq : Renamed (SameLiteral again.2 store) next t) :
        Renamed (SameLiteral again.2 store) (tbl.resolveOnce loc' next).1 t := by
      have pass := legible.renamed_resolveOnce hc loc' loc eq
      rwa [fixed] at pass
    exact (settle_text step tbl.maxPasses start).restore_eq

theorem IsLegible.exists_of_resolve (compiled : tbl.IsCompiled) (loc : Location)
    (hu : Unmarked t) (hc : Lexical.IsClosed t)
    (works : ¬(Text.isBlankText t || tbl.entries.isEmpty))
    (settles : (Error.substitutionLoop t tbl.maxPasses).diagnostic loc ∉ (tbl.resolve loc t).2) :
    ∃ settled store, (tbl.resolveOnce loc settled).1 = settled ∧
      Sealed store.length settled ∧ store.IsSound ∧
      (tbl.resolve loc t).1 = restore store settled := by
  unfold resolve at settles ⊢
  rw [if_neg works] at settles ⊢
  dsimp only at settles ⊢
  refine ⟨_, _, settle_isFixed ?_, ?_, Store.isSound_protect (unmarked_not_mem hu), rfl⟩
  · by_contra changing
    rw [if_neg changing] at settles
    exact settles (mem_append_right _ mem_cons_self)
  · exact settle_text (fun _ => legible.sealed_resolveOnce compiled loc) tbl.maxPasses
      (sealed_protect hu hc)

end

/-- Replacing names a second time changes nothing. This is so for every table that operations lead
to, as long as its names, replacements and namespaces are plain and no name but that of a call is
left empty, and for every text whose literals are closed: where no loop is reported, the text that
comes out is one that comes out of itself. -/
theorem resolve_resolve (maxPasses : Nat) (operations : List Operation)
    (location location' : Location) (t : Text) :
    let table := (Chronicle.replay maxPasses operations).table
    table.IsLegible → Unmarked t → Lexical.IsClosed t →
      (Error.substitutionLoop t table.maxPasses).diagnostic location ∉
        (table.resolve location t).2 →
      (table.resolve location' (table.resolve location t).1).1 = (table.resolve location t).1 := by
  intro table legible unmarked closed settles
  have compiled := (Chronicle.wellFormed_replay maxPasses operations).1.compiled
  by_cases idle : (Text.isBlankText t || table.entries.isEmpty) = true
  · have same (location : Location) : table.resolve location t = (t, []) := if_pos idle
    rw [same location, same location']
  · obtain ⟨text, store, fixed, sealed, sound, first⟩ := legible.exists_of_resolve compiled location
      unmarked closed idle settles
    rw [first]
    exact legible.resolve_restore compiled location sound sealed fixed location'

/-- A macro that drops one of its literals, repeats another and changes their order, beside a name
in a namespace in use. -/
theorem resolve_resolve_reordered :
    let operations : List Operation := [
      .append default { identifier := "PICK".toList, real := "b+a+b".toList,
                        parameters := ["a".toList, "b".toList, "c".toList] },
      .append default { identifier := "N::one".toList, real := "1".toList },
      .addNamespace "N".toList 0]
    let table := (Chronicle.replay 8 operations).table
    let t := "PICK(\"p\", \"one\", \"r\") + one".toList
    let picked := "\"one\"+\"p\"+\"one\" + 1".toList
    (table.resolve {} t).1 = picked ∧ (table.resolve {} picked).1 = picked := by
  intro operations table t picked
  have first : table.resolve {} t = (picked, []) := by decide +kernel
  have second : (table.resolve {} (table.resolve {} t).1).1 = (table.resolve {} t).1 :=
    resolve_resolve 8 operations {} {} t (by decide +kernel) (by decide) (by decide)
      (by rw [first]; decide)
  rw [first] at second
  exact ⟨congrArg Prod.fst first, second⟩

/-- A name that is an underscore only becomes the empty name of a member. As it is found inside
placeholders too, these are taken apart, and what is left of their numbers is not what a second
replacement leaves. -/
theorem empty_name_cuts_placeholders :
    let operations : List Operation := [
      .append default { identifier := "F".toList, real := [], parameters := ["x".toList] },
      .append default { identifier := ";".toList, real := [] },
      .append default { identifier := "_".toList, real := ";".toList }]
    let table := (Chronicle.replay 8 operations).table
    let t := "F(\"a\")\"b\"".toList
    let once := table.resolve {} t
    (∀ identity ∈ table.identities,
      IsPlainText identity.identifier ∧ IsPlainText identity.real) ∧ table.namespaces = [] ∧
      Unmarked t ∧ Lexical.IsClosed t ∧ once.2 = [] ∧
      (table.resolve {} once.1).1 ≠ once.1 := by
  decide +kernel

end Alias.Table

end PrimePlus
