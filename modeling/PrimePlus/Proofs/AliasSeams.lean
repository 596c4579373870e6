import PrimePlus.Proofs.AliasTable
import PrimePlus.Proofs.LiteralProtection
import PrimePlus.Proofs.RuleSeams

/-!
Placeholders while names are replaced (`Alias.Table.sealed_resolve`).
-/

namespace PrimePlus

open List Pattern

open Lexical (isPlain IsPlainText Seamed)

section BetweenPlain

namespace Regex

structure BetweenPlain (r : Regex) : Prop where
  opens : ∀ follow, r.OpensPlain follow
  closes : ∀ lead, r.ClosesPlain lead
  captures : ∀ lead follow, r.SeamsCaptures lead follow

variable {r : Regex} {t : Text}

theorem BetweenPlain.guarded (hb : r.BetweenPlain) : r.Guarded :=
  Regex.guarded ⟨.inr (hb.opens _), .inl (hb.closes _), hb.captures _ _⟩

theorem opensPlain_text (hp : IsPlainText t) {follow : Prop} (ends : t = [] → follow) :
    (text t).OpensPlain follow := by
  cases t with
  | nil => exact ends rfl
  | cons c tl => exact (plainClass_beq c).mpr (hp c mem_cons_self)

theorem closesPlain_text (hp : IsPlainText t) {lead : Prop} (starts : t = [] → lead) :
    (text t).ClosesPlain lead := by
  induction t generalizing lead with
  | nil => exact starts rfl
  | cons c tl ih =>
    exact ih (hp.subset (subset_cons_self c tl)) fun _ =>
      (plainClass_beq c).mpr (hp c mem_cons_self)

theorem seamsCaptures_text (t : Text) (lead follow : Prop) :
    (text t).SeamsCaptures lead follow := by
  induction t generalizing lead with
  | nil => trivial
  | cons c tl ih => exact ⟨trivial, ih _⟩

theorem betweenPlain_text (hp : IsPlainText t) (ne : t ≠ []) : (text t).BetweenPlain :=
  ⟨fun _ => opensPlain_text hp fun missed => absurd missed ne,
    fun _ => closesPlain_text hp fun missed => absurd missed ne, seamsCaptures_text t⟩

theorem BetweenPlain.edged (hb : r.BetweenPlain) : (Pattern.edged t r).BetweenPlain := by
  refine ⟨fun follow => ?_, fun lead => ?_, fun lead follow => ?_⟩ <;>
    unfold Pattern.edged <;> split <;> split
  all_goals first
    | exact hb.opens _
    | exact hb.closes _
    | exact ⟨trivial, hb.captures _ _, trivial⟩

theorem BetweenPlain.optional (hb : r.BetweenPlain) {u : Regex}
    (opens : ∀ follow, u.OpensPlain follow)
    (captures : ∀ lead follow, u.SeamsCaptures lead follow) : (seq (opt u) r).BetweenPlain :=
  ⟨fun _ => ⟨opens _, hb.opens _⟩, fun _ => hb.closes _,
    fun _ _ => ⟨⟨captures _ _, trivial⟩, hb.captures _ _⟩⟩

theorem forall_any {p : Regex → Prop} (missed : p (.one fun _ => false))
    (either : ∀ left right, p left → p right → p (.alt left right)) {xs : List Regex}
    (all : ∀ r ∈ xs, p r) : p (any xs) := by
  induction xs with
  | nil => exact missed
  | cons first tl ih =>
    obtain ⟨one, others⟩ := forall_mem_cons.mp all
    cases tl with
    | nil => exact one
    | cons second tl => exact either _ _ one (ih others)

theorem opensPlain_any {follow : Prop} {xs : List Regex} (all : ∀ r ∈ xs, r.OpensPlain follow) :
    (any xs).OpensPlain follow :=
  forall_any (by simp [PlainClass]) (fun _ _ left right => ⟨left, right⟩) all

end Regex

open Regex

variable {namespaces : List Text}

theorem Pattern.betweenPlain_nameRegexIn {t : Text}
    (spaces : ∀ space ∈ namespaces, IsPlainText space) (ne : unqualified namespaces t ≠ [])
    (hp : IsPlainText (unqualified namespaces t)) : (nameRegexIn namespaces t).BetweenPlain := by
  unfold nameRegexIn
  split
  · next bare =>
    rw [isEmpty_iff.mp bare] at ne hp
    exact (betweenPlain_text hp ne).edged
  · refine ((betweenPlain_text hp ne).optional (fun follow => ?_) fun lead follow => ?_).edged
    · exact opensPlain_any (forall_mem_map.mpr fun space hi =>
        opensPlain_text (spaces space hi) fun _ => opensPlain_text (by decide) (by simp))
    · exact ⟨forall_any (p := fun r => r.SeamsCaptures _ _) trivial
        (fun _ _ left right => ⟨left, right⟩) (forall_mem_map.mpr fun _ _ =>
          seamsCaptures_text _ _ _), seamsCaptures_text _ _ _⟩

theorem Regex.BetweenPlain.call {r : Regex} (hb : r.BetweenPlain) :
    (seq r (seq blanks (char '('))).BetweenPlain :=
  ⟨fun _ => hb.opens _, fun _ => (plainClass_beq '(').mpr (by decide),
    fun _ _ => ⟨hb.captures _ _, ⟨trivial, trivial⟩, trivial⟩⟩

def Alias.Identity.HasPlainName (namespaces : List Text) (identity : Identity) : Prop :=
  match parse identity.identifier with
  | .name t => unqualified namespaces t ≠ [] ∧ IsPlainText (unqualified namespaces t)
  | .verbatim _ => False

instance (namespaces : List Text) (identity : Alias.Identity) :
    Decidable (identity.HasPlainName namespaces) := by
  unfold Alias.Identity.HasPlainName
  split <;> infer_instance

theorem Alias.Identity.HasPlainName.guarded {ident : Identity}
    (hn : ident.HasPlainName namespaces) (spaces : ∀ space ∈ namespaces, IsPlainText space)
    {finder : Finder} (hit : ident.finder? namespaces = some finder) :
    ∃ r : Regex, finder = .regex r ∧ r.Guarded := by
  unfold HasPlainName at hn
  unfold finder? at hit
  split at hn
  · next t parsed =>
    have hb := betweenPlain_nameRegexIn spaces hn.1 hn.2
    rw [parsed] at hit
    cases hit
    refine ⟨_, rfl, ?_⟩
    split
    · exact hb.call.guarded
    · exact hb.guarded
  · exact hn.elim

end BetweenPlain

section Places

variable {t : Text}

theorem Cursor.atSeam_start (t : Text) : (start t).AtSeam :=
  .inl rfl

theorem Cursor.IsIn.skip {cur : Cursor} {read tl : Text} (hi : cur.IsIn t)
    (ha : cur.after = read ++ tl) :
    IsIn t ⟨cur.index + read.length, read.reverse ++ cur.before, tl⟩ := by
  obtain ⟨whole, i⟩ := hi
  refine ⟨?_, by simp [i, Nat.add_comm]⟩
  rw [← whole, ha]
  simp

theorem Lexical.exists_of_closingOffset? {c : Char} {n : Nat}
    (hit : closingOffset? 0 (c :: t) = some n) :
    ∃ a tl, t = a ++ ')' :: tl ∧ n = a.length + 1 := by
  have whole := eq_of_closingOffset? hit
  have positive : n ≠ 0 := by
    rintro rfl
    unfold closingOffset? at hit
    split at hit
    · simp at hit
    · split at hit
      · cases hit
      · simp at hit
  obtain ⟨m, rfl⟩ := Nat.exists_eq_succ_of_ne_zero positive
  rw [take_succ_cons, cons_append] at whole
  have tl := (cons.inj whole).2
  refine ⟨t.take m, t.drop (m + 1), tl, ?_⟩
  have long : m ≤ t.length := by
    have lengths := congrArg length tl
    simp only [length_append, length_take, length_cons] at lengths
    omega
  rw [length_take_of_le long]

theorem Lexical.infix_trim_of_mem_splitArguments {argument : Text}
    (mem : argument ∈ splitArguments t) : Text.trim argument <:+: t := by
  have front : Text.trimStart argument <:+ argument := dropWhile_suffix _
  have back : Text.trim argument <+: Text.trimStart argument :=
    reverse_suffix.mp (reverse_reverse _ ▸ dropWhile_suffix _)
  rw [splitArguments_eq] at mem
  split at mem
  · cases mem
  · exact back.isInfix.trans (front.isInfix.trans (infix_of_mem_splitTopFrom mem))

theorem Regex.replaceAll_rel_of_isPlainText (r : Regex) {image image' : Match → Text}
    {p : Text → Text → Prop} (nil : p [] [])
    (char : ∀ {c s s'}, isPlain c → p s s' → p (c :: s) (c :: s'))
    (hit : ∀ {m s s'}, IsPlainText m.text → p s s' → p (image m ++ s) (image' m ++ s'))
    (hp : IsPlainText t) : p (r.replaceAll t image) (r.replaceAll t image') := by
  have ha {cur : Cursor} (hi : cur.IsIn t) : IsPlainText cur.after :=
    hp.subset (hi.1 ▸ subset_append_right _ _)
  rw [replaceAll_eq_assemble, replaceAll_eq_assemble]
  refine pieces_induction
    (fun _ pieces => p (assemble image pieces) (assemble image' pieces)) ?_ ?_ ?_
  · exact fun _ _ => nil
  · exact fun cur c tl pieces hi next ih =>
      char (ha hi c (next ▸ mem_cons_self)) ih
  · exact fun m pieces _ isIn ih => hit ((ha isIn.start).subset (take_subset _ _)) ih

end Places

namespace Alias

open Regex (matchAt_of_findFrom)

section Calls

variable {holds : Text → Prop} {t : Text}

structure Call.Parts (holds : Text → Prop) (t : Text) (call : Call) : Prop where
  lead : holds call.lead
  inside : holds call.inside
  isIn : call.after.IsIn t
  atSeam : call.after.AtSeam

theorem exists_of_findCall? {finder : Finder} {cur : Cursor} {call : Call} (here : cur.IsIn t)
    (hit : findCall? finder cur = some call) : ∃ (found : Match) (last : Char) (pre held tl : Text),
      finder.findFrom cur.index cur.before cur.after = some found ∧ found.IsIn t ∧
      cur.index ≤ found.start.index ∧ found.stop.before = last :: pre ∧
      found.stop.after = held ++ ')' :: tl ∧
      Lexical.closingOffset? 0 (last :: found.stop.after) = some (held.length + 1) ∧
      call.lead = cur.spanTo found.start ∧ call.inside = held ∧ call.after.IsIn t ∧
      call.after.index = found.stop.index + (held.length + 1) ∧ call.after.before.head? = some ')' ∧
      call.after.after = tl := by
  obtain ⟨m, first, called⟩ := Option.bind_eq_some_iff.mp hit
  obtain ⟨isIn, behind⟩ := Finder.isIn_of_findFrom here first
  split at called
  · cases called
  · next last pre before =>
    obtain ⟨-, called⟩ := Option.ite_none_left_eq_some.mp called
    obtain ⟨n, closing, rfl⟩ := Option.map_eq_some_iff.mp called
    obtain ⟨held, tl, ha, rfl⟩ := Lexical.exists_of_closingOffset? closing
    have parted : m.stop.after = (held ++ [')']) ++ tl := by simp [ha]
    have taken : m.stop.after.take (held.length + 1) = held ++ [')'] := by
      rw [parted, take_left' (by simp)]
    have dropped : m.stop.after.drop (held.length + 1) = tl := by
      rw [parted, drop_left' (by simp)]
    have reached := isIn.stop.skip parted
    refine ⟨m, last, pre, held, tl, first, isIn, behind, before, ha, closing, rfl, by simp [ha], ?_,
      rfl, ?_, dropped⟩
    · rw [taken, dropped]
      simpa using reached
    · rw [taken, reverse_append]
      rfl

theorem Call.parts_of_findCall? (hs : Seamed holds) {r : Regex} (guarded : r.Guarded)
    {cur : Cursor} {call : Call} (hit : findCall? (.regex r) cur = some call)
    (whole : holds t) (inside : cur.IsIn t) (seam : cur.AtSeam) : call.Parts holds t := by
  obtain ⟨m, last, pre, held, tl, first, isIn, behind, -, ha, -, lead, rfl, after, -, closed, -⟩ :=
    exists_of_findCall? inside hit
  obtain ⟨place, placeIn, -, here⟩ := matchAt_of_findFrom inside first
  obtain ⟨parts, startSeam, -⟩ := guarded.parts hs placeIn here whole
  refine ⟨?_, ?_, after, ?_⟩
  · rw [lead]
    exact seam.spanTo hs startSeam inside isIn.start behind whole
  · have tail := parts.tail
    rw [Match.tail, ha] at tail
    exact (hs.cut_around (by decide) tail).1
  · rw [Cursor.AtSeam, Cursor.LeftPlain, closed]
    exact .inl (show isPlain ')' by decide)

theorem orderedParameters_perm (parameters : List (Text × Text)) :
    (orderedParameters parameters).Perm parameters := by
  have sorted (xs ordered : List (Text × Text)) : (xs.foldl (fun ordered e =>
      insertBySize (fun e : Text × Text => Text.byteLength e.1) e ordered)
        ordered).Perm (ordered ++ xs) := by
    induction xs generalizing ordered with
    | nil => rw [append_nil]; rfl
    | cons first tl ih =>
      exact ((ih _).trans ((insertBySize_perm _ first ordered).append_right tl)).trans
        perm_middle.symm
  exact sorted parameters []

variable {parameters : List (Text × Text)} {ident : Identity}

theorem mem_orderedParameters {e : Text × Text}
    (mem : e ∈ orderedParameters parameters) : e ∈ parameters :=
  (orderedParameters_perm parameters).mem_iff.mp mem

section

variable (hs : Seamed holds)

include hs

theorem holds_substitute (args : ∀ e ∈ parameters, holds e.2) (hp : IsPlainText t) :
    holds (substitute parameters t) := by
  refine @Regex.replaceAll_rel_of_isPlainText _ _ _ Match.text (fun s _ => holds s) hs.nil
    hs.cons (fun {hit s _} hsh tl => hs.append _ _ ?_ tl) hp
  split
  · next e chosen =>
    have mem := mem_reverse.mp (mem_of_find?_eq_some chosen)
    exact args e (mem_orderedParameters mem)
  · exact hs.plain _ hsh

theorem holds_applyCall (hp : IsPlainText ident.real) (loc : Location)
    {args : List Text} (all : ∀ arg ∈ args, holds arg) : holds (applyCall ident loc args).1 := by
  unfold applyCall
  split
  · exact holds_substitute hs (fun e mem => all _ (of_mem_zip mem).2) hp
  · exact hs.plain _ hp

theorem holds_expandFrom {r : Regex} (guarded : r.Guarded) (hp : IsPlainText ident.real)
    (loc : Location) (fuel : Nat) {cur : Cursor} (whole : holds t) (hi : cur.IsIn t)
    (seam : cur.AtSeam) : holds (expandFrom ident (.regex r) loc fuel cur).1 := by
  induction fuel generalizing t cur with
  | zero => exact (seam.cut hs hi whole).2
  | succ fuel ih =>
    unfold expandFrom
    split
    · exact (seam.cut hs hi whole).2
    · next call hit =>
      have parts := Call.parts_of_findCall? hs guarded hit whole hi seam
      refine hs.append₃ parts.lead ?_ (ih whole parts.isIn parts.atSeam)
      refine holds_applyCall hs hp loc fun arg mem => ?_
      simp only [map_map, mem_map] at mem
      obtain ⟨part, inner, rfl⟩ := mem
      have held : holds part := by
        rw [Lexical.splitArguments_eq] at inner
        split at inner
        · cases inner
        · exact hs.splitTop ',' (by decide) parts.inside part inner
      exact ih (hs.trim held) (Cursor.isIn_start _) (Cursor.atSeam_start _)

theorem holds_entry_resolve {e : Entry} {r : Regex} (finder : e.finder = .regex r)
    (guarded : r.Guarded) (hp : IsPlainText e.identity.real) (loc : Location)
    (whole : holds t) : holds (e.resolve loc t).1 := by
  unfold Entry.resolve
  split
  · exact whole
  · rw [finder]
    split
    · exact holds_expandFrom hs guarded hp loc _ whole (Cursor.isIn_start t) (Cursor.atSeam_start t)
    · exact guarded.replaceAll hs (fun _ _ => hs.plain _ hp) whole

end

end Calls

@[mk_iff] structure Table.IsPlain (table : Table) : Prop where
  spaces : ∀ space ∈ table.namespaceNames, IsPlainText space
  names : ∀ identity ∈ table.identities, identity.HasPlainName table.namespaceNames
  reals : ∀ identity ∈ table.identities, IsPlainText identity.real

instance (table : Table) : Decidable table.IsPlain :=
  decidable_of_iff _ table.isPlain_iff.symm

theorem Table.IsPlain.holds_resolveOnce {holds : Text → Prop} (hs : Seamed holds)
    {tbl : Table} (hp : tbl.IsPlain) (hc : tbl.IsCompiled) (loc : Location)
    {t : Text} (whole : holds t) : holds (tbl.resolveOnce loc t).1 := by
  refine foldlRecOn (motive := fun done : Reported Text => holds done.1) tbl.entries _ whole
    fun done pre e mem => ?_
  have known : e.identity ∈ tbl.identities := mem_map_of_mem mem
  obtain ⟨finder, hit, eq⟩ := Option.map_eq_some_iff.mp (hc e mem)
  obtain ⟨r, regex, guarded⟩ := (hp.names _ known).guarded hp.spaces hit
  exact holds_entry_resolve hs ((congrArg Entry.finder eq).symm.trans regex) guarded
    (hp.reals _ known) loc pre

end Alias

namespace Lexical

section Sealed

/-- A text of plain characters and of the placeholders of the first literals. -/
def Sealed (n : Nat) : Text → Prop :=
  Composed isPlain n

variable {n : Nat} {t : Text}

theorem seamed_sealed (n : Nat) : Seamed (Sealed n) :=
  Composed.seamed fun _ => id

theorem ne_quote_of_isPlain {c : Char} (hp : isPlain c) : c ≠ '"' := by
  rintro rfl
  exact absurd hp (by decide)

theorem isLiteral_placeholder (i : Nat) : IsLiteral (placeholder i) := by
  have free : ∀ c ∈ marker :: markedDigitsGo i [], c ≠ '"' ∧ c ≠ '\\' :=
    forall_mem_cons.mpr ⟨by decide, forall_mem_markedDigits (by decide) i⟩
  exact ⟨_, placeholder_eq i, by simpa using literalLength?_append free []⟩

theorem parts_placeholder_append (i : Nat) (t : Text) :
    parts (placeholder i ++ t) = .literal (placeholder i) :: parts t :=
  parts_literal_append (isLiteral_placeholder i) t

theorem Sealed.isApart (sealed : Sealed n t) : ∀ part ∈ parts t, IsApart n part.text := by
  induction sealed with
  | nil => simp [parts, partsFrom]
  | @char c t hsh _ ih =>
    rw [parts_cons_of_ne (ne_quote_of_isPlain hsh)]
    refine forall_mem_cons.mpr ⟨.inl ?_, ih⟩
    simpa [Part.text, Unmarked] using not_isMarked_of_isPlain hsh
  | @held i t stored _ ih =>
    rw [parts_placeholder_append]
    exact forall_mem_cons.mpr ⟨.inr ⟨i, stored, rfl⟩, ih⟩

theorem Sealed.protect_eq (sealed : Sealed n t) (st : Store) : protect st t = (t, st) := by
  unfold protect
  induction sealed with
  | nil => rfl
  | @char c t hsh _ ih =>
    rw [parts_cons_of_ne (ne_quote_of_isPlain hsh), protectParts, ih]
    · rfl
    · simp
  | @held i t stored _ ih =>
    rw [parts_placeholder_append, protectParts, if_pos (isPlaceholder_placeholder i), ih]

theorem sealed_protectParts {xs : List Part} (cut : Cut xs) (st : Store)
    (hc : ∀ part ∈ xs, part.isClosed) (hu : ∀ part ∈ xs, Unmarked part.text) :
    Sealed (protectParts st xs).2.length (protectParts st xs).1 := by
  induction cut generalizing st with
  | nil => exact .nil
  | @code c tl o _ ih =>
    obtain ⟨first, others⟩ := forall_mem_cons.mp hu
    exact .char (by simp [isPlain, o, first c (by simp [Part.text])])
      (ih st (forall_mem_cons.mp hc).2 others)
  | @literal t tl _ _ ih =>
    obtain ⟨first, others⟩ := forall_mem_cons.mp hu
    rw [@protectParts_literal t st (unmarked_not_mem first)]
    exact .held (length_lt_protectParts st t tl) (ih (st ++ [t]) (forall_mem_cons.mp hc).2 others)
  | @unclosed t _ => exact absurd (hc (.unclosed t) mem_cons_self) (by simp [Part.isClosed])

theorem sealed_protect (hu : Unmarked t) (hc : IsClosed t) :
    Sealed (protect [] t).2.length (protect [] t).1 :=
  sealed_protectParts (cut_parts t) [] hc fun _ mem => hu.subset (text_subset mem)

end Sealed

end Lexical

theorem Alias.Table.IsPlain.sealed_resolve {tbl : Table} (hp : tbl.IsPlain)
    (hc : tbl.IsCompiled) (loc : Location) {n : Nat} {t : Text}
    (sealed : Lexical.Sealed n t) : Lexical.Sealed n (tbl.resolve loc t).1 := by
  unfold resolve
  split
  · exact sealed
  · -- the text has no other literals than placeholders, so nothing is protected a second time
    rw [sealed.protect_eq]
    have settled : Lexical.Sealed n (settle (tbl.resolveOnce loc) tbl.maxPasses t).text :=
      settle_text (fun _ whole =>
        hp.holds_resolveOnce (Lexical.seamed_sealed n) hc loc whole)
        tbl.maxPasses sealed
    dsimp only
    rw [Lexical.restore_of_nothing]
    exact settled

end PrimePlus
