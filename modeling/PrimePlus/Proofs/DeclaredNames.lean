import PrimePlus.Proofs.DirectiveLine
import PrimePlus.Proofs.FreshNames
import PrimePlus.Proofs.MinifySeams

/-!
The names in one list of variables. Neither the names without an alias nor the rest of the list
are known where a name is generated.
-/

namespace PrimePlus

open List Alias.Identity Lexical Text
open Unicode (isBlank isWordChar)

theorem Pattern.parse_of_notMem {t : Text} (written : '\x60' ∉ t) : parse t = .name (trim t) := by
  unfold parse
  dsimp only
  split
  · next inner shape =>
    have mem : '\x60' ∈ trim t := by simp [shape]
    exact absurd (dropWhile_subset _ (mem_of_mem_trimEnd mem)) written
  · rfl

namespace Alias

def recorded (identifier : Text) : Text :=
  let name := trim identifier
  if name.head? = some '_' ∧ name.tail.head? ≠ some '_' then name.tail else name

theorem Identity.identifier_declaredAt (site : Site) (ident : Identity) :
    (ident.declaredAt site).identifier = recorded ident.identifier := by
  unfold declaredAt recorded
  dsimp only
  split
  · next r shape =>
    by_cases twice : r.head? = some '_' <;> simp [shape, twice]
  · next o =>
    refine (if_neg fun marked => ?_).symm
    obtain ⟨r, shape⟩ := head?_eq_some_iff.mp marked.1
    exact o r shape

theorem recorded_recorded {identifier : Text} (vis : ∀ c ∈ identifier, isBlank c = false) :
    recorded (recorded identifier) = recorded identifier := by
  have settled : trim identifier = identifier := trim_eq_self vis
  have settled' : trim identifier.tail = identifier.tail :=
    trim_eq_self fun c mem => vis c (mem_of_mem_tail mem)
  unfold recorded
  rw [settled]
  dsimp only
  split
  · next marked => rw [settled', if_neg fun again => marked.2 again.1]
  · next hu => rw [settled, if_neg hu]

theorem mem_of_mem_recorded {identifier : Text} (vis : ∀ c ∈ identifier, isBlank c = false)
    {c : Char} (mem : c ∈ recorded identifier) : c ∈ identifier := by
  unfold recorded at mem
  rw [trim_eq_self vis] at mem
  dsimp only at mem
  split at mem
  · exact mem_of_mem_tail mem
  · exact mem

namespace Table

variable {table : Table} {site : Site} {ident : Identity}

theorem get?_eq_none_iff {identifier : Text} : table.get? identifier = none ↔
    ∀ ident ∈ table.identities, ident.identifier ≠ identifier := by
  simp [get?]

theorem mem_identities_offer (hn : trim ident.identifier ≠ [])
    (written : '\x60' ∉ recorded ident.identifier)
    (absent : table.get? (recorded ident.identifier) = none) (o : Identity) :
    o ∈ (table.offer site ident).1.identities ↔
      o = ident.declaredAt site ∨ o ∈ table.identities := by
  have hc : ∃ finder, Entry.compile? table.namespaceNames (ident.declaredAt site) =
      some ⟨ident.declaredAt site, finder⟩ := by
    rw [← identifier_declaredAt site] at written
    rw [Entry.compile?, finder?, Pattern.parse_of_notMem written]
    exact ⟨_, rfl⟩
  obtain ⟨finder, hc⟩ := hc
  have free : table.get? (ident.declaredAt site).identifier = none := by
    rw [identifier_declaredAt, absent]
  have taken : (table.offer site ident).1 = { table with
      entries := insertBySize (fun e => e.identity.size)
        ⟨ident.declaredAt site, finder⟩ table.entries } := by
    simp [offer, append, hn, free, hc]
  rw [taken]
  simp only [identities, mem_map, mem_insertBySize]
  constructor
  · rintro ⟨e, rfl | old, rfl⟩
    · exact .inl rfl
    · exact .inr ⟨e, old, rfl⟩
  · rintro (rfl | ⟨e, old, rfl⟩)
    · exact ⟨_, .inl rfl, rfl⟩
    · exact ⟨e, .inr old, rfl⟩

end Table

end Alias

namespace Construct.Naming

open Alias (recorded)
open Regex

def isAliasChar (c : Char) : Bool :=
  isWordChar c || c == '.' || c == ':'

theorem isAliasChar_of_isWordChar {c : Char} (letter : isWordChar c) : isAliasChar c := by
  simp [isAliasChar, letter]

theorem isAliasChar_of_isAlpha {c : Char} (letter : c.isAlpha) : isAliasChar c :=
  isAliasChar_of_isWordChar (Unicode.isWordChar_of_isAlphanum (by simp [Char.isAlphanum, letter]))

theorem not_isBlank_of_isAliasChar {c : Char} (letter : isAliasChar c) : isBlank c = false :=
  Unicode.not_isBlank_of (by decide +kernel) letter

theorem readsOnly_letterOrUnderscore : letterOrUnderscore.ReadsOnly isAliasChar := by
  intro c opens
  rcases Bool.or_eq_true_iff.mp opens with letter | underscore
  · exact isAliasChar_of_isAlpha letter
  · rw [beq_iff_eq.mp underscore]
    decide

theorem readsOnly_dottedName : dottedName.ReadsOnly isAliasChar := by
  refine ⟨readsOnly_letterOrUnderscore, fun c dotted => ?_, trivial⟩
  exact Bool.or_eq_true_iff.mpr (.inl dotted)

theorem readsOnly_colons : (lit "::").ReadsOnly isAliasChar := by
  simp [vocabulary, ReadsOnly, isAliasChar]

theorem group_pairPattern {head : Text} {hit : Match} (hm : pairPattern.find? head = some hit)
    {i : Nat} (mem : i = 1 ∨ i = 2) : hit.group i ≠ [] ∧ ∀ c ∈ hit.group i, isAliasChar c := by
  rw [pairPattern, Regex.all, foldr_cons, find?_front] at hm
  obtain ⟨stop, fin, matches', ends⟩ := exists_of_run _ _ _ _ _ hm
  cases ends
  cases matches' with | seq start r =>
  cases start
  cases r with | seq real r =>
  cases r with | seq gap r =>
  cases r with | seq colon r =>
  cases r with | seq gap' r =>
  cases r with | seq identifier r =>
  cases r with | seq finish r =>
  cases r
  cases finish
  cases real with | capture real =>
  cases identifier with | capture identifier =>
  have hi := Cursor.isIn_start head
  obtain ⟨middleIn, -⟩ := real.isIn hi
  obtain ⟨gapIn, -⟩ := gap.isIn middleIn
  obtain ⟨colonIn, -⟩ := colon.isIn gapIn
  obtain ⟨secondIn, -⟩ := gap'.isIn colonIn
  have none₁ := real.groups_eq (by simp [vocabulary])
  have none₂ := gap.groups_eq (by simp [vocabulary])
  have none₃ := colon.groups_eq (by simp [vocabulary])
  have none₄ := gap'.groups_eq (by simp [vocabulary])
  have none₅ := identifier.groups_eq (by simp [vocabulary, dottedName, dottedChar])
  subst none₁ none₂ none₃ none₄ none₅
  rcases mem with rfl | rfl
  · obtain ⟨all, ne⟩ := real.spanTo_reads hi
    exact ⟨ne (by simp [vocabulary, ReadsSome]), all_eq_true.mp (all _
      ⟨fun _ => isAliasChar_of_isAlpha, fun _ => isAliasChar_of_isWordChar, trivial⟩)⟩
  · obtain ⟨all, ne⟩ := identifier.spanTo_reads secondIn
    exact ⟨ne (.inl (by simp [vocabulary, ReadsSome])), all_eq_true.mp (all _
      ⟨readsOnly_dottedName, ⟨readsOnly_colons, readsOnly_dottedName⟩, trivial⟩)⟩

theorem forall_mem_of_foreignPattern {head : Text} (foreign : foreignPattern.isMatch head) :
    head ≠ [] ∧ ∀ c ∈ head, isAliasChar c := by
  obtain ⟨hit, hm⟩ := Option.isSome_iff_exists.mp foreign
  rw [foreignPattern, Regex.all, foldr_cons, find?_front] at hm
  obtain ⟨stop, fin, matches', -⟩ := exists_of_run _ _ _ _ _ hm
  obtain ⟨read, ha, all, ne⟩ := matches'.exists_read
  have finished : stop.after = [] := EndsBack.after_eq
    (.later (.later (.later (.later .here)))) matches'
  rw [finished, append_nil] at ha
  obtain rfl : head = read := ha
  refine ⟨ne (by simp [vocabulary, ReadsSome]), all_eq_true.mp (all _ ?_)⟩
  refine ⟨trivial, ⟨readsOnly_letterOrUnderscore, fun _ => isAliasChar_of_isWordChar, trivial⟩,
    ⟨readsOnly_colons, ?_⟩, ⟨fun _ => id, trivial⟩, trivial, trivial⟩
  simp [vocabulary, ReadsOnly, isAliasChar]

/-- How an item of a list says what it declares: by a name, by a real name and an alias for it, or
by an alias whose real name is asked for. -/
inductive Declarator where
  | plain (name : Text)
  | pair (real identifier : Text)
  | asked (identifier : Text)
  deriving DecidableEq

namespace Declarator

def ofHead (head : Text) : Declarator :=
  let head := trim head
  match pairPattern.find? head with
  | some found =>
    if found.group 1 = "auto".toList then .asked (found.group 2)
    else .pair (found.group 1) (found.group 2)
  | none => if foreignPattern.isMatch head then .asked head else .plain head

def identifier? : Declarator → Option Text
  | .plain _ => none
  | .pair _ identifier | .asked identifier => some identifier

def written? : Declarator → Option Text
  | .plain name | .pair name _ => some name
  | .asked _ => none

def Gives (cls : NameClass) (last : Nat) : Declarator → Text → Prop
  | .plain name, t | .pair name _, t => t = name
  | .asked _, t => ∃ n, last < n ∧ t = numbered cls n

/-- Whether two items of a list, in this order, can declare one name: the table does not know names
that have no alias, nor those that come later. -/
def MayClash : Declarator → Declarator → Prop
  | .plain _, .asked _ | .asked _, .plain _ | .asked _, .pair _ _ => True
  | _, _ => False

def declare (naming : Naming) (cls : NameClass) (table : Alias.Table) :
    Declarator → Text × Option Text × Naming
  | .plain name => (name, none, naming)
  | .pair real identifier => (real, some identifier, naming)
  | .asked identifier =>
    ((naming.generate cls table).1, some identifier, (naming.generate cls table).2)

def IsSpelled (declarator : Declarator) : Prop :=
  (∀ identifier ∈ declarator.identifier?,
    identifier ≠ [] ∧ ∀ c ∈ identifier, isAliasChar c = true) ∧
  ∀ real identifier, declarator = .pair real identifier → ∀ c ∈ real, isAliasChar c = true

theorem isSpelled_ofHead (head : Text) : (ofHead head).IsSpelled := by
  unfold ofHead
  dsimp only
  split
  · next hit hm =>
    obtain ⟨-, real⟩ := group_pairPattern hm (.inl rfl)
    have identifier := group_pairPattern hm (.inr rfl)
    split
    · exact ⟨by simpa [identifier?] using identifier, by simp⟩
    · refine ⟨by simpa [identifier?] using identifier, ?_⟩
      rintro _ _ ⟨⟩
      exact real
  · split
    · next foreign =>
      exact ⟨by simpa [identifier?] using forall_mem_of_foreignPattern foreign, by simp⟩
    · exact ⟨by simp [identifier?], by simp⟩

end Declarator

open Declarator

variable {naming : Naming} {cls : NameClass} {table : Alias.Table} {env : Environment}
  {declarator : Declarator} {declarators : List Declarator} {names : List Text} {last : Nat}

theorem declared_eq {head : Text}
    (absent : ∀ identifier ∈ (ofHead head).identifier?, table.get? identifier = none) :
    naming.declared cls table head = (ofHead head).declare naming cls table := by
  unfold declared ofHead at *
  dsimp only at *
  cases hm : pairPattern.find? (trim head) with
  | some hit =>
    rw [hm] at absent
    have unknown : table.get? (hit.group 2) = none := by
      apply absent
      dsimp only
      split <;> rfl
    simp only [unknown]
    split <;> rfl
  | none =>
    rw [hm] at absent
    by_cases foreign : foreignPattern.isMatch (trim head)
    · simp only [foreign] at absent ⊢
      rw [absent _ rfl]
      rfl
    · simp only [foreign]
      rfl

/-- Whether the aliases of a list are new to a table, and no two of them are recorded under one
name. -/
structure AreNew (table : Alias.Table) (declarators : List Declarator) : Prop where
  absent : ∀ identifier ∈ declarators.filterMap identifier?,
    table.get? identifier = none ∧ table.get? (recorded identifier) = none
  distinct : ((declarators.filterMap identifier?).map recorded).Nodup

theorem AreNew.declare (new : AreNew env.aliases (declarator :: declarators))
    (spelt : ∀ d ∈ declarator :: declarators, d.IsSpelled) {identifier : Text}
    (given : declarator.identifier? = some identifier) (real : Text) :
    let after := env.declare { identifier := identifier, real := real, kind := .var }
    AreNew after.aliases declarators ∧
      ∀ t, after.aliases.hasReal t ↔ t = trim real ∨ env.aliases.hasReal t := by
  intro after
  have vis : ∀ d ∈ declarator :: declarators, ∀ o ∈ d.identifier?, ∀ c ∈ o,
      isBlank c = false := fun d mem o mentioned c member =>
    not_isBlank_of_isAliasChar (((spelt d mem).1 o mentioned).2 c member)
  obtain ⟨filled, letters⟩ := (spelt _ mem_cons_self).1 identifier given
  have known := vis _ mem_cons_self identifier given
  obtain ⟨absent, distinct⟩ := new
  rw [filterMap_cons_some given] at absent distinct
  obtain ⟨fresh, distinct⟩ := nodup_cons.mp distinct
  have identities : ∀ o, o ∈ after.aliases.identities ↔
      o = declaredAt env.site
        { identifier := identifier, real := real, kind := .var } ∨
      o ∈ env.aliases.identities := by
    refine Alias.Table.mem_identities_offer ?_ ?_ (absent _ mem_cons_self).2
    · rwa [trim_eq_self known]
    · intro mem
      have letter := letters _ (Alias.mem_of_mem_recorded known mem)
      revert letter
      decide
  have remains : ∀ n, n ≠ recorded identifier → env.aliases.get? n = none →
      after.aliases.get? n = none := by
    intro n different unknown
    rw [Alias.Table.get?_eq_none_iff] at unknown ⊢
    intro o mem
    rcases (identities o).mp mem with rfl | old
    · rw [identifier_declaredAt]
      exact different.symm
    · exact unknown o old
  refine ⟨⟨fun o mem => ?_, distinct⟩, fun t => ?_⟩
  · obtain ⟨unknown, unrecorded⟩ := absent o (mem_cons_of_mem _ mem)
    have different : recorded o ≠ recorded identifier := fun eq =>
      fresh (eq ▸ mem_map_of_mem mem)
    refine ⟨remains o ?_ unknown, remains _ different unrecorded⟩
    -- an alias that is written as another is recorded would be recorded in the same way
    rintro rfl
    exact different (Alias.recorded_recorded known)
  · simp only [Alias.Table.hasReal, any_eq_true, identities, beq_iff_eq]
    constructor
    · rintro ⟨o, rfl | old, rfl⟩
      · exact .inl (real_declaredAt _ _)
      · exact .inr ⟨o, old, rfl⟩
    · rintro (rfl | ⟨o, old, rfl⟩)
      · exact ⟨_, .inl rfl, real_declaredAt _ _⟩
      · exact ⟨o, .inr old, rfl⟩

/-- The names that a list declares: a generated one is not a real name of the table, nor one that
an alias before it stands for. -/
structure Named (cls : NameClass) (last : Nat) (table : Alias.Table)
    (declarators : List Declarator) (names : List Text) : Prop where
  gives : Forall₂ (Gives cls last) declarators names
  unused : ∀ item ∈ declarators.zip names, item.1.written? = none → table.hasReal item.2 = false
  apart : (declarators.zip names).Pairwise fun a b =>
    b.1.written? = none → a.1.identifier? ≠ none → a.2 ≠ b.2

theorem Named.cons {name : Text} {last' : Nat} {table' : Alias.Table}
    (r : Named cls last' table' declarators names) (onward : last ≤ last')
    (grows : ∀ t, table.hasReal t → table'.hasReal t) (gives : Gives cls last declarator name)
    (unused : declarator.written? = none → table.hasReal name = false)
    (kept : declarator.identifier? ≠ none → table'.hasReal name) :
    Named cls last table (declarator :: declarators) (name :: names) := by
  have wider : ∀ d t, Gives cls last' d t → Gives cls last d t := by
    intro d t given
    cases d with
    | plain | pair => exact given
    | asked =>
      obtain ⟨n, above, eq⟩ := given
      exact ⟨n, Nat.lt_of_le_of_lt onward above, eq⟩
  refine ⟨.cons gives (r.gives.imp wider), ?_, ?_⟩
  · rw [zip_cons_cons, forall_mem_cons]
    refine ⟨unused, fun item mem asked => ?_⟩
    rw [Bool.eq_false_iff]
    intro used
    have free := r.unused item mem asked
    rw [grows _ used] at free
    cases free
  · rw [zip_cons_cons, pairwise_cons]
    refine ⟨fun item mem asked known eq => ?_, r.apart⟩
    have free := r.unused item mem asked
    rw [← eq, kept known] at free
    cases free

theorem Named.pairwise (hn : Named cls last table declarators names)
    (written : (declarators.filterMap written?).Nodup) :
    (declarators.zip names).Pairwise fun a b => ¬MayClash a.1 b.1 → a.2 ≠ b.2 := by
  obtain ⟨length, given⟩ := forall₂_iff_zip.mp hn.gives
  have distinct : (declarators.zip names).Pairwise fun a b =>
      ∀ t ∈ a.1.written?, ∀ t' ∈ b.1.written?, t ≠ t' := by
    have firsts : (declarators.zip names).map Prod.fst = declarators :=
      map_fst_zip (Nat.le_of_eq length)
    rw [Nodup, pairwise_filterMap, ← firsts, pairwise_map] at written
    exact written
  refine (hn.apart.and distinct).imp_of_mem ?_
  rintro ⟨a, t⟩ ⟨b, t'⟩ first second ⟨known, different⟩ separate
  have gave := given first
  have gave' := given second
  cases a <;> cases b <;> simp_all [MayClash, written?, identifier?, Gives]

theorem nodup_iff_of_pairwise {clash : Declarator → Declarator → Prop}
    (length : declarators.length = names.length)
    (pairwise : (declarators.zip names).Pairwise fun a b => ¬clash a.1 b.1 → a.2 ≠ b.2) :
    names.Nodup ↔ (declarators.zip names).Pairwise fun a b => clash a.1 b.1 → a.2 ≠ b.2 := by
  have seconds : (declarators.zip names).map Prod.snd = names :=
    map_snd_zip (Nat.le_of_eq length.symm)
  conv_lhs => rw [← seconds, Nodup, pairwise_map]
  constructor
  · intro all
    refine all.imp ?_
    exact fun different _ => different
  · intro clashes
    refine (pairwise.and clashes).imp ?_
    rintro a b ⟨ha, clashing⟩
    exact (Classical.em _).elim clashing ha

def item? (item : Text) : Option (Declarator × Option Text) :=
  if (splitInitial item).1.isEmpty then none
  else some (ofHead (splitInitial item).1, (splitInitial item).2)

def assigned (name : Text) : Option Text → Text
  | some value => name ++ " := ".toList ++ trim value
  | none => name

theorem isSpelled_of_mem {items : List Text}
    (mem : declarator ∈ (items.filterMap item?).map Prod.fst) : declarator.IsSpelled := by
  obtain ⟨item, member, rfl⟩ := mem_map.mp mem
  obtain ⟨text, -, read⟩ := mem_filterMap.mp member
  unfold item? at read
  split at read
  · cases read
  · cases read
    exact isSpelled_ofHead _

theorem trim_numbered (cls : NameClass) (n : Nat) : trim (numbered cls n) = numbered cls n := by
  refine trim_eq_self fun c mem => ?_
  rcases mem_append.mp mem with letter | digit
  · have vis : ∀ cls : NameClass, cls.letters.all (fun c => !isBlank c) := by
      intro cls
      cases cls <;> decide
    simpa using all_eq_true.mp (vis cls) c letter
  · exact forall_mem_base32 (p := fun c => isBlank c = false) (by decide) n c digit

theorem exists_named (cls : NameClass) (naming : Naming) (items : List Text)
    (new : AreNew env.aliases ((items.filterMap item?).map Prod.fst)) :
    ∃ names, (variableItems cls naming env items).1 =
        zipWith assigned names ((items.filterMap item?).map Prod.snd) ∧
      Named cls (naming.last cls) env.aliases ((items.filterMap item?).map Prod.fst) names := by
  induction items generalizing naming env with
  | nil => exact ⟨[], rfl, .nil, by simp, by simp⟩
  | cons item r ih =>
    have spelt : ∀ d ∈ ((item :: r).filterMap item?).map Prod.fst, d.IsSpelled :=
      fun _ => isSpelled_of_mem
    unfold variableItems
    dsimp only
    by_cases nameless : (splitInitial item).1.isEmpty
    · have skipped : item? item = none := by simp [item?, nameless]
      rw [filterMap_cons_none skipped] at new ⊢
      rw [if_pos nameless]
      exact ih naming new
    have read : item? item = some (ofHead (splitInitial item).1, (splitInitial item).2) := by
      simp [item?, nameless]
    rw [filterMap_cons_some read] at new spelt
    rw [filterMap_cons_some read, if_neg nameless, map_cons]
    rw [declared_eq fun identifier given =>
      (new.absent identifier (by simp [Option.mem_def.mp given])).1]
    generalize ofHead (splitInitial item).1 = d at new spelt ⊢
    generalize (splitInitial item).2 = value
    cases d with
    | plain n =>
      obtain ⟨names, written, hn⟩ := ih naming ⟨new.absent, new.distinct⟩
      refine ⟨n :: names, ?_, hn.cons (Nat.le_refl _) (fun _ => id) rfl ?_ ?_⟩
      · rw [zipWith_cons_cons, ← written]
        cases value <;> rfl
      · simp [written?]
      · simp [identifier?]
    | pair real identifier =>
      obtain ⟨new, reals⟩ := new.declare spelt rfl real
      have settled : trim real = real := trim_eq_self fun c mem =>
        not_isBlank_of_isAliasChar ((spelt _ mem_cons_self).2 real identifier rfl c mem)
      obtain ⟨names, written, hn⟩ := ih naming new
      refine ⟨real :: names, ?_, hn.cons (Nat.le_refl _) (fun t used => (reals t).mpr (.inr used))
        rfl ?_ fun _ => (reals real).mpr (.inl settled.symm)⟩
      · rw [zipWith_cons_cons, ← written]
        cases value <;> rfl
      · simp [written?]
    | asked identifier =>
      obtain ⟨k, generated, above, free⟩ := naming.exists_generate cls env.aliases
      obtain ⟨new, reals⟩ := new.declare spelt rfl (numbered cls k)
      obtain ⟨names, written, hn⟩ := ih (naming.setLast k cls) new
      rw [last_setLast, if_pos rfl] at hn
      rw [declare, generated]
      refine ⟨numbered cls k :: names, ?_, hn.cons (Nat.le_of_lt above)
        (fun t used => (reals t).mpr (.inr used)) ⟨k, above, rfl⟩ (fun _ => free)
        fun _ => (reals _).mpr (.inl (trim_numbered cls k).symm)⟩
      rw [zipWith_cons_cons, ← written]
      cases value <;> rfl

/-- The list on a line that declares variables, up to the first semicolon. -/
def declarationList (found : Match) : Text :=
  (splitTop ';' (found.group 3)).headD []

def declarations (found : Match) : List (Declarator × Option Text) :=
  (splitTop ',' (declarationList found)).filterMap item?

theorem variables?_of_inside (naming : Naming) {l : Text} {hit : Match} (hi : env.depth ≠ 0)
    (hm : variablesPattern.find? l = some hit) :
    (naming.variables? env l).map Prod.fst = some (hit.group 1 ++
      (if (hit.group 2).map Char.toLower = "const".toList then "CONST " else "LOCAL ").toList ++
      join ", ".toList
        (variableItems .inner naming env (splitTop ',' (declarationList hit))).1 ++
      (hit.group 3).drop (declarationList hit).length) := by
  have tail : (hit.group 3).drop (declarationList hit).length =
      if (splitTop ';' (hit.group 3)).tail.isEmpty then []
      else ';' :: join [';'] (splitTop ';' (hit.group 3)).tail := by
    have whole : join [';'] (splitTop ';' (hit.group 3)) = hit.group 3 := join_splitTopFrom ';' 0 _
    rw [declarationList]
    generalize splitTop ';' (hit.group 3) = parts at whole ⊢
    rw [← whole]
    cases parts with
    | nil => rfl
    | cons first r => cases r <;> simp [join]
  rw [variables?, hm, tail, declarationList]
  simp only [hi]
  cases splitTop ';' (hit.group 3) <;> rfl

/-- A line inside a block whose aliases are new and whose written names differ declares each item by
the name that is written or by a generated one. Two items share a name only if one of them is
generated and the other a plain name, or the real name of a pair behind it. -/
theorem nodup_of_one_list (naming : Naming) (env : Environment) (line : Text) {found : Match}
    (inside : env.depth ≠ 0) (matched : variablesPattern.find? line = some found)
    (new : AreNew env.aliases ((declarations found).map Prod.fst))
    (written : (((declarations found).map Prod.fst).filterMap written?).Nodup) :
    ∃ names, Forall₂ (Gives .inner naming.inner) ((declarations found).map Prod.fst) names ∧
      (naming.lower? env line).map Prod.fst = some (found.group 1 ++
        (if (found.group 2).map Char.toLower = "const".toList then "CONST " else "LOCAL ").toList ++
        join ", ".toList (zipWith assigned names ((declarations found).map Prod.snd)) ++
        (found.group 3).drop (declarationList found).length) ∧
      (((declarations found).map Prod.fst).zip names).Pairwise
        (fun a b => ¬MayClash a.1 b.1 → a.2 ≠ b.2) ∧
      (names.Nodup ↔ (((declarations found).map Prod.fst).zip names).Pairwise
        fun a b => MayClash a.1 b.1 → a.2 ≠ b.2) := by
  obtain ⟨names, items, named⟩ := exists_named .inner naming _ new
  refine ⟨names, named.gives, ?_, named.pairwise written,
    nodup_iff_of_pairwise named.gives.length_eq (named.pairwise written)⟩
  have lowered := naming.variables?_of_inside inside matched
  rw [items] at lowered
  obtain ⟨result, first, same⟩ := Option.map_eq_some_iff.mp lowered
  rw [lower?, first]
  exact congrArg some same

theorem nodup_of_mixed_list :
    let env : Environment := { Environment.start {} with depth := 1 }
    let items : List Declarator :=
      [.pair "count".toList "n".toList, .asked "total".toList, .plain "k".toList]
    AreNew env.aliases items ∧ (items.filterMap written?).Nodup ∧
      ∃ names, Forall₂ (Gives .inner 0) items names ∧
        (({} : Naming).lower? env "  var count:n, auto:total := 0, k;".toList).map Prod.fst =
          some ("  LOCAL ".toList ++
            join ", ".toList (zipWith assigned names [none, some " 0".toList, none]) ++ [';']) ∧
        (names.Nodup ↔ (items.zip names).Pairwise fun a b => MayClash a.1 b.1 → a.2 ≠ b.2) := by
  intro env items
  have new : AreNew env.aliases items := ⟨by decide +kernel, by decide +kernel⟩
  have written : (items.filterMap written?).Nodup := by decide +kernel
  obtain ⟨names, gives, lowered, -, apart⟩ := nodup_of_one_list {} env
    "  var count:n, auto:total := 0, k;".toList (by decide) rfl new written
  exact ⟨new, written, names, gives, lowered, apart⟩

theorem plain_name_is_declared_again :
    let env : Environment := { Environment.start {} with depth := 1 }
    ∃ found, variablesPattern.find? "var v1, auto:x;".toList = some found ∧
      (declarations found).map Prod.fst = [.plain "v1".toList, .asked "x".toList] ∧
      AreNew env.aliases ((declarations found).map Prod.fst) ∧
      (((declarations found).map Prod.fst).filterMap written?).Nodup ∧
      (({} : Naming).lower? env "var v1, auto:x;".toList).map Prod.fst =
        some "LOCAL v1, v1;".toList := by
  refine ⟨_, rfl, by decide +kernel, ⟨?_, ?_⟩, ?_, ?_⟩
  · decide +kernel
  · decide +kernel
  · decide +kernel
  · decide +kernel

end Construct.Naming

end PrimePlus
