import FormulaQuiz.Proofs.Aliases
import FormulaQuiz.Random.ChaCha
import Mathlib.Data.List.Infix
import Mathlib.Data.List.Nodup
import Mathlib.Data.List.Pairwise

/-!
# Names and aliases correspond

However a table comes about, its names and its aliases are in one-to-one correspondence.
`AliasTable.Sound` is what every new entry keeps, stated of the entries; `Sound.push` is the one
step, and all runs are inductions over it.  `AliasTable.Matches` says the same of what can be asked
of a table.
-/

namespace FormulaQuiz

theorem standsIn_iff {part whole : String} :
    standsIn part whole = true ↔ part.toList <:+: whole.toList := Text.occursIn_iff

/-- A free word has no meaning, stands in no alias or name, and no alias stands in it. -/
theorem isFree_iff {names aliases : List String} {word : String} :
    isFree names aliases word = true ↔
      (word ∉ reservedWords ∧ word ∉ Formula.functionNames ∧ word ∉ Formula.constantNames) ∧
        (∀ a ∈ aliases, ¬ word.toList <:+: a.toList ∧ ¬ a.toList <:+: word.toList) ∧
        ∀ name ∈ names, ¬ word.toList <:+: name.toList := by
  simp [isFree, ← standsIn_iff, and_assoc]

theorem isIdentifierStart_of_isLower {c : Char} (h : c.isLower = true) :
    Text.isIdentifierStart c = true := by
  have hletter : ('a' ≤ c && c ≤ 'z') = true := h
  rw [Text.isIdentifierStart, Text.isLetter, hletter, Bool.true_or, Bool.true_or]

theorem isIdentifierChar_of_isDigit {c : Char} (h : c.isDigit = true) :
    Text.isIdentifierChar c = true := by
  have hdigit : ('0' ≤ c && c ≤ '9') = true := h
  rw [Text.isIdentifierChar, hdigit, Bool.or_true]

/-- A word with the form of an alias is an identifier. -/
theorem HasForm.exists_cons {length : Nat} {word : String} (h : HasForm length word) :
    ∃ c cs, word.toList = c :: cs ∧ Text.isIdentifierStart c = true ∧
      ∀ d ∈ cs, Text.isIdentifierChar d = true := by
  obtain ⟨hlength, hhead, htail⟩ := h
  cases hword : word.toList with
  | nil =>
    rw [← String.length_toList, hword, List.length_nil] at hlength
    omega
  | cons c cs =>
    rw [hword] at hhead htail
    refine ⟨c, cs, rfl, isIdentifierStart_of_isLower (hhead c rfl), fun d hd ↦ ?_⟩
    rcases Bool.or_eq_true_iff.mp (htail d hd) with hlower | hdigit
    · rw [Text.isIdentifierChar, isIdentifierStart_of_isLower hlower, Bool.true_or]
    · exact isIdentifierChar_of_isDigit hdigit

/-- A word with the form of an alias has no characters but small letters and digits. -/
theorem HasForm.all {length : Nat} {word : String} (h : HasForm length word) :
    ∀ c ∈ word.toList, (c.isLower || c.isDigit) = true := by
  obtain ⟨-, hhead, htail⟩ := h
  cases hword : word.toList with
  | nil => exact nofun
  | cons c cs =>
    rw [hword] at hhead htail
    exact List.forall_mem_cons.mpr ⟨by rw [hhead c rfl, Bool.true_or], htail⟩

theorem HasForm.hasLeadingLetter {length : Nat} {word : String} (h : HasForm length word) :
    (word.toList.dropWhile (· == '_')).head?.any Text.isLetter = true := by
  obtain ⟨c, cs, hword, -, -⟩ := h.exists_cons
  have hlower : c.isLower = true := h.head c (by rw [hword]; rfl)
  have hne : (c == '_') = false := by
    rw [beq_eq_false_iff_ne]
    rintro rfl
    exact absurd hlower (by decide)
  have hletter : ('a' ≤ c && c ≤ 'z') = true := hlower
  rw [hword, List.dropWhile_cons, hne, if_neg Bool.false_ne_true, List.head?_cons, Option.any_some,
    Text.isLetter, hletter, Bool.true_or]

namespace AliasTable

section Sound

variable {t : AliasTable} {names : List String} {name word : String}

/-- What holds of a table however its entries were added. -/
structure Sound (t : AliasTable) : Prop where
  nodup : t.names.Nodup
  form : ∀ word ∈ t.aliases, HasForm t.policy.length word
  meaningless : ∀ word ∈ t.aliases,
    word ∉ reservedWords ∧ word ∉ Formula.functionNames ∧ word ∉ Formula.constantNames
  /-- No alias stands in another one. -/
  apart : t.aliases.Pairwise fun u v ↦ ¬ v.toList <:+: u.toList ∧ ¬ u.toList <:+: v.toList
  /-- No alias stands in its own name. -/
  own : ∀ e ∈ t.entries, ¬ e.2.toList <:+: e.1.toList
  /-- No alias stands in a name that is older. -/
  fresh : t.entries.Pairwise fun older newer ↦ ¬ newer.2.toList <:+: older.1.toList

theorem sound_empty (policy : AliasPolicy) : (empty policy).Sound :=
  ⟨.nil, nofun, nofun, .nil, nofun, .nil⟩

theorem names_push : (t.push name word).names = t.names ++ [name] := by
  rw [AliasTable.names, push, List.map_append]
  rfl

theorem aliases_push : (t.push name word).aliases = t.aliases ++ [word] := by
  rw [aliases, push, List.map_append]
  rfl

theorem alias?_eq_none_iff : t.alias? name = none ↔ name ∉ t.names := by
  rw [alias?, List.lookup_eq_none_iff, AliasTable.names, List.mem_map]
  constructor
  · rintro h ⟨e, he, rfl⟩
    exact absurd (h e he) (by simp)
  · exact fun h e he ↦ bne_iff_ne.mpr fun heq ↦ h ⟨e, he, heq.symm⟩

theorem isSome_alias?_iff : (t.alias? name).isSome ↔ name ∈ t.names := by
  rw [← not_iff_not, Option.not_isSome_iff_eq_none, alias?_eq_none_iff]

theorem mem_aliases (h : t.alias? name = some word) : word ∈ t.aliases := by
  obtain ⟨older, newer, hentries, -⟩ := List.lookup_eq_some_iff.mp h
  rw [aliases, hentries]
  exact List.mem_map_of_mem (List.mem_append_right _ List.mem_cons_self)

/-- A new name may get a fresh word that is told from all names, old and new. -/
theorem Sound.push (h : t.Sound) (hname : t.alias? name = none)
    (hfresh : IsFresh t.policy.length names t.aliases word)
    (hnames : ∀ n ∈ name :: t.names, n ∈ names) : (t.push name word).Sound := by
  obtain ⟨hmeaningless, hapart, htold⟩ := isFree_iff.mp hfresh.free
  obtain ⟨hown, hold⟩ := List.forall_mem_cons.mp hnames
  refine ⟨?_, ?_, ?_, ?_, ?_, ?_⟩
  · rw [names_push]
    exact h.nodup.append (List.nodup_singleton name)
      (List.disjoint_singleton.mpr (alias?_eq_none_iff.mp hname))
  · rw [aliases_push]
    exact List.forall_mem_append.mpr ⟨h.form, List.forall_mem_singleton.mpr hfresh.form⟩
  · rw [aliases_push]
    exact List.forall_mem_append.mpr ⟨h.meaningless, List.forall_mem_singleton.mpr hmeaningless⟩
  · rw [aliases_push, List.pairwise_append]
    exact ⟨h.apart, List.pairwise_singleton _ _,
      fun a ha ↦ List.forall_mem_singleton.mpr (hapart a ha)⟩
  · exact List.forall_mem_append.mpr ⟨h.own, List.forall_mem_singleton.mpr (htold name hown)⟩
  · exact List.pairwise_append.mpr ⟨h.fresh, List.pairwise_singleton _ _, fun e he ↦
      List.forall_mem_singleton.mpr (htold e.1 (hold e.1 (List.mem_map_of_mem he)))⟩

/-- No alias is given twice. -/
theorem Sound.nodup_aliases (h : t.Sound) : t.aliases.Nodup := by
  refine h.apart.imp ?_
  rintro u _ hapart rfl
  exact hapart.1 List.infix_rfl

/-- The alias of a name is that of its entry, if it has one entry. -/
theorem alias?_eq_some_iff (h : t.names.Nodup) :
    t.alias? name = some word ↔ (name, word) ∈ t.entries := by
  rw [alias?, List.lookup_eq_some_iff]
  constructor
  · rintro ⟨older, newer, hentries, -⟩
    rw [hentries]
    exact List.mem_append_right _ List.mem_cons_self
  · intro hmem
    obtain ⟨older, newer, hentries⟩ := List.append_of_mem hmem
    rw [AliasTable.names, hentries, List.map_append, List.map_cons, List.nodup_append] at h
    exact ⟨older, newer, hentries, fun e he ↦
      bne_iff_ne.mpr (h.2.2 e.1 (List.mem_map_of_mem he) name List.mem_cons_self).symm⟩

/-- The name of an alias is that of its entry. -/
theorem Sound.name?_eq_some_iff (h : t.Sound) :
    t.name? word = some name ↔ (name, word) ∈ t.entries := by
  rw [name?, Option.map_eq_some_iff]
  constructor
  · rintro ⟨⟨n, w⟩, hfind, rfl⟩
    obtain rfl : w = word := by simpa using List.find?_some hfind
    exact List.mem_of_find?_eq_some hfind
  · intro hmem
    obtain ⟨e, hfind⟩ : ∃ e, t.entries.find? (fun entry ↦ entry.2 == word) = some e := by
      rw [← Option.isSome_iff_exists, List.find?_isSome]
      exact ⟨_, hmem, beq_self_eq_true word⟩
    have heq : e.2 = word := by simpa using List.find?_some hfind
    have he := List.inj_on_of_nodup_map h.nodup_aliases (List.mem_of_find?_eq_some hfind) hmem heq
    exact ⟨e, hfind, congrArg Prod.fst he⟩

/-- An alias has one name. -/
theorem Sound.name_unique (h : t.Sound) {name' : String} (hname : t.alias? name = some word)
    (hname' : t.alias? name' = some word) : name = name' := by
  rw [alias?_eq_some_iff h.nodup, ← h.name?_eq_some_iff] at hname hname'
  exact Option.some.inj (hname.symm.trans hname')

/-- A table is a one-to-one correspondence between some names and words that are fit for aliases. -/
structure Matches (t : AliasTable) (policy : AliasPolicy) (names : List String) : Prop where
  alias?_iff_name? : ∀ name word, t.alias? name = some word ↔ t.name? word = some name
  /-- The names with aliases are these and no others. -/
  covers : ∀ name, (t.alias? name).isSome ↔ name ∈ names
  form : ∀ name word, t.alias? name = some word → HasForm policy.length word
  meaningless : ∀ name word, t.alias? name = some word →
    word ∉ reservedWords ∧ word ∉ Formula.functionNames ∧ word ∉ Formula.constantNames
  /-- No alias stands in that of another name. -/
  apart : ∀ name word name' word', t.alias? name = some word → t.alias? name' = some word' →
    name ≠ name' → ¬ word.toList <:+: word'.toList

theorem Sound.matches (h : t.Sound) : t.Matches t.policy t.names := by
  refine ⟨?_, fun _ ↦ isSome_alias?_iff, ?_, ?_, ?_⟩
  · exact fun _ _ ↦ (alias?_eq_some_iff h.nodup).trans h.name?_eq_some_iff.symm
  · exact fun _ _ hword ↦ h.form _ (mem_aliases hword)
  · exact fun _ _ hword ↦ h.meaningless _ (mem_aliases hword)
  · intro name word name' word' hword hword' hne
    have hsymm : Std.Symm fun u v : String ↦
        ¬ v.toList <:+: u.toList ∧ ¬ u.toList <:+: v.toList := ⟨fun _ _ hapart ↦ hapart.symm⟩
    have hwords : word ≠ word' := by
      rintro rfl
      exact hne (h.name_unique hword hword')
    exact (h.apart.forall (mem_aliases hword) (mem_aliases hword') hwords).2

end Sound

section Draws

variable {σ : Type} [Random.WordSource σ] {t t' : AliasTable} {names list : List String}
  {name : String} {source rest : σ}

/-! ## The names of the beginning -/

/-- All aliases of a table are told from some names. -/
def Told (t : AliasTable) (names : List String) : Prop :=
  ∀ word ∈ t.aliases, ∀ name ∈ names, ¬ word.toList <:+: name.toList

theorem Told.push {word : String} (h : t.Told names)
    (hfresh : IsFresh t.policy.length names t.aliases word) : (t.push name word).Told names := by
  rw [Told, aliases_push]
  exact List.forall_mem_append.mpr
    ⟨h, List.forall_mem_singleton.mpr (isFree_iff.mp hfresh.free).2.2⟩

/-- Names that are gone through get aliases that are told from all of them. -/
theorem sound_extendAll (h : t.Sound) (htold : t.Told names)
    (hknown : ∀ n ∈ t.names ++ list, n ∈ names)
    (hgives : (t.extendAll names list).Gives source t' rest) :
    t'.Sound ∧ t'.Told names ∧ ∀ n, n ∈ t'.names ↔ n ∈ t.names ++ list := by
  induction list generalizing t source with
  | nil =>
    rw [extendAll, Trial.gives_pure_iff] at hgives
    obtain ⟨rfl, -⟩ := hgives
    exact ⟨h, htold, fun n ↦ by rw [List.append_nil]⟩
  | cons name list ih =>
    have hlist : ∀ n ∈ t.names ++ list, n ∈ names := fun n hn ↦
      hknown n (List.append_sublist_append_left _ |>.mpr (List.sublist_cons_self _ _) |>.subset hn)
    rw [extendAll] at hgives
    split at hgives
    next hname =>
      obtain ⟨hsound, htold, hnames⟩ := ih h htold hlist hgives
      refine ⟨hsound, htold, fun n ↦ (hnames n).trans ?_⟩
      have hmem := isSome_alias?_iff.mp hname
      simp only [List.mem_append, List.mem_cons]
      constructor
      · exact Or.imp_right .inr
      · rintro (hn | rfl | hn)
        · exact .inl hn
        · exact .inl hmem
        · exact .inr hn
    next hname =>
      rw [Trial.gives_bind_iff] at hgives
      obtain ⟨⟨word, grown⟩, between, hext, hgives⟩ := hgives
      obtain ⟨rfl, hfresh⟩ := extend_gives hext
      have hself : ∀ n ∈ name :: t.names, n ∈ names := by
        intro n hn
        apply hknown
        rcases List.mem_cons.mp hn with rfl | hn
        · exact List.mem_append_right _ List.mem_cons_self
        · exact List.mem_append_left _ hn
      have hgrown : (t.push name word).names ++ list = t.names ++ name :: list := by
        rw [names_push, List.append_assoc]
        rfl
      rw [← hgrown]
      refine ih (h.push (Option.not_isSome_iff_eq_none.mp hname) hfresh hself) (htold.push hfresh) ?_
        hgives
      rw [hgrown]
      exact hknown

/-- Names that are given in the beginning have aliases that stand in none of them. -/
theorem sound_ofNames {policy : AliasPolicy} (hgives : (ofNames policy names).Gives source t rest) :
    t.Sound ∧ t.policy = policy ∧ t.Told names ∧ ∀ n, n ∈ t.names ↔ n ∈ names := by
  have hknown : ∀ n ∈ (empty policy).names ++ names, n ∈ names := fun _ hn ↦ hn
  obtain ⟨hsound, htold, hnames⟩ := sound_extendAll (sound_empty policy) nofun hknown hgives
  exact ⟨hsound, (within_extendAll hgives).policy, htold, hnames⟩

/-- New names that are gone through get aliases in their order. -/
theorem names_extendAll (hnodup : (t.names ++ list).Nodup)
    (hgives : (t.extendAll names list).Gives source t' rest) : t'.names = t.names ++ list := by
  induction list generalizing t source with
  | nil =>
    rw [extendAll, Trial.gives_pure_iff] at hgives
    rw [hgives.1, List.append_nil]
  | cons name list ih =>
    have hname : t.alias? name = none := by
      rw [alias?_eq_none_iff]
      exact fun hmem ↦ (List.nodup_append.mp hnodup).2.2 name hmem name List.mem_cons_self rfl
    rw [extendAll, hname, if_neg (by simp), Trial.gives_bind_iff] at hgives
    obtain ⟨⟨word, grown⟩, between, hext, hgives⟩ := hgives
    obtain ⟨rfl, -⟩ := extend_gives hext
    have hgrown : (t.push name word).names ++ list = t.names ++ name :: list := by
      rw [names_push, List.append_assoc]
      rfl
    rw [← hgrown]
    exact ih (hgrown ▸ hnodup) hgives

/-- A name may find no alias, but nothing else is wrong with it. -/
theorem outcome_extend (t : AliasTable) (names : List String) (name : String) (source : σ) :
    (t.extend names name).outcome source =
      match (drawFree t.policy.length names t.aliases t.policy.attempts).run source with
      | (some word, rest) => (.ok (word, t.push name word), rest)
      | (none, rest) => (.error (.aliasesExhausted name t.policy.attempts), rest) := by
  rw [extend, Trial.outcome_bind, Trial.outcome_lift]
  rcases (drawFree t.policy.length names t.aliases t.policy.attempts).run source with ⟨found, rest⟩
  cases found with
  | none => rfl
  | some word => rfl

/-- A name without alias gets one, or finds none. -/
theorem exists_of_assign_eq_error (hname : t.alias? name = none) {fault : Fault}
    (h : (t.assign name).outcome source = (.error fault, rest)) :
    ∃ attempts, fault = .aliasesExhausted name attempts := by
  rw [assign, hname, if_neg (by simp), outcome_extend] at h
  split at h
  · cases h
  · obtain ⟨hfault, -⟩ := Prod.mk.inj h
    exact ⟨_, (Except.error.inj hfault).symm⟩

theorem exists_of_extendAll_eq_error {fault : Fault}
    (h : (t.extendAll names list).outcome source = (.error fault, rest)) :
    ∃ name attempts, fault = .aliasesExhausted name attempts := by
  induction list generalizing t source with
  | nil => exact nomatch h
  | cons name list ih =>
    rw [extendAll] at h
    split at h
    · exact ih h
    · rw [Trial.outcome_bind, outcome_extend] at h
      rcases hdraw : (drawFree t.policy.length names t.aliases t.policy.attempts).run source with
        ⟨found, between⟩
      rw [hdraw] at h
      cases found with
      | none =>
        obtain ⟨hfault, -⟩ := Prod.mk.inj h
        exact ⟨_, _, (Except.error.inj hfault).symm⟩
      | some word => exact ih h

/-! ## Names that are given again -/

theorem drawFree_congr {length : Nat} {names' aliases : List String}
    (h : isFree names aliases = isFree names' aliases) (attempts : Nat) :
    (drawFree length names aliases attempts : Random.Draw σ _) =
      drawFree length names' aliases attempts := by
  induction attempts with
  | zero => rfl
  | succ attempts ih => rw [drawFree, drawFree, h, ih]

/-- It makes no difference how often the names stand from which aliases are told. -/
theorem extendAll_congr {names' : List String} (h : ∀ n, n ∈ names ↔ n ∈ names') :
    (t.extendAll names list : Trial σ _) = t.extendAll names' list := by
  have hfree : ∀ aliases, isFree names aliases = isFree names' aliases := by
    intro aliases
    funext word
    rw [Bool.eq_iff_iff, isFree_iff, isFree_iff]
    simp only [h]
  have hextend : ∀ (t : AliasTable) name, (t.extend names name : Trial σ _) = t.extend names' name :=
    fun t name ↦ by rw [extend, extend, drawFree_congr (hfree t.aliases)]
  induction list generalizing t with
  | nil => rfl
  | cons name list ih => simp only [extendAll, hextend, ih]

/-- A name that has an alias may be left out. -/
theorem outcome_extendAll_filter (hname : (t.alias? name).isSome) :
    (t.extendAll names (list.filter fun n ↦ !n == name)).outcome source =
      (t.extendAll names list).outcome source := by
  induction list generalizing t source with
  | nil => rfl
  | cons n list ih =>
    by_cases heq : n = name
    · subst heq
      rw [List.filter_cons_of_neg (by simp), ih hname, extendAll, if_pos hname]
    · rw [List.filter_cons_of_pos (by simpa using heq), extendAll, extendAll]
      split
      · exact ih hname
      · rw [Trial.outcome_bind, Trial.outcome_bind]
        rcases hext : (t.extend names n).outcome source with ⟨result, between⟩
        cases result with
        | error fault => rfl
        | ok given =>
          obtain ⟨own, grown⟩ := given
          obtain ⟨rfl, -⟩ := extend_gives hext
          obtain ⟨word, hword⟩ := Option.isSome_iff_exists.mp hname
          exact ih (Option.isSome_of_eq_some ((t.within_push n own).alias?_eq hword))

/-- A name that is gone through again gets nothing and draws nothing. -/
theorem outcome_extendAll_eraseDups (t : AliasTable) (names list : List String) (source : σ) :
    (t.extendAll names list.eraseDups).outcome source =
      (t.extendAll names list).outcome source := by
  induction hlength : list.length using Nat.strong_induction_on generalizing t list source with
  | _ n ih =>
    cases list with
    | nil => rfl
    | cons name list =>
      have hlt : (list.filter fun n ↦ !n == name).length < n := by
        rw [← hlength, List.length_cons]
        exact Nat.lt_succ_of_le (List.length_filter_le _ _)
      have hlist : ∀ (t : AliasTable) (source : σ), (t.alias? name).isSome →
          (t.extendAll names (list.filter fun n ↦ !n == name).eraseDups).outcome source =
            (t.extendAll names list).outcome source := fun t source hname ↦
        (ih _ hlt t _ source rfl).trans (outcome_extendAll_filter hname)
      rw [List.eraseDups_cons, extendAll, extendAll]
      split
      next hname => exact hlist t source hname
      next =>
        rw [Trial.outcome_bind, Trial.outcome_bind]
        rcases hext : (t.extend names name).outcome source with ⟨result, between⟩
        cases result with
        | error fault => rfl
        | ok given =>
          obtain ⟨word, grown⟩ := given
          obtain ⟨rfl, -⟩ := extend_gives hext
          exact hlist _ _ (t.alias?_push_self name word)

/-- Names that are given again change neither the table nor what is drawn. -/
theorem outcome_ofNames_eraseDups (policy : AliasPolicy) (names : List String) (source : σ) :
    (ofNames policy names.eraseDups).outcome source = (ofNames policy names).outcome source := by
  rw [ofNames, extendAll_congr fun _ ↦ List.mem_eraseDups, outcome_extendAll_eraseDups, ofNames]

/-! ## Names that are added later -/

/-- Asks for new aliases for some names, one after the other.  A name that gets none leaves the
table as it was.  The results are what came of each name, and the table after all of them. -/
def assignEach (t : AliasTable) :
    List String → Random.Draw σ (List (Except Fault String) × AliasTable)
  | [] => return ([], t)
  | name :: names => do
    match ← (t.assign name).run with
    | .ok (word, grown) => do
      let (results, last) ← grown.assignEach names
      return (.ok word :: results, last)
    | .error fault => do
      let (results, last) ← t.assignEach names
      return (.error fault :: results, last)

/-- The names that got an alias, with it. -/
def gained (names : List String) (results : List (Except Fault String)) : List (String × String) :=
  (names.zip results).filterMap fun (name, result) ↦ result.toOption.map (name, ·)

/-- What comes of a name, and then of others. -/
theorem run_assignEach_cons (t : AliasTable) (name : String) (names : List String) (source : σ) :
    (t.assignEach (name :: names)).run source =
      match (t.assign name).outcome source with
      | (.ok (word, grown), between) =>
        let ((results, last), rest) := (grown.assignEach names).run between
        ((.ok word :: results, last), rest)
      | (.error fault, between) =>
        let ((results, last), rest) := (t.assignEach names).run between
        ((.error fault :: results, last), rest) := by
  rcases hassign : (t.assign name).outcome source with ⟨result, between⟩
  have hrun : StateT.run (t.assign name).run source = (result, between) := hassign
  rw [assignEach, StateT.run_bind, hrun]
  cases result with
  | error fault => rfl
  | ok given => rfl

/-- Each name that is added keeps a table sound, and others leave it as it was. -/
theorem sound_assignEach (h : t.Sound) {results : List (Except Fault String)}
    (hrun : (t.assignEach list).run source = ((results, t'), rest)) :
    t'.Sound ∧ t'.policy = t.policy ∧ results.length = list.length ∧
      t'.entries = t.entries ++ gained list results := by
  induction list generalizing t source results with
  | nil =>
    obtain ⟨⟨rfl, rfl⟩, rfl⟩ := by simpa [assignEach] using hrun
    exact ⟨h, rfl, rfl, (List.append_nil _).symm⟩
  | cons name list ih =>
    rw [run_assignEach_cons] at hrun
    rcases hassign : (t.assign name : Trial σ _).outcome source with ⟨result, between⟩
    rw [hassign] at hrun
    cases result with
    | error fault =>
      dsimp only at hrun
      rcases hrest : (t.assignEach list).run between with ⟨⟨others, last⟩, after⟩
      rw [hrest] at hrun
      obtain ⟨⟨rfl, rfl⟩, rfl⟩ := by simpa using hrun
      obtain ⟨hsound, hpolicy, hlength, hentries⟩ := ih h hrest
      exact ⟨hsound, hpolicy, congrArg (· + 1) hlength, hentries⟩
    | ok given =>
      obtain ⟨word, grown⟩ := given
      dsimp only at hrun
      rcases hrest : (grown.assignEach list).run between with ⟨⟨others, last⟩, after⟩
      rw [hrest] at hrun
      obtain ⟨⟨rfl, rfl⟩, rfl⟩ := by simpa using hrun
      obtain ⟨hname, rfl, hfresh⟩ := assign_gives hassign
      obtain ⟨hsound, hpolicy, hlength, hentries⟩ :=
        ih (h.push hname hfresh fun _ hn ↦ hn) hrest
      refine ⟨hsound, hpolicy, congrArg (· + 1) hlength, hentries.trans ?_⟩
      rw [push, List.append_assoc]
      rfl

/-- What is asked of a table later on changes nothing of the aliases that it has. -/
theorem alias?_assignEach (h : t.Sound) {results : List (Except Fault String)}
    (hrun : (t.assignEach list).run source = ((results, t'), rest)) {word : String}
    (hword : t.alias? name = some word) : t'.alias? name = some word := by
  obtain ⟨hsound, -, -, hentries⟩ := sound_assignEach h hrun
  rw [alias?_eq_some_iff h.nodup] at hword
  rw [alias?_eq_some_iff hsound.nodup, hentries]
  exact List.mem_append_left _ hword

/-- A table matches names and words in the beginning, and after every sequence of calls, whatever
was drawn before them: the names are those of the beginning and those that got an alias since.  The
beginning may only fail because no alias is found, and names that are given again make no
difference. -/
theorem matches_assignEach (policy : AliasPolicy) (names : List String) (source : σ) :
    (∀ fault rest, (ofNames policy names).outcome source = (.error fault, rest) →
      fault.code = "CONFIG_TOKEN_SPACE_EXHAUSTED") ∧
    (ofNames policy names.eraseDups).outcome source = (ofNames policy names).outcome source ∧
    ∀ t rest, (ofNames policy names).Gives source t rest →
      ∀ calls (start : σ) results t' rest', (t.assignEach calls).run start = ((results, t'), rest') →
        t'.Matches policy (names ++ (gained calls results).map (·.1)) ∧
        results.length = calls.length ∧ t'.entries = t.entries ++ gained calls results ∧
        (∀ name (start : σ) fault rest, (t'.assign name).outcome start = (.error fault, rest) →
          (t'.assignEach [name]).run start = (([.error fault], t'), rest)) ∧
        ∀ more (start : σ) others t'' rest'', (t'.assignEach more).run start = ((others, t''), rest'') →
          ∀ name word, t'.alias? name = some word → t''.alias? name = some word := by
  refine ⟨?_, outcome_ofNames_eraseDups policy names source, ?_⟩
  · intro fault rest hfault
    obtain ⟨name, attempts, rfl⟩ := exists_of_extendAll_eq_error hfault
    rfl
  · intro t rest hgives calls start results t' rest' hrun
    obtain ⟨hsound, rfl, -, hnames⟩ := sound_ofNames hgives
    obtain ⟨hsound', hpolicy, hlength, hentries⟩ := sound_assignEach hsound hrun
    refine ⟨?_, hlength, hentries, ?_, ?_⟩
    · have hmatches := hpolicy ▸ hsound'.matches
      refine { hmatches with covers := fun name ↦ (hmatches.covers name).trans ?_ }
      rw [AliasTable.names, hentries, List.map_append, List.mem_append, List.mem_append]
      exact or_congr_left (hnames name)
    · intro name start fault rest hassign
      rw [run_assignEach_cons, hassign]
      rfl
    · exact fun more start others t'' rest'' hmore _ _ ↦ alias?_assignEach hsound' hmore

end Draws

/-- A name that is given twice in the beginning, a new one, and one that has an alias. -/
theorem matches_repeated_name : ∃ t rest results t' rest',
    (ofNames ⟨8, 1000⟩ ["a", "F", "a"]).Gives (Random.ChaCha.ofSeed 0) t rest ∧
      (t.assignEach ["q", "a"]).run rest = ((results, t'), rest') ∧
      t'.Matches ⟨8, 1000⟩ (["a", "F", "a"] ++ (gained ["q", "a"] results).map (·.1)) := by
  obtain ⟨t, rest, hgives, -⟩ : ∃ t rest,
      (ofNames ⟨8, 1000⟩ ["a", "F", "a"]).Gives (Random.ChaCha.ofSeed 0) t rest ∧
        (fun _ ↦ true) t = true := Trial.exists_gives_of_any (by decide +kernel)
  exact ⟨t, rest, _, _, _, hgives, rfl,
    ((matches_assignEach ⟨8, 1000⟩ ["a", "F", "a"] _).2.2 t rest hgives ["q", "a"] _ _ _ _ rfl).1⟩

end AliasTable

end FormulaQuiz
