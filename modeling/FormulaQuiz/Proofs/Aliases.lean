import FormulaQuiz.Proofs.Trial

/-!
# Tables of aliases grow

Names are given aliases one after the other, and what has been given stays: an older table is the
beginning of a newer one.  `AliasTable.extend_gives` says all that giving one alias does.
-/

namespace FormulaQuiz

variable {σ : Type} [Random.WordSource σ]

/-! ## Words -/

/-- The form of an alias: a small letter, and small letters or digits after it. -/
structure HasForm (length : Nat) (word : String) : Prop where
  length_eq : word.length = max 1 length
  head : ∀ c ∈ word.toList.head?, c.isLower = true
  tail : ∀ c ∈ word.toList.tail, (c.isLower || c.isDigit) = true

theorem drawChar_mem {chars : List Char} (h : 'a' ∈ chars) (source : σ) :
    ((drawChar chars).run source).1 ∈ chars := by
  have hget : ∀ i, chars.getD i 'a' ∈ chars := by
    intro i
    rw [List.getD_eq_getElem?_getD]
    cases hi : chars[i]? with
    | none => exact h
    | some c => exact List.mem_of_getElem? hi
  exact hget _

theorem drawChars_mem {chars : List Char} (h : 'a' ∈ chars) (count : Nat) (source : σ) :
    ((drawChars chars count).run source).1.length = count ∧
      ∀ c ∈ ((drawChars chars count).run source).1, c ∈ chars := by
  induction count generalizing source with
  | zero => exact ⟨rfl, nofun⟩
  | succ count ih =>
    obtain ⟨hlength, hmem⟩ := ih ((drawChar chars).run source).2
    exact ⟨congrArg (· + 1) hlength, List.forall_mem_cons.mpr ⟨drawChar_mem h source, hmem⟩⟩

theorem isLower_of_mem_aliasHeads : ∀ c ∈ aliasHeads, c.isLower = true :=
  List.all_eq_true.mp (by decide)

theorem isLower_or_isDigit_of_mem_aliasTails :
    ∀ c ∈ aliasTails, (c.isLower || c.isDigit) = true :=
  List.all_eq_true.mp (by decide)

theorem hasForm_ofList {length : Nat} {head : Char} {tail : List Char} (hhead : head ∈ aliasHeads)
    (htail : ∀ c ∈ tail, c ∈ aliasTails) (hlength : tail.length = length - 1) :
    HasForm length (String.ofList (head :: tail)) := by
  refine ⟨?_, ?_, ?_⟩
  · rw [String.length_ofList, List.length_cons, hlength]
    omega
  · rw [String.toList_ofList]
    rintro c ⟨⟩
    exact isLower_of_mem_aliasHeads _ hhead
  · rw [String.toList_ofList]
    exact fun c hc ↦ isLower_or_isDigit_of_mem_aliasTails c (htail c hc)

/-- Every drawn word has the form of an alias. -/
theorem hasForm_drawWord (length : Nat) (source : σ) :
    HasForm length ((drawWord length).run source).1 := by
  have htail := drawChars_mem (by decide : 'a' ∈ aliasTails) (length - 1)
    ((drawChar aliasHeads).run source).2
  exact hasForm_ofList (drawChar_mem (by decide) source) htail.2 htail.1

/-- A word that may be given as an alias beside others, when names are to be told from it. -/
structure IsFresh (length : Nat) (names aliases : List String) (word : String) : Prop where
  form : HasForm length word
  free : isFree names aliases word = true

/-- A word is drawn, and if it is not free another one. -/
theorem drawFree_succ (length attempts : Nat) (names aliases : List String) (source : σ) :
    (drawFree length names aliases (attempts + 1)).run source =
      if isFree names aliases ((drawWord length).run source).1 then
        (some ((drawWord length).run source).1, ((drawWord length).run source).2)
      else (drawFree length names aliases attempts).run ((drawWord length).run source).2 := by
  rw [drawFree, StateT.run_bind]
  simp only [bind]
  split <;> rfl

/-- A word that is found is fresh. -/
theorem isFresh_of_drawFree {length attempts : Nat} {names aliases : List String}
    {source rest : σ} {word : String}
    (h : (drawFree length names aliases attempts).run source = (some word, rest)) :
    IsFresh length names aliases word := by
  induction attempts generalizing source with
  | zero => cases h
  | succ attempts ih =>
    rw [drawFree_succ] at h
    split at h
    next hf =>
      obtain ⟨hword, -⟩ := Prod.mk.inj h
      rw [← Option.some.inj hword]
      exact ⟨hasForm_drawWord length source, hf⟩
    next => exact ih h

namespace AliasTable

/-- All names of a table have the same aliases in another, which may have more names. -/
structure Within (t t' : AliasTable) : Prop where
  policy : t'.policy = t.policy
  entries : t.entries <+: t'.entries

namespace Within

variable {t t' t'' : AliasTable}

theorem refl (t : AliasTable) : t.Within t := ⟨rfl, List.prefix_refl _⟩

theorem trans (h : t.Within t') (h' : t'.Within t'') : t.Within t'' :=
  ⟨h'.policy.trans h.policy, h.entries.trans h'.entries⟩

theorem alias?_eq {name word : String} (h : t.Within t') (hw : t.alias? name = some word) :
    t'.alias? name = some word := by
  obtain ⟨more, hmore⟩ := h.entries
  rw [alias?] at hw ⊢
  rw [← hmore, List.lookup_append, hw, Option.some_or]

theorem names_subset (h : t.Within t') : t.names ⊆ t'.names := (h.entries.map _).subset

theorem aliases_subset (h : t.Within t') : t.aliases ⊆ t'.aliases := (h.entries.map _).subset

end Within

/-- A table with one more entry at its end. -/
def push (t : AliasTable) (name word : String) : AliasTable :=
  { t with entries := t.entries ++ [(name, word)] }

theorem within_push (t : AliasTable) (name word : String) : t.Within (t.push name word) :=
  ⟨rfl, List.prefix_append _ _⟩

theorem alias?_push_self (t : AliasTable) (name word : String) :
    ((t.push name word).alias? name).isSome := by
  rw [alias?, push, List.lookup_append]
  simp

theorem alias?_push {t : AliasTable} {name word : String} (h : t.alias? name = none) :
    (t.push name word).alias? name = some word := by
  rw [alias?] at h
  rw [alias?, push, List.lookup_append, h, Option.none_or]
  simp

/-- A name gets a fresh word, as the last entry of the table. -/
theorem extend_gives {t : AliasTable} {names : List String} {name word : String}
    {t' : AliasTable} {source rest : σ} (h : (t.extend names name).Gives source (word, t') rest) :
    t' = t.push name word ∧ IsFresh t.policy.length names t.aliases word := by
  rw [extend, Trial.gives_bind_iff] at h
  obtain ⟨free, between, hdraw, h⟩ := h
  rw [Trial.gives_lift_iff] at hdraw
  cases free with
  | none => simp at h
  | some drawn =>
    rw [Trial.gives_pure_iff, Prod.mk.injEq] at h
    obtain ⟨⟨rfl, rfl⟩, -⟩ := h
    exact ⟨rfl, isFresh_of_drawFree hdraw⟩

theorem assign_gives {t : AliasTable} {name word : String} {t' : AliasTable} {source rest : σ}
    (h : (t.assign name).Gives source (word, t') rest) :
    t.alias? name = none ∧ t' = t.push name word ∧
      IsFresh t.policy.length (name :: t.names) t.aliases word := by
  rw [assign] at h
  split at h
  · simp at h
  next hname => exact ⟨Option.not_isSome_iff_eq_none.mp hname, extend_gives h⟩

/-- Aliases are kept while names are gone through. -/
theorem within_extendAll {t t' : AliasTable} {names list : List String} {source rest : σ}
    (h : (t.extendAll names list).Gives source t' rest) : t.Within t' := by
  induction list generalizing t source with
  | nil =>
    rw [extendAll, Trial.gives_pure_iff] at h
    rw [h.1]
    exact .refl t
  | cons name list ih =>
    rw [extendAll] at h
    split at h
    · exact ih h
    · rw [Trial.gives_bind_iff] at h
      obtain ⟨⟨word, grown⟩, between, hext, h⟩ := h
      obtain ⟨rfl, -⟩ := extend_gives hext
      exact (t.within_push name word).trans (ih h)

end AliasTable

end FormulaQuiz
