import FormulaQuiz.Proofs.Preview
import FormulaQuiz.Proofs.Printing

/-!
# Options that differ

Two options differ just if some final answer is printed differently in them: the names and units are
the same, and no number that is printed has a comma, so the parts of an option can be told apart.
Wrong values of a final answer differ as floats; that they also differ in print is seen for values
below the limit of `isLegible`.
-/

namespace FormulaQuiz

open Rounding

/-! ## Commas -/

/-- A sign may be left out of a printed number, and nothing is added. -/
theorem mem_fixedChars_of_mem_formatFixed {x : Float} {places : UInt8} {c : Char}
    (h : c ∈ (formatFixed x places).toList) :
    c ∈ Decimal.fixedChars places.toNat (roundTo x places) := by
  rw [formatFixed, String.toList_ofList] at h
  unfold dropZeroSign at h
  split at h
  next cs hchars =>
    rw [hchars]
    split at h
    · exact List.mem_cons_of_mem _ h
    · exact h
  · exact h

/-- No number is printed with a comma. -/
theorem comma_not_mem_formatFixed (x : Float) (places : UInt8) :
    ',' ∉ (formatFixed x places).toList := by
  refine fun h ↦ absurd (mem_fixedChars_of_mem_formatFixed h) ?_
  rw [Decimal.fixedChars]
  split
  · split
    · decide
    · split <;> decide
  next d _ =>
    have hplaced : ',' ∉ Decimal.placedText places.toNat (Decimal.unitsAt places.toNat d) :=
      fun hmem ↦ absurd (Decimal.isDigit_or_eq_point hmem) (by decide)
    dsimp only
    split
    · exact fun hmem ↦ hplaced ((List.mem_cons.mp hmem).resolve_left (by decide))
    · exact hplaced

/-- Texts without commas are told from each other in front of a comma. -/
theorem append_comma_inj {t t' rest rest' : List Char} (h : ',' ∉ t) (h' : ',' ∉ t')
    (heq : t ++ ',' :: rest = t' ++ ',' :: rest') : t = t' ∧ rest = rest' := by
  induction t generalizing t' with
  | nil =>
    cases t' with
    | nil => exact ⟨rfl, (List.cons.inj heq).2⟩
    | cons c t' => exact absurd ((List.cons.inj heq).1 ▸ List.mem_cons_self) h'
  | cons c t ih =>
    cases t' with
    | nil => exact absurd ((List.cons.inj heq).1 ▸ List.mem_cons_self) h
    | cons c' t' =>
      rw [List.cons_append, List.cons_append] at heq
      obtain ⟨rfl, htail⟩ := List.cons.inj heq
      obtain ⟨rfl, rfl⟩ := ih (fun hmem ↦ h (List.mem_cons_of_mem _ hmem))
        (fun hmem ↦ h' (List.mem_cons_of_mem _ hmem)) htail
      exact ⟨rfl, rfl⟩

/-- Parts that end in texts without commas can be told apart when they are joined. -/
theorem intercalate_inj {α : Type} {head t t' : α → String} {items : List α}
    (h : ∀ a, ',' ∉ (t a).toList) (h' : ∀ a, ',' ∉ (t' a).toList)
    (heq : ",".intercalate (items.map fun a ↦ head a ++ t a) =
      ",".intercalate (items.map fun a ↦ head a ++ t' a)) : ∀ a ∈ items, t a = t' a := by
  induction items with
  | nil => exact fun _ ha ↦ absurd ha List.not_mem_nil
  | cons a items ih =>
    cases items with
    | nil =>
      rw [List.map_singleton, List.map_singleton, String.intercalate_singleton,
        String.intercalate_singleton] at heq
      exact List.forall_mem_singleton.mpr ((String.append_right_inj _).mp heq)
    | cons b items =>
      have hne : ∀ f : α → String, (b :: items).map f ≠ [] := fun f ↦ List.cons_ne_nil _ _
      change ",".intercalate ((head a ++ t a) :: (b :: items).map fun a ↦ head a ++ t a) =
        ",".intercalate ((head a ++ t' a) :: (b :: items).map fun a ↦ head a ++ t' a) at heq
      rw [String.intercalate_cons_of_ne_nil (hne _), String.intercalate_cons_of_ne_nil (hne _),
        String.append_assoc, String.append_assoc, String.append_assoc, String.append_assoc] at heq
      have hlists := congrArg String.toList ((String.append_right_inj _).mp heq)
      simp only [String.toList_append] at hlists
      obtain ⟨ht, hrest⟩ := append_comma_inj (h a) (h' a) hlists
      exact List.forall_mem_cons.mpr ⟨String.toList_inj.mp ht, ih (String.toList_inj.mp hrest)⟩

/-- Rows of answers are the same text just if every final answer is printed alike in them. -/
theorem answerRow_inj {α : Type} {items : List α} {answer : α → FinalValue} {f g : α → Float} :
    answerRow (items.map answer) (items.map f) = answerRow (items.map answer) (items.map g) ↔
      ∀ a ∈ items, formatFixed (f a) (answer a).places = formatFixed (g a) (answer a).places := by
  rw [answerRow_map, answerRow_map]
  constructor
  · intro heq
    exact intercalate_inj (fun a ↦ comma_not_mem_formatFixed (f a) _)
      (fun a ↦ comma_not_mem_formatFixed (g a) _) heq
  · intro h
    refine congrArg _ (List.map_congr_left fun a ha ↦ ?_)
    rw [answerPart, answerPart, h a ha]

/-- Whatever the names and units are, two rows of values are joined to the same text just if the
values are printed alike at every place. -/
theorem answerRow_eq_iff {finals : List FinalValue} {vs ws : List Float}
    (hvs : vs.length = finals.length) (hws : ws.length = finals.length) :
    answerRow finals vs = answerRow finals ws ↔
      ∀ (i : ℕ) (_ : i < finals.length) (_ : i < vs.length) (_ : i < ws.length),
        formatFixed vs[i] finals[i].places = formatFixed ws[i] finals[i].places := by
  have hlength : (vs.zip ws).length = finals.length := by
    rw [List.length_zip, hvs, hws, min_self]
  have hpairs : (finals.zip (vs.zip ws)).map Prod.snd = vs.zip ws :=
    List.map_snd_zip hlength.le
  obtain ⟨items, rfl, rfl, rfl⟩ : ∃ items : List (FinalValue × Float × Float),
      items.map (·.1) = finals ∧ items.map (·.2.1) = vs ∧ items.map (·.2.2) = ws := by
    refine ⟨finals.zip (vs.zip ws), ?_, ?_, ?_⟩
    · exact List.map_fst_zip hlength.ge
    · change (finals.zip (vs.zip ws)).map (Prod.fst ∘ Prod.snd) = vs
      rw [← List.map_map, hpairs, List.map_fst_zip (hvs.trans hws.symm).le]
    · change (finals.zip (vs.zip ws)).map (Prod.snd ∘ Prod.snd) = ws
      rw [← List.map_map, hpairs, List.map_snd_zip (hvs.trans hws.symm).ge]
  rw [answerRow_inj, List.forall_mem_iff_getElem]
  simp only [List.length_map, List.getElem_map]
  exact ⟨fun h i hi _ _ ↦ h i hi, fun h i hi ↦ h i hi hi hi⟩

/-- Two final answers, the name of the first of which looks like a part and the beginning of
another. -/
def FinalValue.lookalikes : List FinalValue :=
  [⟨"x = 1,x", none, 1, defaultDecoys, 0⟩, ⟨"x", some "m) = 2,x (m", 0, defaultDecoys, 0⟩]

theorem answerRow_ne_lookalikes :
    [2.5, 3].length = FinalValue.lookalikes.length ∧
      [2.5, 31].length = FinalValue.lookalikes.length ∧
      answerRow FinalValue.lookalikes [2.5, 3] ≠ answerRow FinalValue.lookalikes [2.5, 31] := by
  refine ⟨rfl, rfl, fun heq ↦ ?_⟩
  have hprinted := (answerRow_eq_iff rfl rfl).mp heq 1 (by decide) (by decide) (by decide)
  revert hprinted
  decide +kernel

/-! ## Wrong values -/

section Decoys

variable {value : Float} {places : UInt8}

/-- Every wrong value has the author's precision. -/
theorem exists_roundTo_of_mem_decoysFrom {seen deviations : List Float} {d : Decoy}
    (h : d ∈ decoysFrom value places seen deviations) : ∃ x, d.value = roundTo x places := by
  induction deviations generalizing seen with
  | nil => exact absurd h List.not_mem_nil
  | cons deviation deviations ih =>
    rw [decoysFrom] at h
    split at h
    · exact ih h
    · rcases List.mem_cons.mp h with rfl | h
      · exact ⟨_, rfl⟩
      · exact ih h

/-- No wrong value is the right one or one that was seen. -/
theorem beq_eq_false_of_mem_decoysFrom {seen deviations : List Float} {d : Decoy}
    (h : d ∈ decoysFrom value places seen deviations) :
    (d.value == value) = false ∧ ∀ x ∈ seen, (x == d.value) = false := by
  induction deviations generalizing seen with
  | nil => exact absurd h List.not_mem_nil
  | cons deviation deviations ih =>
    rw [decoysFrom] at h
    split at h
    · exact ih h
    next hnew =>
      rw [Bool.not_eq_true, Bool.or_eq_false_iff] at hnew
      rcases List.mem_cons.mp h with rfl | h
      · exact ⟨hnew.1, fun x hx ↦ Bool.eq_false_iff.mpr fun heq ↦
          Bool.eq_false_iff.mp hnew.2 (List.any_eq_true.mpr ⟨x, hx, heq⟩)⟩
      · obtain ⟨hvalue, hseen⟩ := ih h
        exact ⟨hvalue, fun x hx ↦ hseen x (List.mem_cons_of_mem _ hx)⟩

theorem pairwise_decoysFrom {seen deviations : List Float} :
    (decoysFrom value places seen deviations).Pairwise fun d d' ↦ (d.value == d'.value) = false := by
  induction deviations generalizing seen with
  | nil => exact .nil
  | cons deviation deviations ih =>
    rw [decoysFrom]
    split
    · exact ih
    · refine .cons (fun d hd ↦ ?_) ih
      exact (beq_eq_false_of_mem_decoysFrom hd).2 _ List.mem_cons_self

end Decoys

namespace AnswerColumn

/-- The texts of a final answer: that of the right value, then those of the wrong ones by row. -/
def texts (c : AnswerColumn) : List String :=
  (c.answer.value :: c.values).map (formatFixed · c.answer.places)

/-- Legible values of a final answer are printed differently. -/
theorem Fits.nodup_texts {c : AnswerColumn} {count : ℕ} (h : c.Fits count)
    (hlegible : ∀ x ∈ c.answer.value :: c.values, isLegible c.answer.places x = true) :
    c.texts.Nodup := by
  obtain ⟨deviations, -, hcandidates, -⟩ := DecoyPool.candidates_eq h.pool
  obtain ⟨raw, hraw⟩ := h.answers.value
  obtain ⟨drawn, hperm, hsub⟩ := h.drawn
  rw [hcandidates] at hsub
  have hdiffer : c.pool.candidates.Pairwise fun d d' ↦
      isLegible c.answer.places d.value = true → isLegible c.answer.places d'.value = true →
        formatFixed d.value c.answer.places ≠ formatFixed d'.value c.answer.places := by
    rw [hcandidates]
    refine pairwise_decoysFrom.imp_of_mem fun {d d'} hd hd' hne hlegible hlegible' heq ↦ ?_
    obtain ⟨x, hx⟩ := exists_roundTo_of_mem_decoysFrom hd
    obtain ⟨x', hx'⟩ := exists_roundTo_of_mem_decoysFrom hd'
    rw [hx] at hne hlegible heq
    rw [hx'] at hne hlegible' heq
    exact Bool.eq_false_iff.mp hne (beq_of_formatFixed_eq hlegible hlegible' heq)
  rw [hcandidates] at hdiffer
  have hdecoys := (hperm.pairwise_iff fun hdd' h h' ↦ (hdd' h' h).symm).mp (hdiffer.sublist hsub)
  obtain ⟨hvalue, hvalues⟩ := List.forall_mem_cons.mp hlegible
  rw [values, List.forall_mem_map] at hvalues
  rw [texts, values, List.map_cons, List.map_map, List.nodup_cons]
  refine ⟨fun hmem ↦ ?_, List.pairwise_map.mpr (hdecoys.imp_of_mem fun hd hd' hne ↦
    hne (hvalues _ hd) (hvalues _ hd'))⟩
  obtain ⟨d, hd, heq⟩ := List.mem_map.mp hmem
  have hfrom := hsub.subset (hperm.mem_iff.mpr hd)
  obtain ⟨x, hx⟩ := exists_roundTo_of_mem_decoysFrom hfrom
  have hne := (beq_eq_false_of_mem_decoysFrom hfrom).1
  have hlegible' := hvalues d hd
  rw [Function.comp_apply, hx, hraw] at heq
  rw [hx] at hlegible'
  rw [hraw] at hvalue
  have hbeq := beq_of_formatFixed_eq hlegible' hvalue heq
  rw [← hx, ← hraw] at hbeq
  exact Bool.eq_false_iff.mp hne hbeq

end AnswerColumn

/-! ## Options -/

/-- For each final answer the texts of its values, that of the right one before those of the wrong
ones by row. -/
def Preview.texts (p : Preview) (q : Question) : List (List String) :=
  q.finalAnswers.zipWith (fun v f ↦ (f.value :: f.incorrectValues).map
    (formatFixed · (v.decimalPlaces.getD defaultPlaces))) p.finalAnswers

section Columns

variable {count : ℕ} {cs : List AnswerColumn}

theorem Preview.texts_columns {d : Draft} {q : Question} {p : Preview}
    (hq : Question.ofDraft d = .ok q) (hasked : cs.map (·.asked) = q.finalAnswers)
    (hreports : p.finalAnswers = cs.map AnswerColumn.report) (hfits : ∀ c ∈ cs, c.Fits count) :
    p.texts q = cs.map AnswerColumn.texts := by
  rw [texts, hreports, ← hasked, List.zipWith_map, List.zipWith_self]
  refine List.map_congr_left fun c hc ↦ ?_
  rw [Question.decimalPlaces_asked hq hasked hfits hc]
  rfl

/-- The value of a final answer in an option: the right one in the first, and then those of the
rows. -/
def AnswerColumn.valueAt (c : AnswerColumn) (i : ℕ) : Float := (c.answer.value :: c.values).getD i 0

theorem AnswerColumn.Fits.getElem?_texts {c : AnswerColumn} (h : c.Fits count) {i : ℕ}
    (hi : i ≤ count) : c.texts[i]? = some (formatFixed (c.valueAt i) c.answer.places) := by
  have hlt : i < (c.answer.value :: c.values).length := by
    rw [List.length_cons, values, List.length_map, h.length]
    omega
  rw [texts, List.getElem?_map, valueAt, List.getD_eq_getElem?_getD,
    List.getElem?_eq_getElem hlt, Option.map_some, Option.getD_some]

/-- The options in the order of their rows, the right one first. -/
theorem rows_eq :
    answerRow (cs.map (·.answer)) (cs.map (·.answer.value)) ::
      (List.range count).map (fun r ↦
        answerRow (cs.map (·.answer)) (cs.map (·.values.getD r 0))) =
      (List.range (count + 1)).map fun i ↦ answerRow (cs.map (·.answer)) (cs.map (·.valueAt i)) := by
  rw [List.range_succ_eq_map, List.map_cons, List.map_map]
  rfl

/-- Items that are made of the numbers below a bound differ just if those of any two numbers do. -/
theorem nodup_map_range {α : Type} {f : ℕ → α} {n : ℕ} :
    ((List.range (n + 1)).map f).Nodup ↔ ∀ i j, i < j → j ≤ n → f i ≠ f j := by
  rw [List.Nodup, List.pairwise_map, List.pairwise_iff_getElem]
  simp only [List.length_range, List.getElem_range]
  constructor
  · exact fun h i j hij hj ↦ h i j (by omega) (by omega) hij
  · exact fun h i j _ hj hij ↦ h i j hij (by omega)

/-- The options differ just if any two of them are printed differently for some final answer. -/
theorem nodup_rows_iff (hfits : ∀ c ∈ cs, c.Fits count) :
    ((List.range (count + 1)).map fun i ↦
      answerRow (cs.map (·.answer)) (cs.map (·.valueAt i))).Nodup ↔
      ∀ i j, i < j → j ≤ count → ∃ ts ∈ cs.map AnswerColumn.texts, ts[i]? ≠ ts[j]? := by
  rw [nodup_map_range]
  refine forall₂_congr fun i j ↦ forall₂_congr fun hij hj ↦ ?_
  rw [ne_eq, answerRow_inj, not_forall]
  constructor
  · rintro ⟨c, hc⟩
    obtain ⟨hmem, hne⟩ := Classical.not_imp.mp hc
    refine ⟨c.texts, List.mem_map_of_mem hmem, ?_⟩
    rw [(hfits c hmem).getElem?_texts (by omega), (hfits c hmem).getElem?_texts hj]
    exact fun heq ↦ hne (Option.some.inj heq)
  · rintro ⟨_, hmem, hne⟩
    obtain ⟨c, hc, rfl⟩ := List.mem_map.mp hmem
    rw [(hfits c hc).getElem?_texts (by omega), (hfits c hc).getElem?_texts hj] at hne
    exact ⟨c, Classical.not_imp.mpr ⟨hc, fun heq ↦ hne (congrArg some heq)⟩⟩

end Columns

/-- The options of a variation are different texts just if any two of them are printed differently
for some final answer, and they are if the values of one final answer are legible. -/
theorem Settings.nodup_contents_of_generate {σ : Type} [Random.WordSource σ] {d : Draft}
    {q : Question} {s : Settings} {randomize : Bool} {source rest : σ} {v : Variation}
    (hq : Question.ofDraft d = .ok q) (h : (s.generate q randomize).Gives source v rest) :
    ∃ p : Preview, (s.preview q randomize).Gives source p rest ∧ p.variation = v ∧
      ((v.answers.map (·.content)).Nodup ↔
        ∀ i j, i < j → j ≤ s.decoyCount → ∃ ts ∈ p.texts q, ts[i]? ≠ ts[j]?) ∧
      ((∃ vf ∈ q.finalAnswers.zip p.finalAnswers, ∀ x ∈ vf.2.value :: vf.2.incorrectValues,
        isLegible (vf.1.decimalPlaces.getD defaultPlaces) x = true) →
        (v.answers.map (·.content)).Nodup) := by
  rw [generate, Trial.gives_bind_iff] at h
  obtain ⟨p, between, hp, h⟩ := h
  obtain ⟨rfl, rfl⟩ := Trial.gives_pure_iff.mp h
  obtain ⟨cs, hfits, hasked, hreports, hperm, -⟩ := columns_of_preview hp
  have hrows := hperm.map (·.content)
  rw [List.map_cons, List.map_map] at hrows
  have hiff := hrows.nodup_iff.trans ((congrArg List.Nodup rows_eq).to_iff.trans
    (nodup_rows_iff hfits))
  rw [← Preview.texts_columns hq hasked hreports hfits] at hiff
  refine ⟨p, hp, rfl, hiff, ?_⟩
  rintro ⟨vf, hvf, hlegible⟩
  rw [hreports, ← hasked, List.zip_map', List.mem_map] at hvf
  obtain ⟨c, hmem, rfl⟩ := hvf
  have hfit := hfits c hmem
  have hnodup := hfit.nodup_texts fun x hx ↦ by
    rw [← Question.decimalPlaces_asked hq hasked hfits hmem]
    exact hlegible x hx
  rw [hiff, Preview.texts_columns hq hasked hreports hfits]
  intro i j hij hj
  refine ⟨c.texts, List.mem_map_of_mem hmem, fun heq ↦ ?_⟩
  have hi := hfit.getElem?_texts (hij.le.trans hj)
  exact hij.ne ((List.getElem?_inj (List.getElem?_eq_some_iff.mp hi).1 hnodup).mp heq)

/-- Values below a bound are legible if the bound has few enough units of the last place. -/
theorem isLegible_of_isBelow {places : UInt8} {bound : ℕ} {p : Preview} {f : FinalAnswerPreview}
    (hbound : bound * 10 ^ places.toNat ≤ unitLimit places) (hp : p.isBelow bound = true)
    (hf : f ∈ p.finalAnswers) {x : Float} (hx : x ∈ f.value :: f.incorrectValues) :
    isLegible places x = true := by
  obtain ⟨d, hd, hlt⟩ := Preview.exists_of_isBelow hp hf hx
  rw [isLegible, hd, Option.any_some, decide_eq_true_eq]
  calc d.numerator * 10 ^ places.toNat
      < bound * d.denominator * 10 ^ places.toNat := by
        have hpos : 0 < 10 ^ places.toNat := by positivity
        exact Nat.mul_lt_mul_of_pos_right hlt hpos
    _ = bound * 10 ^ places.toNat * d.denominator := by ring
    _ ≤ unitLimit places * d.denominator := Nat.mul_le_mul_right _ hbound

theorem Settings.nodup_contents_triple : ∃ v rest,
    (generate {} .triple false).Gives (Random.ChaCha.ofSeed 0) v rest ∧
      (v.answers.map (·.content)).Nodup := by
  obtain ⟨p, rest, hp, hbelow⟩ := exists_preview_triple
  have h : (generate {} .triple false).Gives (Random.ChaCha.ofSeed 0) p.variation rest :=
    Trial.gives_bind_iff.mpr ⟨p, rest, hp, Trial.gives_pure_iff.mpr ⟨rfl, rfl⟩⟩
  refine ⟨p.variation, rest, h, ?_⟩
  obtain ⟨p', hp', -, -, hnodup⟩ := nodup_contents_of_generate Question.ofDraft_triple h
  obtain rfl : p = p' := Except.ok.inj (congrArg Prod.fst (hp.symm.trans hp'))
  obtain ⟨cs, -, hasked, hreports, -, -⟩ := columns_of_preview hp
  obtain ⟨c, rfl⟩ := List.length_eq_one_iff.mp
    ((List.length_map _).symm.trans (congrArg List.length hasked))
  have hmem : c.report ∈ p.finalAnswers := hreports ▸ List.mem_singleton_self _
  have hplaces : c.asked.decimalPlaces.getD defaultPlaces = 1 :=
    congrArg (fun v : Variable ↦ v.decimalPlaces.getD defaultPlaces) (List.cons.inj hasked).1
  refine hnodup ⟨(c.asked, c.report), ?_, fun x hx ↦ ?_⟩
  · rw [hreports, ← hasked]
    exact List.mem_singleton_self _
  · rw [hplaces]
    exact isLegible_of_isBelow (by decide) hbelow hmem hx

end FormulaQuiz
