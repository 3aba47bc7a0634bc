import FormulaQuiz.Proofs.Guards
import FormulaQuiz.Proofs.Independence
import FormulaQuiz.Proofs.Strays

/-!
# The turns of the inputs

The inputs have their turns in the order of their names.  Names differ, so the turns do not depend
on the order of declaration.  An input that is not drawn leaves the source as it is; without it the
other inputs get the values that they get beside it.
-/

namespace FormulaQuiz

open Formula (Bindings)

/-! ## The order of turns -/

namespace Question

variable {q q' : Question} {v : Variable}

/-- The inputs in the order in which they get their values. -/
def turns (q : Question) : List Variable := q.inputs.mergeSort fun v w ↦ decide (v.name ≤ w.name)

theorem turns_perm (q : Question) : q.turns.Perm q.inputs := List.mergeSort_perm _ _

theorem pairwise_turns (q : Question) : q.turns.Pairwise fun v w ↦ v.name ≤ w.name := by
  refine (List.pairwise_mergeSort ?_ ?_ q.inputs).imp of_decide_eq_true
  · intro u v w huv hvw
    exact decide_eq_true (String.le_trans (of_decide_eq_true huv) (of_decide_eq_true hvw))
  · intro v w
    rw [Bool.or_eq_true, decide_eq_true_eq, decide_eq_true_eq]
    exact String.le_total v.name w.name

theorem nodup_inputs (hnodup : (q.variables.map (·.name)).Nodup) :
    (q.inputs.map (·.name)).Nodup :=
  (List.filter_sublist.map _).nodup hnodup

/-- There is one order in which the inputs can have their turns. -/
theorem turns_eq {vs : List Variable} (hnodup : (q.inputs.map (·.name)).Nodup)
    (hperm : vs.Perm q.inputs) (hsorted : vs.Pairwise fun v w ↦ v.name ≤ w.name) :
    q.turns = vs := by
  refine List.Perm.eq_of_pairwise ?_ q.pairwise_turns hsorted (q.turns_perm.trans hperm.symm)
  intro v w hv hw hvw hwv
  exact List.inj_on_of_nodup_map hnodup (q.turns_perm.mem_iff.mp hv) (hperm.mem_iff.mp hw)
    (String.le_antisymm hvw hwv)

/-- The order of declaration does not matter. -/
theorem turns_eq_of_perm (hnodup : (q.variables.map (·.name)).Nodup)
    (hperm : q'.variables.Perm q.variables) : q'.turns = q.turns :=
  (turns_eq (nodup_inputs hnodup) (q'.turns_perm.trans (hperm.filter _)) q'.pairwise_turns).symm

/-- An input has its turn between the others. -/
theorem exists_turns_eq (hnodup : (q.variables.map (·.name)).Nodup)
    (hperm : q.variables.Perm (v :: q'.variables)) (hv : v.isFinalAnswer = false) :
    ∃ front back, q.turns = front ++ v :: back ∧ q'.turns = front ++ back := by
  have hinputs : q.inputs.Perm (v :: q'.inputs) := by
    have hfilter := hperm.filter fun w ↦ !w.isFinalAnswer
    rwa [List.filter_cons_of_pos (by rw [hv]; rfl)] at hfilter
  obtain ⟨front, back, hturns⟩ := List.append_of_mem
    ((q.turns_perm.trans hinputs).mem_iff.mpr List.mem_cons_self)
  have hothers : (front ++ back).Perm q'.inputs :=
    List.Perm.cons_inv <| List.perm_middle.symm.trans <| hturns ▸ q.turns_perm.trans hinputs
  have hsorted : (front ++ back).Pairwise fun v w ↦ v.name ≤ w.name :=
    (hturns ▸ q.pairwise_turns).sublist
      ((List.Sublist.refl front).append (List.sublist_cons_self v back))
  have hnodup' : (q'.inputs.map (·.name)).Nodup :=
    (List.nodup_cons.mp ((hinputs.map (·.name)).nodup_iff.mp (nodup_inputs hnodup))).2
  exact ⟨front, back, hturns, turns_eq hnodup' hothers hsorted⟩

end Question

/-! ## Leaving out a word -/

namespace Formula.Bindings

variable {b : Bindings} {word : String}

/-- The bindings of the other words. -/
def erase (b : Bindings) (word : String) : Bindings := ⟨b.entries.filter fun e ↦ e.1 != word⟩

/-- The other words keep their values. -/
theorem get?_erase {u : String} (hu : u ≠ word) : (b.erase word).get? u = b.get? u := by
  rw [get?, get?, erase]
  induction b.entries with
  | nil => rfl
  | cons e es ih =>
    obtain ⟨own, x⟩ := e
    rw [List.filter_cons, List.lookup_cons]
    by_cases hown : own = word
    · rw [if_neg (by simp [hown]), ih, beq_false_of_ne (hown ▸ hu)]
    · rw [if_pos (bne_iff_ne.mpr hown), List.lookup_cons, ih]

theorem erase_of_notMem (h : word ∉ b.words) : b.erase word = b := by
  refine congrArg Bindings.mk (List.filter_eq_self.mpr fun e he ↦ bne_iff_ne.mpr ?_)
  rintro rfl
  exact h (List.mem_map_of_mem he)

/-- A binding of another word is made before or after. -/
theorem erase_append {u : String} (hu : u ≠ word) (x : Float) :
    Bindings.erase ⟨b.entries ++ [(u, x)]⟩ word = ⟨(b.erase word).entries ++ [(u, x)]⟩ := by
  have hkeep : ([(u, x)] : List (String × Float)).filter (fun e ↦ e.1 != word) = [(u, x)] :=
    List.filter_cons_of_pos (bne_iff_ne.mpr hu)
  rw [erase, List.filter_append, hkeep, erase]

theorem erase_append_self (h : word ∉ b.words) (x : Float) :
    Bindings.erase ⟨b.entries ++ [(word, x)]⟩ word = b := by
  refine Eq.trans ?_ (erase_of_notMem h)
  rw [erase, List.filter_append, List.filter_cons_of_neg (by simp), List.filter_nil,
    List.append_nil, erase]

end Formula.Bindings

/-! ## Inputs that are not drawn -/

/-- Whether an input is drawn: it has a range and draws are asked for. -/
def Variable.isDrawn (v : Variable) (randomize : Bool) : Bool :=
  match v.role with
  | .input _ (some _) => randomize
  | _ => false

theorem Trial.outcome_map {σ α β : Type} (f : α → β) (t : Trial σ α) (source : σ) :
    (f <$> t).outcome source = ((t.outcome source).1.map f, (t.outcome source).2) := by
  rw [← bind_pure_comp, outcome_bind]
  rcases t.outcome source with ⟨_ | _, _⟩ <;> rfl

/-- What is given is no final answer. -/
theorem Variable.isFinalAnswer_of_given {v : Variable} {x : Float} (h : v.given = .ok x) :
    v.isFinalAnswer = false := by
  rw [given] at h
  rw [isFinalAnswer]
  cases hrole : v.role with
  | finalAnswer places decoys => simp [hrole] at h
  | input default random => rfl

section Draws

variable {σ : Type} [Random.WordSource σ]

/-- What is not drawn is given. -/
theorem Variable.resolve_eq_of_not_drawn {v : Variable} {randomize : Bool}
    (h : v.isDrawn randomize = false) : (v.resolve randomize : Trial σ Float) = v.resolve false := by
  rw [isDrawn] at h
  rw [resolve, resolve]
  cases hrole : v.role with
  | finalAnswer places decoys => rfl
  | input default random =>
    cases random with
    | none => dsimp only; rw [ite_self, ite_self]
    | some range =>
      rw [hrole] at h
      rw [show randomize = false from h]

/-- Inputs none of which is drawn leave the source as it is. -/
theorem outcome_resolveAll_snd {aliases : AliasTable} {vs : List Variable} (b : Bindings)
    (source : σ) : ((resolveAll aliases false b vs).outcome source).2 = source := by
  induction vs generalizing b with
  | nil => rfl
  | cons v vs ih =>
    rw [resolveAll, Trial.outcome_bind, Variable.outcome_resolve_false]
    cases v.given with
    | error fault => rfl
    | ok x =>
      dsimp only
      cases aliases.alias? v.name with
      | none => rfl
      | some word =>
        dsimp only
        cases b.bind word x with
        | error _ => rfl
        | ok grown => exact ih grown

variable {aliases : AliasTable} {randomize : Bool} {b : Bindings} {word : String}

/-- Inputs with other aliases get the same values if a word is not bound. -/
theorem resolveAll_erase {vs : List Variable}
    (hvs : ∀ w ∈ vs, aliases.alias? w.name ≠ some word) :
    (resolveAll aliases randomize (b.erase word) vs : Trial σ Bindings) =
      (·.erase word) <$> resolveAll aliases randomize b vs := by
  refine funext fun source ↦ ?_
  change Trial.outcome _ source = Trial.outcome _ source
  induction vs generalizing b source with
  | nil => rfl
  | cons w vs ih =>
    obtain ⟨hw, hvs⟩ := List.forall_mem_cons.mp hvs
    rw [Trial.outcome_map, resolveAll, resolveAll, Trial.outcome_bind, Trial.outcome_bind]
    rcases (w.resolve randomize : Trial σ Float).outcome source with ⟨_ | x, rest⟩
    · rfl
    · dsimp only
      cases hown : aliases.alias? w.name with
      | none => rfl
      | some u =>
        dsimp only
        have hu : u ≠ word := fun heq ↦ hw (heq ▸ hown)
        rw [Bindings.bind, Bindings.bind, Bindings.get?_erase hu]
        cases b.get? u with
        | some y => rfl
        | none =>
          dsimp only
          rw [← Bindings.erase_append hu x, ih hvs, Trial.outcome_map]

/-- Without an input that is not drawn and has a value, the others get the same values. -/
theorem resolveAll_without {front back : List Variable} {v : Variable} {x : Float}
    (hdrawn : v.isDrawn randomize = false) (hx : v.given = .ok x)
    (hword : aliases.alias? v.name = some word)
    (hfront : ∀ w ∈ front, aliases.alias? w.name ≠ some word)
    (hback : ∀ w ∈ back, aliases.alias? w.name ≠ some word) (hnew : word ∉ b.words) :
    (resolveAll aliases randomize b (front ++ back) : Trial σ Bindings) =
      (·.erase word) <$> resolveAll aliases randomize b (front ++ v :: back) := by
  refine funext fun source ↦ ?_
  change Trial.outcome _ source = Trial.outcome _ source
  induction front generalizing b source with
  | nil =>
    rw [List.nil_append, List.nil_append, Trial.outcome_map, resolveAll, Trial.outcome_bind,
      Variable.resolve_eq_of_not_drawn hdrawn, Variable.outcome_resolve_false, hx]
    dsimp only
    rw [hword]
    dsimp only
    rw [Bindings.bind, Bindings.get?_eq_none_iff.mpr hnew]
    dsimp only
    rw [← Trial.outcome_map, ← resolveAll_erase hback, Bindings.erase_append_self hnew]
  | cons w front ih =>
    obtain ⟨hw, hfront⟩ := List.forall_mem_cons.mp hfront
    rw [List.cons_append, List.cons_append, Trial.outcome_map, resolveAll, resolveAll,
      Trial.outcome_bind, Trial.outcome_bind]
    rcases (w.resolve randomize : Trial σ Float).outcome source with ⟨_ | y, rest⟩
    · rfl
    · dsimp only
      cases hown : aliases.alias? w.name with
      | none => rfl
      | some u =>
        dsimp only
        cases hbind : b.bind u y with
        | error _ => rfl
        | ok grown =>
          dsimp only
          rw [ih hfront, Trial.outcome_map]
          rw [(Bindings.bind_eq_ok_iff.mp hbind).2, Bindings.words, List.map_append, List.mem_append]
          rintro (hold | hown')
          · exact hnew hold
          · exact hw (List.mem_singleton.mp hown' ▸ hown)

end Draws

/-! ## Binding the inputs -/

/-- What binding the inputs of a question depends on. -/
structure Question.TakesTurns (σ : Type) [Random.WordSource σ] (q : Question)
    (aliases : AliasTable) (randomize : Bool) : Prop where
  /-- The order of declaration does not matter, neither to what is bound nor to the faults and the
  source. -/
  perm : ∀ q' : Question, q'.variables.Perm q.variables →
    (q'.resolveInputs aliases randomize : Trial σ Bindings) = q.resolveInputs aliases randomize
  /-- The aliases of the inputs become bound, each once, and no other words. -/
  words : ∀ (source : σ) b rest, (q.resolveInputs aliases randomize).Gives source b rest →
    b.words.Nodup ∧ ∀ word, word ∈ b.words ↔ ∃ v ∈ q.inputs, aliases.alias? v.name = some word
  /-- Without an input that is not drawn and has a value, its alias is not bound, and all else is as
  it is with it. -/
  without : ∀ (q' : Question) v, q.variables.Perm (v :: q'.variables) →
    v.isDrawn randomize = false →
    (∃ (source : σ) (x : Float) (rest : σ), (v.resolve randomize).Gives source x rest) →
    ∃ word, aliases.alias? v.name = some word ∧
      (q'.resolveInputs aliases randomize : Trial σ Bindings) =
        (·.erase word) <$> q.resolveInputs aliases randomize
  /-- If draws are not asked for, the source is not used. -/
  quiet : randomize = false → ∀ source : σ,
    ((q.resolveInputs aliases randomize).outcome source).2 = source

namespace Question

variable {σ τ : Type} [Random.WordSource σ] [Random.WordSource τ] {q q' : Question}
  {aliases : AliasTable} {randomize : Bool}

/-- A word is bound just if it is the alias of an input. -/
theorem mem_words_resolveInputs_iff {b : Bindings} {source rest : σ}
    (h : (q.resolveInputs aliases randomize).Gives source b rest) {word : String} :
    word ∈ b.words ↔ ∃ v ∈ q.inputs, aliases.alias? v.name = some word := by
  constructor
  · intro hword
    rcases exists_of_mem_words_resolveAll h hword with nil | ⟨v, hv, halias⟩
    · exact absurd nil List.not_mem_nil
    · exact ⟨v, List.mem_mergeSort.mp hv, halias⟩
  · rintro ⟨v, hv, halias⟩
    obtain ⟨own, hown, hname⟩ := (words_resolveInputs h).2.2 v hv
    exact Option.some.inj (hname.symm.trans halias) ▸ hown

/-- Without an input that is not drawn and has a value, the others get the same values. -/
theorem resolveInputs_without {v : Variable} {x : Float} {word : String} (hsound : aliases.Sound)
    (hnodup : (q.variables.map (·.name)).Nodup) (hperm : q.variables.Perm (v :: q'.variables))
    (hdrawn : v.isDrawn randomize = false) (hx : v.given = .ok x)
    (hword : aliases.alias? v.name = some word) :
    (q'.resolveInputs aliases randomize : Trial σ Bindings) =
      (·.erase word) <$> q.resolveInputs aliases randomize := by
  obtain ⟨front, back, hturns, hothers⟩ :=
    exists_turns_eq hnodup hperm (Variable.isFinalAnswer_of_given hx)
  have hfresh : v.name ∉ q'.variables.map (·.name) :=
    (List.nodup_cons.mp ((hperm.map (·.name)).nodup_iff.mp hnodup)).1
  have hapart : ∀ w ∈ front ++ back, aliases.alias? w.name ≠ some word := by
    intro w hw halias
    rw [← hothers, q'.turns_perm.mem_iff] at hw
    exact hfresh (List.mem_map.mpr
      ⟨w, (List.mem_filter.mp hw).1, hsound.name_unique halias hword⟩)
  change resolveAll aliases randomize .empty q'.turns =
    (·.erase word) <$> resolveAll aliases randomize .empty q.turns
  rw [hturns, hothers]
  exact resolveAll_without hdrawn hx hword (fun w hw ↦ hapart w (List.mem_append_left _ hw))
    (fun w hw ↦ hapart w (List.mem_append_right _ hw)) List.not_mem_nil

/-- The inputs of an accepted question whose variables have aliases take their turns. -/
theorem takesTurns_of_ofNames {d : Draft} {policy : AliasPolicy} {source between : σ}
    (hq : ofDraft d = .ok q)
    (hnames : (AliasTable.ofNames policy (q.variables.map (·.name))).Gives source aliases between)
    (randomize : Bool) : q.TakesTurns τ aliases randomize := by
  have hnodup := nodup_names hq
  obtain ⟨hsound, -, -, hcovers⟩ := AliasTable.sound_ofNames hnames
  refine ⟨fun q' hperm ↦ ?_, fun start b rest hgives ↦ ?_, ?_, ?_⟩
  · exact congrArg (resolveAll aliases randomize .empty) (turns_eq_of_perm hnodup hperm)
  · exact ⟨(words_resolveInputs hgives).1, fun word ↦ mem_words_resolveInputs_iff hgives⟩
  · rintro q' v hperm hdrawn ⟨start, x, rest, hgives⟩
    have hx : v.given = .ok x := by
      rw [Trial.Gives, Variable.resolve_eq_of_not_drawn hdrawn] at hgives
      exact congrArg Prod.fst ((v.outcome_resolve_false start).symm.trans hgives)
    have hname : v.name ∈ aliases.names :=
      (hcovers _).mpr (List.mem_map_of_mem (hperm.mem_iff.mpr List.mem_cons_self))
    obtain ⟨word, hword⟩ := Option.isSome_iff_exists.mp (AliasTable.isSome_alias?_iff.mpr hname)
    exact ⟨word, hword, resolveInputs_without hsound hnodup hperm hdrawn hx hword⟩
  · rintro rfl start
    exact outcome_resolveAll_snd .empty start

end Question

/-- A draft with an input that is given and one that is drawn. -/
def Draft.mixed : Draft :=
  ⟨{ name := "b", default := some (.number 2) } :: Draft.drawn.variables, Draft.drawn.methods⟩

/-- The question that the draft is. -/
def Question.mixed : Question :=
  ⟨⟨"b", none, none, .input (some (.number 2)) none⟩ :: drawn.variables, drawn.steps⟩

theorem Question.ofDraft_mixed : ofDraft .mixed = .ok .mixed := by with_unfolding_all rfl

/-- The draws are the same with the given input and without it. -/
theorem Question.takesTurns_mixed : ∃ aliases between word,
    (AliasTable.ofNames ⟨8, 1000⟩ (mixed.variables.map (·.name))).Gives (Random.ChaCha.ofSeed 0)
        aliases between ∧
      mixed.TakesTurns Random.ChaCha aliases true ∧ aliases.alias? "b" = some word ∧
      (drawn.resolveInputs aliases true : Trial Random.ChaCha Bindings) =
        (·.erase word) <$> mixed.resolveInputs aliases true := by
  obtain ⟨aliases, between, hnames, -⟩ : ∃ aliases between,
      (AliasTable.ofNames ⟨8, 1000⟩ ["b", "a", "F"]).Gives (Random.ChaCha.ofSeed 0)
        aliases between ∧ (fun _ ↦ true) aliases = true :=
    Trial.exists_gives_of_any (by decide +kernel)
  have hturns : mixed.TakesTurns Random.ChaCha aliases true :=
    takesTurns_of_ofNames ofDraft_mixed hnames true
  obtain ⟨word, hword, hwithout⟩ := hturns.without drawn _ (List.Perm.refl _) rfl
    ⟨Random.ChaCha.ofSeed 0, 2, Random.ChaCha.ofSeed 0, rfl⟩
  exact ⟨aliases, between, word, hnames, hturns, hword, hwithout⟩

end FormulaQuiz
