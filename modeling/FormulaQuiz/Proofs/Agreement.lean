import FormulaQuiz.Formula.Evaluation
import FormulaQuiz.Proofs.Reading

/-!
# Values of formulas that differ in their aliases

Formulas that are alike, evaluated where corresponding aliases have the same values, have the same
value or faults with the same code.  What a fault says may name an alias, its code does not.
-/

namespace FormulaQuiz

/-- Two results are values that correspond, or faults with the same code. -/
inductive Agree {ε α α' : Type} (code : ε → String) (S : α → α' → Prop) :
    Except ε α → Except ε α' → Prop where
  | ok {a : α} {a' : α'} (h : S a a') : Agree code S (.ok a) (.ok a')
  | error {f f' : ε} (h : code f = code f') : Agree code S (.error f) (.error f')

theorem Agree.refl {ε α : Type} {code : ε → String} (r : Except ε α) : Agree code Eq r r := by
  cases r with
  | ok a => exact .ok rfl
  | error f => exact .error rfl

theorem Agree.bind {ε α α' β β' : Type} {code : ε → String} {S : α → α' → Prop}
    {S' : β → β' → Prop} {r : Except ε α} {r' : Except ε α'} {f : α → Except ε β}
    {f' : α' → Except ε β'} (h : Agree code S r r')
    (hf : ∀ a a', r = .ok a → r' = .ok a' → S a a' → Agree code S' (f a) (f' a')) :
    Agree code S' (r >>= f) (r' >>= f') := by
  cases h with
  | ok h => exact hf _ _ rfl rfl h
  | error h => exact .error h

namespace Formula

variable {ρ : Renaming}

/-! ## Functions -/

theorem hasMeaning_of_floatFunction? {w : String} {f : FloatFunction}
    (h : floatFunction? w = some f) : hasMeaning w = true := by
  unfold floatFunction? at h
  split at h
  case h_21 => exact nomatch h
  all_goals decide

theorem IsAlias.floatFunction?_eq {w : String} (h : IsAlias w) : floatFunction? w = none := by
  cases hf : floatFunction? w with
  | none => rfl
  | some f => exact absurd (h.meaningless.symm.trans (hasMeaning_of_floatFunction? hf)) nofun

theorem IsAlias.otherFunction?_eq {w : String} (h : IsAlias w) (v : Value) :
    otherFunction? w v = none := by
  unfold otherFunction?
  split
  case h_10 => rfl
  · exact absurd h.meaningless (by decide)
  all_goals first | exact absurd h.isKept (by decide) | exact absurd h.unknown (by decide)

theorem IsAlias.wordFunction?_eq {w : String} (h : IsAlias w) : wordFunction? w = none := by
  unfold wordFunction?
  split
  case h_5 => rfl
  all_goals exact absurd h.isName (by decide)

/-- No function has an alias as its name. -/
theorem IsAlias.applyFunction_eq {w : String} (h : IsAlias w) (vs : List Value) :
    applyFunction w vs = Value.unsupported w vs := by
  unfold applyFunction
  split
  · rw [applyOne.eq_def, h.otherFunction?_eq, h.floatFunction?_eq]
  · rw [if_neg (h.ne (by decide)), if_neg (h.ne (by decide))]
  · rw [h.wordFunction?_eq]
  · rfl

theorem applyFunction_agree {u v : String} (h : ρ.Corresponds u v) (vs : List Value) :
    Agree Fault.code Eq (applyFunction u vs) (applyFunction v vs) := by
  cases h with
  | name h =>
    rw [(ρ.isAlias h).1.applyFunction_eq, (ρ.isAlias h).2.applyFunction_eq]
    exact .error rfl
  | own => exact .refl _

/-! ## Actions -/

/-- States with the same cells, where words that correspond stand for the same. -/
structure State.Alike (ρ : Renaming) (s s' : State) : Prop where
  cells : s.cells = s'.cells
  scope : ∀ {u v}, ρ.Corresponds u v → s.scope.lookup u = s'.scope.lookup v

namespace Machine

variable {α β : Type}

/-- Two actions, run in states that are alike, give the same and change nothing, or faults with the
same code interrupt both. -/
def Agrees (ρ : Renaming) (m m' : Machine α) : Prop :=
  ∀ ⦃s s' : State⦄, State.Alike ρ s s' →
    (∃ a, m s = .ok a s ∧ m' s' = .ok a s') ∨
      ∃ i r i' r', m s = .error i r ∧ m' s' = .error i' r' ∧ i.toFault.code = i'.toFault.code

section Agrees

variable {m m' : Machine α}

theorem agrees_pure (a : α) : Agrees ρ (pure a) (pure a) := fun _ _ _ ↦ .inl ⟨a, rfl, rfl⟩

theorem agrees_throw {i i' : Interrupt} (h : i.toFault.code = i'.toFault.code) :
    Agrees ρ (throw i : Machine α) (throw i') :=
  fun _ _ _ ↦ .inr ⟨i, _, i', _, rfl, rfl, h⟩

theorem agrees_ofExcept {r r' : Except Fault α} (h : Agree Fault.code Eq r r') :
    Agrees ρ (ofExcept r) (ofExcept r') := by
  cases h with
  | ok h =>
    subst h
    exact agrees_pure _
  | error h => exact agrees_throw h

theorem bind_of_ok {f : α → Machine β} {a : α} {s r : State} (h : m s = .ok a r) :
    (m >>= f) s = f a r := by
  change EStateM.bind m f s = _
  rw [EStateM.bind, h]

theorem bind_of_error {f : α → Machine β} {i : Interrupt} {s r : State} (h : m s = .error i r) :
    (m >>= f) s = .error i r := by
  change EStateM.bind m f s = _
  rw [EStateM.bind, h]

theorem Agrees.bind (h : Agrees ρ m m') {f f' : α → Machine β}
    (hf : ∀ a, Agrees ρ (f a) (f' a)) : Agrees ρ (m >>= f) (m' >>= f') := by
  intro s s' hs
  rcases h hs with ⟨a, hm, hm'⟩ | ⟨i, r, i', r', hm, hm', hcode⟩
  · rw [bind_of_ok hm, bind_of_ok hm']
    exact hf a hs
  · exact .inr ⟨i, r, i', r', bind_of_error hm, bind_of_error hm', hcode⟩

theorem agrees_place {u v : String} (h : ρ.Corresponds u v) : Agrees ρ (place u) (place v) := by
  intro s s' hs
  have hget : ∀ s : State, (get : Machine State) s = .ok s s := fun _ ↦ rfl
  rw [place, place, bind_of_ok (hget s), bind_of_ok (hget s'), ← hs.scope h]
  cases s.scope.lookup u with
  | some n => exact .inl ⟨n, rfl, rfl⟩
  | none => exact .inr ⟨_, _, _, _, rfl, rfl, rfl⟩

theorem agrees_cell (n : ℕ) : Agrees ρ (cell n) (cell n) := by
  intro s s' hs
  have hget : ∀ s : State, (get : Machine State) s = .ok s s := fun _ ↦ rfl
  rw [cell, bind_of_ok (hget s), bind_of_ok (hget s'), hs.cells]
  cases s'.cells[n]? with
  | some c => exact .inl ⟨c, rfl, rfl⟩
  | none => exact .inr ⟨_, _, _, _, rfl, rfl, rfl⟩

theorem agrees_mapM {γ γ' : Type} {S : γ → γ' → Prop} {f : γ → Machine β} {f' : γ' → Machine β}
    (hf : ∀ c c', S c c' → Agrees ρ (f c) (f' c')) {cs : List γ} {cs' : List γ'}
    (h : List.Forall₂ S cs cs') : Agrees ρ (cs.mapM f) (cs'.mapM f') := by
  induction h with
  | nil => exact agrees_pure []
  | cons hc _ ih =>
    rw [List.mapM_cons, List.mapM_cons]
    exact (hf _ _ hc).bind fun b ↦ ih.bind fun bs ↦ agrees_pure (b :: bs)

end Agrees

end Machine

open Machine

/-! ## Terms -/

namespace Term

section Eval

variable {eval : Term → Machine Value}
  (heval : ∀ t t', Term.Alike ρ t t' → Machine.Agrees ρ (eval t) (eval t'))

/-- The arguments of a call have their values in order, but for a variable in front. -/
theorem evalArguments_eq (ts : List Term) :
    evalArguments eval false ts =
      match ts with
      | .variable name :: ts => do
        let values ← ts.mapM eval
        return (← eval (.variable name)) :: values
      | ts => ts.mapM eval := by
  cases ts with
  | nil => rfl
  | cons t ts => cases t <;> rfl

/-- A word that evaluation does not keep to itself is the name of a function. -/
theorem evalCall_eq {w : String} (hw : isKept w = false) (ts : List Term) :
    evalCall eval w false ts =
      evalArguments eval false ts >>= fun vs ↦ Machine.ofExcept (applyFunction w vs) := by
  have hne : ∀ k, isKept k = true → w ≠ k := by
    rintro k hk rfl
    exact Bool.false_ne_true (hw.symm.trans hk)
  unfold evalCall
  split
  case h_9 => rfl
  all_goals exact absurd rfl (hne _ (by decide))

theorem evalBinary_eq {op : Operator} (h : op.isArithmetic = true) (l r : Term) :
    evalBinary eval op l r =
      eval l >>= fun v ↦ eval r >>= fun w ↦ Machine.ofExcept (applyOperator op v w) := by
  cases op with
  | add | subtract | multiply | divide | modulo | power => rfl
  | _ => exact absurd h Bool.false_ne_true

include heval

theorem agrees_evalArguments {ts ts' : List Term} (hts : List.Forall₂ (Term.Alike ρ) ts ts') :
    Machine.Agrees ρ (evalArguments eval false ts) (evalArguments eval false ts') := by
  rw [evalArguments_eq, evalArguments_eq]
  cases hts with
  | nil => exact agrees_mapM heval .nil
  | cons ht hts =>
    cases ht with
    | word h =>
      exact (agrees_mapM heval hts).bind fun vs ↦ (heval _ _ (.word h)).bind fun v ↦ agrees_pure _
    | number x => exact agrees_mapM heval (.cons (.number x) hts)
    | signed minus h => exact agrees_mapM heval (.cons (.signed minus h) hts)
    | binary hop hl hr => exact agrees_mapM heval (.cons (.binary hop hl hr) hts)
    | call h hargs => exact agrees_mapM heval (.cons (.call h hargs) hts)

/-- One step of evaluation. -/
theorem agrees_evalStep {t t' : Term} (h : Term.Alike ρ t t') (rounds : ℕ) :
    Machine.Agrees ρ (t.evalStep eval rounds) (t'.evalStep eval rounds) := by
  cases h with
  | number x => exact agrees_pure _
  | word h => exact (agrees_place h).bind fun n ↦ (agrees_cell n).bind fun c ↦ agrees_pure _
  | signed minus h => exact (heval _ _ h).bind fun v ↦ agrees_ofExcept (.refl _)
  | binary hop hl hr =>
    rw [evalStep, evalStep, evalBinary_eq hop, evalBinary_eq hop]
    exact (heval _ _ hl).bind fun v ↦ (heval _ _ hr).bind fun w ↦ agrees_ofExcept (.refl _)
  | call h hts =>
    rw [evalStep, evalStep, evalCall_eq h.isKept.1, evalCall_eq h.isKept.2]
    exact (agrees_evalArguments heval hts).bind fun vs ↦ agrees_ofExcept (applyFunction_agree h vs)

end Eval

/-- Terms that are alike have the same value. -/
theorem agrees_eval (steps : ℕ) {t t' : Term} (h : Term.Alike ρ t t') :
    Machine.Agrees ρ (t.eval steps) (t'.eval steps) := by
  induction steps generalizing t t' with
  | zero => exact agrees_throw rfl
  | succ steps ih => exact agrees_evalStep (fun _ _ ↦ ih) h steps

end Term

/-! ## Formulas -/

/-- Corresponding words stand for the same where corresponding words are listed. -/
theorem lookup_congr {γ : Type} {R : String → String → Prop} {l l' : List (String × γ)}
    (h : List.Forall₂ (fun x y ↦ R x.1 y.1 ∧ x.2 = y.2) l l') {u v : String}
    (huv : ∀ u' v', R u' v' → (u = u' ↔ v = v')) : l.lookup u = l'.lookup v := by
  induction h with
  | nil => rfl
  | @cons x y l l' hxy _ ih =>
    have hkey : (u == x.1) = (v == y.1) := by
      rw [Bool.eq_iff_iff, beq_iff_eq, beq_iff_eq]
      exact huv _ _ hxy.1
    rw [List.lookup_cons, List.lookup_cons, ih, hxy.2, hkey]

/-- Corresponding words are bound to the same values, in the same order. -/
def Bindings.Alike (R : String → String → Prop) (b b' : Bindings) : Prop :=
  List.Forall₂ (fun e e' ↦ R e.1 e'.1 ∧ e.2 = e'.2) b.entries b'.entries

/-- Formulas are evaluated in states that are alike. -/
theorem Bindings.Alike.state {b b' : Bindings} (h : b.Alike ρ.Pairs b') :
    State.Alike ρ (.initial b) (.initial b') := by
  set constants := constantNames.filterMap fun name ↦ (constant? name).map (name, ·)
  have hown : ∀ e ∈ constants, ρ.Corresponds e.1 e.1 := by
    intro e he
    obtain ⟨name, hname, hvalue⟩ := List.mem_filterMap.mp he
    obtain ⟨x, -, rfl⟩ := Option.map_eq_some_iff.mp hvalue
    refine .of_hasMeaning ?_
    rw [hasMeaning, List.contains_iff_mem.mpr hname, Bool.or_true]
  have hentries : List.Forall₂ (fun e e' ↦ ρ.Corresponds e.1.1 e'.1.1 ∧ e.1.2 = e'.1.2 ∧ e.2 = e'.2)
      (constants.map (·, true) ++ b.entries.map (·, false))
      (constants.map (·, true) ++ b'.entries.map (·, false)) := by
    refine List.rel_append ?_ ?_
    · rw [List.forall₂_map_left_iff, List.forall₂_map_right_iff, List.forall₂_same]
      exact fun e he ↦ ⟨hown e he, rfl, rfl⟩
    · rw [List.forall₂_map_left_iff, List.forall₂_map_right_iff]
      exact h.imp fun _ _ he ↦ ⟨.name he.1, he.2, rfl⟩
  refine ⟨?_, fun huv ↦ lookup_congr ?_ fun _ _ ↦ huv.eq_iff⟩
  · refine congrArg List.toArray (List.forall₂_eq_eq_eq ▸ ?_)
    rw [List.forall₂_map_left_iff, List.forall₂_map_right_iff]
    refine hentries.imp ?_
    rintro ⟨⟨u, x⟩, c⟩ ⟨⟨v, y⟩, d⟩ ⟨-, rfl, rfl⟩
    rfl
  · refine List.rel_reverse ?_
    rw [List.forall₂_iff_get] at hentries ⊢
    obtain ⟨hlength, hentries⟩ := hentries
    refine ⟨by rw [List.length_mapIdx, List.length_mapIdx, hlength], fun i hi hi' ↦ ?_⟩
    rw [List.get_eq_getElem, List.get_eq_getElem, List.getElem_mapIdx, List.getElem_mapIdx]
    rw [List.length_mapIdx] at hi hi'
    exact ⟨(hentries i hi hi').1, rfl⟩

/-- Formulas that are alike, evaluated where corresponding aliases are bound to the same values,
have the same value or faults with the same code. -/
theorem evaluate_agree {b b' : Bindings} {source source' : String} (hb : b.Alike ρ.Pairs b')
    (hl : List.Forall₂ (Lexeme.Alike ρ) (lexemes source) (lexemes source')) :
    Agree Fault.code Eq (evaluate b source) (evaluate b' source') := by
  obtain ⟨hproper, hproper'⟩ := isProper_of_alike hl
  have htokens : List.Forall₂ (Token.Alike ρ) ((grouped (lexemes source)).map Lexeme.token)
      ((grouped (lexemes source')).map Lexeme.token) := by
    rw [List.forall₂_map_left_iff, List.forall₂_map_right_iff]
    exact (groupFrom_alike hl false).imp fun _ _ ha ↦ ha.token
  rw [evaluate, evaluate]
  rcases Term.ofFormula?_alike (ofText?_evaluationText hproper) (ofText?_evaluationText hproper')
    htokens with ⟨hnone, hnone'⟩ | ⟨t, t', ht, ht', htt'⟩
  · rw [hnone, hnone']
    exact .error rfl
  · rw [ht, ht']
    dsimp only
    rcases t.agrees_eval stepLimit htt' hb.state with ⟨v, hv, hv'⟩ | ⟨i, r, i', r', hi, hi', hcode⟩
    · rw [hv, hv']
      exact .refl _
    · rw [hi, hi']
      exact .error hcode

end Formula

end FormulaQuiz
