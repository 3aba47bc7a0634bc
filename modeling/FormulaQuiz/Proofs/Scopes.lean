import FormulaQuiz.Proofs.Beside
import FormulaQuiz.Proofs.Closed
import FormulaQuiz.Proofs.Hiding
import FormulaQuiz.Proofs.Scanning

/-!
# Evaluation where all variables are there

In a state that has the variables of a closed term, the evaluation of the term never stops because
a word stands for nothing.  Each definition of the evaluation keeps what is in the cells closed, and
a function runs in a scope that has its parameters.  Loops and attempts go on after an interruption,
so that also keeps all this.  The evaluation is followed beside another that differs in what becomes
of closed terms only: the two give the same values.
-/

namespace FormulaQuiz.Formula

/-- A state that has some variables, and whose functions ask for no others than their own. -/
structure State.Closed (k : Repertoire) (names : List String) (s : State) : Prop where
  cells : ∀ c ∈ s.cells, c.value.Closed k
  scope : ∀ name ∈ names, (s.scope.lookup name).isSome = true

namespace State.Closed

variable {k : Repertoire} {names names' : List String} {s : State}

theorem mono (h : s.Closed k names') (hnames : names ⊆ names') : s.Closed k names :=
  { h with scope := fun name hname ↦ h.scope name (hnames hname) }

theorem push (h : s.Closed k names) {v : Value} (hv : v.Closed k) (constant : Bool) :
    State.Closed k names { s with cells := s.cells.push ⟨v, constant, false⟩ } := by
  refine { h with cells := fun c hc ↦ ?_ }
  rcases Array.mem_push.mp hc with hc | rfl
  · exact h.cells c hc
  · exact hv

/-- A change of cells that keeps their values closed. -/
theorem modify (h : s.Closed k names) (n : ℕ) {g : Cell → Cell}
    (hg : ∀ c, c.value.Closed k → (g c).value.Closed k) :
    State.Closed k names { s with cells := s.cells.modify n g } := by
  refine { h with cells := fun c hc ↦ ?_ }
  obtain ⟨i, hi⟩ := Array.mem_iff_getElem?.mp hc
  rw [Array.getElem?_modify] at hi
  split at hi
  · obtain ⟨c', hc', rfl⟩ := Option.map_eq_some_iff.mp hi
    exact hg c' (h.cells c' (Array.mem_of_getElem? hc'))
  · exact h.cells c (Array.mem_of_getElem? hi)

end State.Closed

/-- An interruption for which no word is the cause that might not be a stray, and the value that it
keeps, where there are forms that make it. -/
def Interrupt.Closed (k : Repertoire) : Interrupt → Prop
  | .fault f _ => f.isLookup = true → k.strays
  | .raised v | .leave v | .result v => k.forms ∧ v.Closed k
  | .next => k.forms
  | .exhausted => True

/-- What an attempt is told of an interruption. -/
theorem Interrupt.Closed.of_handled? {k : Repertoire} {i : Interrupt} {v : Value} (h : i.Closed k)
    (hv : i.handled? = some v) : v.Closed k := by
  cases i with
  | raised w =>
    cases hv
    exact h.2
  | fault f handled =>
    cases handled with
    | false => cases hv
    | true =>
      simp only [handled?] at hv
      split at hv <;> cases hv
      · trivial
      · trivial
      · exact ⟨trivial, trivial⟩
  | _ => cases hv

namespace Machine

variable {k : Repertoire} {names : List String} {α β : Type} {P : α → Prop} {Q : β → Prop}
  {m m' : Machine α}

/-- An action that keeps a state closed and gives something with a property, or is interrupted when
no word is the cause.  Another action gives the same; it is interrupted likewise only if there are
forms that go on after an interruption. -/
def Safe (k : Repertoire) (names : List String) (P : α → Prop) (m m' : Machine α) : Prop :=
  ∀ ⦃s : State⦄, s.Closed k names →
    (∃ a t, m s = .ok a t ∧ m' s = .ok a t ∧ P a ∧ t.Closed k names) ∨
      ∃ i t, m s = .error i t ∧ i.Closed k ∧ t.Closed k names ∧ (k.forms → m' s = .error i t)

/-! ## Actions -/

theorem safe_pure {a : α} (h : P a) : Safe k names P (pure a) (pure a) :=
  fun s hs ↦ .inl ⟨a, s, rfl, rfl, h, hs⟩

theorem safe_throw {i : Interrupt} (h : i.Closed k) : Safe k names P (throw i) (throw i) :=
  fun s hs ↦ .inr ⟨i, s, rfl, h, hs, fun _ ↦ rfl⟩

theorem safe_fail {fault : Fault} (h : fault.isLookup = false) :
    Safe k names P (fail fault) (fail fault) :=
  safe_throw fun hlookup ↦ Bool.noConfusion (h.symm.trans hlookup)

theorem safe_ofExcept {e : Except Fault α} (h : Yields P e) :
    Safe k names P (ofExcept e) (ofExcept e) := by
  cases e with
  | ok a => exact safe_pure h
  | error fault => exact safe_fail h

theorem Safe.bind (h : Safe k names P m m') {f f' : α → Machine β}
    (hf : ∀ a, P a → Safe k names Q (f a) (f' a)) : Safe k names Q (m >>= f) (m' >>= f') := by
  intro s hs
  rcases h hs with ⟨a, t, hm, hm', ha, ht⟩ | ⟨i, t, hm, hi, ht, hm'⟩
  · rw [bind_of_ok hm, bind_of_ok hm']
    exact hf a ha ht
  · exact .inr ⟨i, t, bind_of_error hm, hi, ht, fun hforms ↦ bind_of_error (hm' hforms)⟩

theorem Safe.mono (h : Safe k names P m m') {P' : α → Prop} (hP : ∀ a, P a → P' a) :
    Safe k names P' m m' := by
  intro s hs
  rcases h hs with ⟨a, t, hm, hm', ha, ht⟩ | hi
  · exact .inl ⟨a, t, hm, hm', hP a ha, ht⟩
  · exact .inr hi

/-- An action that always is interrupted, beside any other, if no form goes on afterwards. -/
theorem Safe.of_false {m₁ : Machine α} (hforms : ¬ k.forms)
    (h : Safe k names (fun _ ↦ False) m m₁) : Safe k names P m m' := by
  intro s hs
  rcases h hs with ⟨_, _, _, _, hfalse, _⟩ | ⟨i, t, hm, hi, ht, -⟩
  · exact hfalse.elim
  · exact .inr ⟨i, t, hm, hi, ht, fun h ↦ absurd h hforms⟩

theorem safe_get : Safe k names (State.Closed k names) get get :=
  fun s hs ↦ .inl ⟨s, s, rfl, rfl, hs, hs⟩

theorem safe_set {s : State} (h : s.Closed k names) :
    Safe k names (fun _ ↦ True) (set s : Machine PUnit) (set s) :=
  fun _ _ ↦ .inl ⟨⟨⟩, s, rfl, rfl, trivial, h⟩

theorem safe_modify {f : State → State} (h : ∀ s, s.Closed k names → (f s).Closed k names) :
    Safe k names (fun _ ↦ True) (modify f : Machine PUnit) (modify f) :=
  fun s hs ↦ .inl ⟨⟨⟩, f s, rfl, rfl, trivial, h s hs⟩

/-- What handles an interruption passes it on, or it is one that only forms make. -/
theorem Safe.tryCatch (h : Safe k names P m m') {f f' : Interrupt → Machine α}
    (hf : ∀ i, i.Closed k →
      f i = throw i ∧ f' i = throw i ∨ k.forms ∧ Safe k names P (f i) (f' i)) :
    Safe k names P (tryCatch m f) (tryCatch m' f') := by
  intro s hs
  change (∃ a t, EStateM.tryCatch m f s = _ ∧ EStateM.tryCatch m' f' s = _ ∧ _) ∨
    ∃ i t, EStateM.tryCatch m f s = _ ∧ _ ∧ _ ∧ (_ → EStateM.tryCatch m' f' s = _)
  rw [EStateM.tryCatch, EStateM.tryCatch]
  rcases h hs with ⟨a, t, hm, hm', ha, ht⟩ | ⟨i, t, hm, hi, ht, hm'⟩
  · rw [hm, hm']
    exact .inl ⟨a, t, rfl, rfl, ha, ht⟩
  · rw [hm]
    rcases hf i hi with ⟨hfi, hfi'⟩ | ⟨hforms, hsafe⟩
    · refine .inr ⟨i, t, congrFun hfi t, hi, ht, fun hforms ↦ ?_⟩
      rw [hm' hforms]
      exact congrFun hfi' t
    · rw [hm' hforms]
      exact hsafe ht

theorem safe_mapM {γ : Type} {f f' : γ → Machine β} {cs : List γ}
    (h : ∀ c ∈ cs, Safe k names Q (f c) (f' c)) :
    Safe k names (fun bs ↦ ∀ b ∈ bs, Q b) (cs.mapM f) (cs.mapM f') := by
  induction cs with
  | nil => exact safe_pure (List.forall_mem_nil Q)
  | cons c cs ih =>
    obtain ⟨hc, hcs⟩ := List.forall_mem_cons.mp h
    rw [List.mapM_cons, List.mapM_cons]
    refine hc.bind fun b hb ↦ (ih hcs).bind fun bs hbs ↦ safe_pure ?_
    exact List.forall_mem_cons.mpr ⟨hb, hbs⟩

/-- Rounds that keep a state closed do so as a loop. -/
theorem safe_iterate {round round' : Machine (Option α)}
    (h : Safe k names (fun r ↦ ∀ a ∈ r, P a) round round') (rounds : ℕ) :
    Safe k names P (iterate round rounds) (iterate round' rounds) := by
  induction rounds with
  | zero => exact safe_throw trivial
  | succ rounds ih =>
    refine h.bind fun r hr ↦ ?_
    cases r with
    | some a => exact safe_pure (hr a rfl)
    | none => exact ih

/-! ## Cells and scopes -/

theorem safe_newCell {v : Value} (hv : v.Closed k) (constant : Bool) :
    Safe k names (fun _ ↦ True) (newCell v constant) (newCell v constant) :=
  safe_get.bind fun _ hs ↦ (safe_set (hs.push hv constant)).bind fun _ _ ↦ safe_pure trivial

theorem safe_place {name : String} (h : k.Admits names name) :
    Safe k names (fun _ ↦ True) (place name) (place name) := by
  refine safe_get.bind fun s hs ↦ ?_
  cases hn : s.scope.lookup name with
  | some n => exact safe_pure trivial
  | none =>
    refine safe_throw fun _ ↦ h.resolve_left fun hmem ↦ ?_
    exact Bool.noConfusion ((hs.scope name hmem).symm.trans (congrArg Option.isSome hn))

theorem safe_ownPlace : Safe k names (fun _ ↦ True) ownPlace ownPlace := by
  refine safe_get.bind fun s _ ↦ ?_
  cases s.self with
  | some n => exact safe_pure trivial
  | none => exact safe_fail rfl

theorem safe_cell (n : ℕ) : Safe k names (fun c ↦ c.value.Closed k) (cell n) (cell n) := by
  refine safe_get.bind fun s hs ↦ ?_
  cases hc : s.cells[n]? with
  | none => exact safe_fail rfl
  | some c => exact safe_pure (hs.cells c (Array.mem_of_getElem? hc))

theorem safe_store (n : ℕ) {v : Value} (hv : v.Closed k) :
    Safe k names (fun _ ↦ True) (store n v) (store n v) :=
  safe_modify fun _ hs ↦ hs.modify n fun _ _ ↦ hv

theorem safe_share {name : String} (h : k.Admits names name) :
    Safe k names (fun _ ↦ True) (share name) (share name) := by
  refine (safe_place h).bind fun n _ ↦ ?_
  refine (safe_modify fun s hs ↦ ?_).bind fun _ _ ↦ safe_pure trivial
  exact hs.modify n fun _ hc ↦ hc

theorem Safe.deeper (h : Safe k names P m m') : Safe k names P (deeper m) (deeper m') := by
  refine safe_get.bind fun s hs ↦ ?_
  split
  · refine Safe.bind (safe_set ?_) fun _ _ ↦ h.bind fun a ha ↦ ?_
    · exact { hs with }
    · refine Safe.bind (safe_modify fun t ht ↦ ?_) fun _ _ ↦ safe_pure ha
      exact { ht with }
  · exact safe_throw nofun

/-- After an action of its own the scope is what it was before. -/
theorem Safe.enclosed {inner : List String} (h : Safe k inner P m m') (hinner : inner ⊆ names) :
    Safe k names P (enclosed m) (enclosed m') := by
  intro s hs
  unfold Machine.enclosed
  rcases h (hs.mono hinner) with ⟨a, t, hm, hm', ha, ht⟩ | ⟨i, t, hm, hi, ht, hm'⟩
  · rw [hm, hm']
    exact .inl ⟨a, _, rfl, rfl, ha, ⟨ht.cells, hs.scope⟩⟩
  · rw [hm]
    refine .inr ⟨i, _, rfl, hi, ⟨ht.cells, hs.scope⟩, fun hforms ↦ ?_⟩
    rw [hm' hforms]

/-- An action after which fewer variables are told of. -/
theorem Safe.of_step {step : Machine PUnit} {inner : List String} (h : Safe k inner P m m')
    {f : State → State} (hstep : ∀ s, step s = .ok ⟨⟩ (f s)) (hinner : names ⊆ inner)
    (hf : ∀ s, s.Closed k names → (f s).Closed k inner) :
    Safe k names P (step >>= fun _ ↦ m) (step >>= fun _ ↦ m') := by
  intro s hs
  rw [bind_of_ok (hstep s), bind_of_ok (hstep s)]
  rcases h (hf s hs) with ⟨a, t, hm, hm', ha, ht⟩ | ⟨i, t, hm, hi, ht, hm'⟩
  · exact .inl ⟨a, t, hm, hm', ha, ht.mono hinner⟩
  · exact .inr ⟨i, t, hm, hi, ht.mono hinner, hm'⟩

/-- An action in a scope of its own. -/
theorem Safe.rescoped {scope : List (String × ℕ)} (self : Option ℕ)
    (hscope : ∀ name ∈ names, (scope.lookup name).isSome = true) (h : Safe k names P m m') :
    Safe k [] P (modify ({ · with scope, self }) >>= fun _ ↦ m)
      (modify ({ · with scope, self }) >>= fun _ ↦ m') :=
  h.of_step (fun _ ↦ rfl) (List.nil_subset names) fun _ hs ↦ ⟨hs.cells, hscope⟩

/-- An action after which there is one variable more. -/
theorem Safe.declaring (h : Safe k (name :: names) P m m') {v : Value} (hv : v.Closed k)
    (constant : Bool) :
    Safe k names P (newVariable name v constant >>= fun _ ↦ m)
      (newVariable name v constant >>= fun _ ↦ m') := by
  refine h.of_step (f := fun s ↦ { s with
    cells := s.cells.push ⟨v, constant, false⟩
    scope := (name, s.cells.size) :: s.scope }) (fun _ ↦ rfl) (List.subset_cons_self name names) ?_
  refine fun s hs ↦ ⟨(hs.push hv constant).cells, List.forall_mem_cons.mpr ⟨?_, fun u hu ↦ ?_⟩⟩
  · rw [List.lookup_cons_self]
    rfl
  · rw [List.lookup_cons]
    split
    · rfl
    · exact hs.scope u hu

/-! ## Calls -/

theorem safe_argumentValue {a : Argument} (ha : a.Closed k) :
    Safe k names (Value.Closed k) (argumentValue a) (argumentValue a) := by
  cases a with
  | value v => exact safe_pure ha
  | cell n => exact (safe_cell n).bind fun c hc ↦ safe_pure hc

theorem mem_or_isSome_lookup_cons {p name : String} {ps : List String} {n : ℕ}
    {scope : List (String × ℕ)} (h : name ∈ p :: ps ∨ (scope.lookup name).isSome = true) :
    name ∈ ps ∨ (((p, n) :: scope).lookup name).isSome = true := by
  rw [List.lookup_cons]
  cases heq : name == p with
  | true => exact .inr rfl
  | false =>
    refine h.imp_left fun hmem ↦ (List.mem_cons.mp hmem).resolve_left ?_
    exact beq_eq_false_iff_ne.mp heq

/-- All parameters of a function stand for cells, and so does what stood for one before. -/
theorem safe_bindParameters {ps : List String} {as : List Argument}
    (hlength : ps.length = as.length) (has : Argument.ClosedAll k as) (scope : List (String × ℕ)) :
    Safe k names (fun scope' ↦ ∀ name, name ∈ ps ∨ (scope.lookup name).isSome = true →
      (scope'.lookup name).isSome = true)
      (bindParameters ps as scope) (bindParameters ps as scope) := by
  induction ps generalizing as scope with
  | nil => exact safe_pure fun name h ↦ h.resolve_left List.not_mem_nil
  | cons p ps ih =>
    cases as with
    | nil => exact nomatch hlength
    | cons a as =>
      have hrest := fun n ↦ (ih (Nat.succ.inj hlength) has.2 ((p, n) :: scope)).mono
        fun scope' h name hname ↦ h name (mem_or_isSome_lookup_cons hname)
      cases a with
      | value v => exact (safe_newCell has.1 false).bind fun n _ ↦ hrest n
      | cell n => exact hrest n

section Bodies

variable {eval eval' : Term → Machine Value}
  (heval : ∀ {names t}, t.Closed k names → Safe k names (Value.Closed k) (eval t) (eval' t))
include heval

theorem safe_runBody {body : Term} {ps : List String} {as : List Argument}
    (hbody : body.Closed k ps) (hlength : ps.length = as.length) (has : Argument.ClosedAll k as)
    (self : Option ℕ) :
    Safe k names (Value.Closed k) (runBody eval body ps as self)
      (runBody eval' body ps as self) := by
  refine Safe.enclosed (Safe.deeper ?_) (List.nil_subset names)
  refine (safe_bindParameters hlength has []).bind fun scope hscope ↦ ?_
  refine Safe.rescoped self (fun name hname ↦ hscope name (.inl hname)) ?_
  refine (heval hbody).tryCatch fun i hi ↦ ?_
  cases i with
  | result v => exact .inr ⟨hi.1, safe_pure hi.2⟩
  | _ => exact .inl ⟨rfl, rfl⟩

/-- A value and the value that a call leaves. -/
def ClosedPair (k : Repertoire) (p : Value × Value) : Prop := p.1.Closed k ∧ p.2.Closed k

theorem safe_callValue (base : Base) {f : Callable} {given : List Argument} {vs : List Value}
    {on? : Option Value} (hf : f.Closed k) (hgiven : Argument.ClosedAll k given)
    (hvs : ∀ v ∈ vs, v.Closed k) (hon : ∀ v ∈ on?, v.Closed k) :
    Safe k names (ClosedPair k) (callValue eval base f given vs on?)
      (callValue eval' base f given vs on?) := by
  have hall : Argument.ClosedAll k (given ++ vs.map Argument.value) := by
    rw [Argument.closedAll_iff] at hgiven ⊢
    refine List.forall_mem_append.mpr ⟨hgiven, fun a ha ↦ ?_⟩
    obtain ⟨v, hv, rfl⟩ := List.mem_map.mp ha
    exact hvs v hv
  have hvalues : Safe k names (fun us ↦ ∀ u ∈ us, u.Closed k)
      ((given ++ vs.map Argument.value).mapM argumentValue)
      ((given ++ vs.map Argument.value).mapM argumentValue) :=
    safe_mapM fun a ha ↦ safe_argumentValue (Argument.closedAll_iff.mp hall a ha)
  rw [callValue.eq_def, callValue.eq_def eval']
  cases f with
  | closure ps body =>
    dsimp only
    split
    next hlength =>
      split
      · exact safe_fail rfl
      · cases on? with
        | none =>
          exact (safe_runBody heval hf hlength hall none).bind fun r hr ↦ safe_pure ⟨hr, trivial⟩
        | some v =>
          refine (safe_newCell (hon v rfl) base.constant).bind fun n _ ↦ ?_
          refine (safe_runBody heval hf hlength hall (some n)).bind fun r hr ↦ ?_
          exact (safe_cell n).bind fun c hc ↦ safe_pure ⟨hr, hc⟩
    next => exact hvalues.bind fun us _ ↦ safe_ofExcept (yields_unsupported _ _)
  | named name =>
    refine hvalues.bind fun us _ ↦ ?_
    refine (safe_ofExcept (yields_applyFunction name _)).bind fun r hr ↦ safe_pure ⟨hr.closed, ?_⟩
    cases on? with
    | none => trivial
    | some v => exact hon v rfl

omit heval in
theorem safe_applyMethod (name : String) (vs : List Value) {v : Value} (hv : v.Closed k) :
    Safe k names (ClosedPair k) (do return (← ofExcept (applyFunction name (v :: vs)), v))
      (do return (← ofExcept (applyFunction name (v :: vs)), v)) :=
  (safe_ofExcept (yields_applyFunction name (v :: vs))).bind fun _ hr ↦ safe_pure ⟨hr.closed, hv⟩

theorem safe_callMethod (base : Base) (name : String) {vs : List Value} {v : Value}
    (hvs : ∀ v ∈ vs, v.Closed k) (hv : v.Closed k) :
    Safe k names (ClosedPair k) (callMethod eval base name vs v)
      (callMethod eval' base name vs v) := by
  by_cases hcall : name = "call"
  · subst hcall
    cases v with
    | function f given =>
      have hnone : ∀ u ∈ (none : Option Value), u.Closed k := fun u hu ↦ nomatch hu
      exact (safe_callValue heval base hv.1 hv.2 hvs hnone).bind fun p hp ↦ safe_pure ⟨hp.1, hv⟩
    | _ =>
      cases vs with
      | nil => exact safe_fail rfl
      | cons u rest =>
        obtain ⟨hu, hrest⟩ := List.forall_mem_cons.mp hvs
        cases u with
        | function f given =>
          exact safe_callValue heval base hu.1 hu.2 hrest fun w hw ↦ Option.some.inj hw ▸ hv
        | _ => exact safe_fail rfl
  by_cases hcurry : name = "curry"
  · subst hcurry
    cases v with
    | function f given =>
      refine safe_pure ⟨⟨hv.1, Argument.closedAll_iff.mpr ?_⟩, hv⟩
      refine List.forall_mem_append.mpr ⟨Argument.closedAll_iff.mp hv.2, fun a ha ↦ ?_⟩
      obtain ⟨u, hu, rfl⟩ := List.mem_map.mp ha
      exact hvs u hu
    | _ => exact safe_fail rfl
  by_cases hshared : name = "is_shared" ∧ vs = []
  · obtain ⟨rfl, rfl⟩ := hshared
    cases v <;> exact safe_pure ⟨trivial, hv⟩
  have hnone : name = "is_shared" → vs ≠ [] := fun h h' ↦ hshared ⟨h, h'⟩
  rw [callMethod_eq hcall hcurry hnone, callMethod_eq hcall hcurry hnone]
  cases v with
  | record entries =>
    dsimp only
    split
    next f given hfound =>
      have hf : (Value.function f given).Closed k := Value.closed_of_lookup hv hfound
      exact safe_callValue heval base hf.1 hf.2 hvs fun w hw ↦ Option.some.inj hw ▸ hv
    next => exact safe_applyMethod name vs hv
  | _ => exact safe_applyMethod name vs hv

/-- What links make of a value, and the value as they left it. -/
theorem safe_followLinks (base : Base) {links : List LinkValue} {v : Value}
    (hlinks : ∀ link ∈ links, link.Closed k) (hv : v.Closed k) :
    Safe k names (ClosedPair k) (followLinks eval base links v)
      (followLinks eval' base links v) := by
  induction links generalizing base v with
  | nil => exact safe_pure ⟨hv, hv⟩
  | cons link links ih =>
    rw [List.forall_mem_cons] at hlinks
    obtain ⟨hlink, hlinks⟩ := hlinks
    rw [followLinks.eq_def, followLinks.eq_def eval']
    dsimp only
    split
    · exact safe_pure ⟨trivial, hv⟩
    · have hpart : Safe k names (ClosedPair k)
          (do
            let part ← ofExcept (link.get v)
            let p ← followLinks eval base.part links part
            return (p.1, link.update p.2 v))
          (do
            let part ← ofExcept (link.get v)
            let p ← followLinks eval' base.part links part
            return (p.1, link.update p.2 v)) := by
        refine (safe_ofExcept (link.yields_get hv)).bind fun part hpart ↦ ?_
        refine (ih base.part hlinks hpart).bind fun p hp ↦ safe_pure ⟨hp.1, ?_⟩
        exact link.closed_update hp.2 hv
      cases link with
      | method name vs =>
        have hvs := Value.closedAll_iff.mp hlink
        refine (safe_callMethod heval base name hvs hv).bind fun p hp ↦ ?_
        exact (ih base.part hlinks hp.1).bind fun p' hp' ↦ safe_pure ⟨hp'.1, hp.2⟩
      | property name => exact hpart
      | index optional i => exact hpart

end Bodies

/-- The change of a part of a value. -/
theorem safe_changePart {change change' : Value → Machine Value}
    (hchange : ∀ {v}, v.Closed k → Safe k names (Value.Closed k) (change v) (change' v))
    (links : List LinkValue)
    {v : Value} (hv : v.Closed k) :
    Safe k names (Value.Closed k) (changePart change links v) (changePart change' links v) := by
  induction links generalizing v with
  | nil => exact hchange hv
  | cons link links ih =>
    refine (safe_ofExcept (link.yields_get hv)).bind fun part hpart ↦ ?_
    exact (ih hpart).bind fun part hpart ↦ safe_ofExcept (link.yields_put hpart hv)

end Machine

/-! ## Terms -/

namespace Term

open Machine

variable {k : Repertoire} {names : List String} {eval eval' : Term → Machine Value}

section Eval

variable (heval : ∀ {names t}, t.Closed k names → Safe k names (Value.Closed k) (eval t) (eval' t))
include heval

theorem safe_evalAll {ts : List Term} (h : Term.ClosedAll k names ts) :
    Safe k names (fun vs ↦ ∀ v ∈ vs, v.Closed k) (ts.mapM eval) (ts.mapM eval') :=
  safe_mapM fun t ht ↦ heval (Term.closedAll_iff.mp h t ht)

theorem safe_evalArguments (strict : Bool) {ts : List Term} (h : Term.ClosedAll k names ts) :
    Safe k names (fun vs ↦ ∀ v ∈ vs, v.Closed k) (evalArguments eval strict ts)
      (evalArguments eval' strict ts) := by
  unfold evalArguments
  split
  next name ts =>
    refine safe_get.bind fun s _ ↦ ?_
    split
    · exact safe_evalAll heval h
    · refine (safe_evalAll heval h.2).bind fun vs hvs ↦ (heval h.1).bind fun v hv ↦ safe_pure ?_
      exact List.forall_mem_cons.mpr ⟨hv, hvs⟩
  next => exact safe_evalAll heval h

theorem safe_evalLinks {links : List Link} (h : Link.ClosedAll k names links) :
    Safe k names (fun ls ↦ ∀ l ∈ ls, l.Closed k) (evalLinks eval links)
      (evalLinks eval' links) := by
  refine safe_mapM fun link hlink ↦ ?_
  have hclosed := Link.closedAll_iff.mp h link hlink
  cases link with
  | method name arguments =>
    exact (safe_evalAll heval hclosed.2).bind fun vs hvs ↦ safe_pure (Value.closedAll_iff.mpr hvs)
  | property name => exact safe_pure trivial
  | index optional t => exact (heval hclosed).bind fun _ _ ↦ safe_pure trivial

theorem safe_evalSequence {ts : List Term} (h : Term.ClosedAll k names ts) :
    Safe k names (Value.Closed k) (evalSequence eval ts) (evalSequence eval' ts) := by
  induction ts with
  | nil => exact safe_pure trivial
  | cons t ts ih =>
    cases ts with
    | nil => exact heval h.1
    | cons u ts => exact (heval h.1).bind fun _ _ ↦ ih h.2

theorem safe_evalGuard {guard : Term} (h : guard.Closed k names) :
    Safe k names (fun _ ↦ True) (evalGuard eval guard) (evalGuard eval' guard) :=
  (heval h).bind fun v _ ↦ safe_ofExcept (yields_asTruth v)

theorem safe_toArgument {t : Term} (h : t.Closed k names) :
    Safe k names (Argument.Closed k) (toArgument eval t) (toArgument eval' t) := by
  unfold toArgument
  split
  next =>
    refine (safe_place h).bind fun n _ ↦ (safe_cell n).bind fun c hc ↦ safe_pure ?_
    split
    · trivial
    · exact hc
  next => exact (heval h).bind fun v hv ↦ safe_pure hv

theorem safe_isShared {t : Term} (h : t.Closed k names) :
    Safe k names (fun _ ↦ True) (isShared eval t) (isShared eval' t) := by
  refine (safe_toArgument heval h).bind fun a _ ↦ ?_
  cases a <;> exact safe_pure trivial

theorem safe_evalCallValue {f : Callable} {given : List Argument} (hf : f.Closed k)
    (hgiven : Argument.ClosedAll k given) {ts : List Term} (h : Term.ClosedAll k names ts) :
    Safe k names (Value.Closed k) (evalCallValue eval f given ts)
      (evalCallValue eval' f given ts) := by
  have hnone : ∀ u ∈ (none : Option Value), u.Closed k := fun u hu ↦ nomatch hu
  have hcall : ∀ vs : List Value, (∀ v ∈ vs, v.Closed k) → Safe k names (Value.Closed k)
      (do return (← callValue eval .free f given vs none).1)
      (do return (← callValue eval' .free f given vs none).1) := fun vs hvs ↦
    (safe_callValue heval .free hf hgiven hvs hnone).bind fun p hp ↦ safe_pure hp.1
  unfold evalCallValue
  split
  · exact (safe_evalArguments heval false h).bind hcall
  · exact (safe_evalAll heval h).bind hcall

theorem safe_evalCall {name : String} (strict : Bool) {ts : List Term} (hname : name ≠ "eval")
    (h : Term.ClosedAll k names ts) :
    Safe k names (Value.Closed k) (evalCall eval name strict ts)
      (evalCall eval' name strict ts) := by
  unfold evalCall
  split
  next t ts =>
    refine (heval h.1).bind fun v hv ↦ ?_
    cases v with
    | function f given => exact safe_evalCallValue heval hv.1 hv.2 h.2
    | _ => exact safe_fail rfl
  next t u ts =>
    refine (heval h.1).bind fun v hv ↦ ?_
    cases v with
    | function f given =>
      have harguments : Safe k names (fun as ↦ ∀ a ∈ as, a.Closed k)
          ((u :: ts).mapM (toArgument eval)) ((u :: ts).mapM (toArgument eval')) :=
        safe_mapM fun w hw ↦ safe_toArgument heval (Term.closedAll_iff.mp h.2 w hw)
      refine harguments.bind fun as has ↦ safe_pure ⟨hv.1, Argument.closedAll_iff.mpr ?_⟩
      exact List.forall_mem_append.mpr ⟨Argument.closedAll_iff.mp hv.2, has⟩
    | _ => exact safe_fail rfl
  next => exact absurd rfl hname
  next t =>
    refine (heval h.1).bind fun v _ ↦ (safe_ofExcept (yields_asText v)).bind fun word _ ↦ ?_
    split
    · exact safe_pure ⟨trivial, trivial⟩
    · exact safe_fail rfl
  next t =>
    refine (heval h.1).bind fun v _ ↦ (safe_ofExcept (yields_asText v)).bind fun word _ ↦ ?_
    exact safe_get.bind fun s _ ↦ safe_pure trivial
  next t n =>
    refine (heval h.1).bind fun v _ ↦ (safe_ofExcept (yields_asText v)).bind fun _ _ ↦ ?_
    refine (heval h.2.1).bind fun w _ ↦ (safe_ofExcept (yields_asInteger w)).bind fun _ _ ↦ ?_
    exact safe_pure trivial
  next u t n =>
    refine (heval h.1).bind fun v _ ↦ (safe_ofExcept (yields_asText v)).bind fun _ _ ↦ ?_
    refine (heval h.2.1).bind fun v _ ↦ (safe_ofExcept (yields_asText v)).bind fun _ _ ↦ ?_
    refine (heval h.2.2.1).bind fun w _ ↦ (safe_ofExcept (yields_asInteger w)).bind fun _ _ ↦ ?_
    exact safe_pure trivial
  next t => exact (safe_isShared heval h.1).bind fun b _ ↦ safe_pure trivial
  next =>
    refine (safe_evalArguments heval strict h).bind fun vs _ ↦ safe_ofExcept ?_
    exact (yields_applyFunction name vs).mono fun _ ↦ Value.IsFlat.closed

theorem safe_followCell {links : List LinkValue} (h : ∀ link ∈ links, link.Closed k) (n : ℕ) :
    Safe k names (Value.Closed k) (followCell eval links n) (followCell eval' links n) := by
  refine (safe_cell n).bind fun c hc ↦ ?_
  refine (safe_followLinks heval (.ofCell n c) h hc).bind fun p hp ↦ ?_
  exact (safe_store n hp.2).bind fun _ _ ↦ safe_pure hp.1

theorem safe_evalChain {base : Term} {links : List Link} (hbase : base.Closed k names)
    (h : Link.ClosedAll k names links) :
    Safe k names (Value.Closed k) (evalChain eval base links) (evalChain eval' base links) := by
  refine (safe_evalLinks heval h).bind fun links hlinks ↦ ?_
  split
  next => exact (safe_place hbase).bind fun n _ ↦ safe_followCell heval hlinks n
  next => exact safe_ownPlace.bind fun n _ ↦ safe_followCell heval hlinks n
  next =>
    refine (heval hbase).bind fun v hv ↦ ?_
    exact (safe_followLinks heval .free hlinks hv).bind fun p hp ↦ safe_pure hp.1

omit heval in
theorem safe_changeCell (op : Option Operator) (links : List LinkValue) {new : Value}
    (hnew : new.Closed k) (n : ℕ) :
    Safe k names (Value.Closed k) (changeCell op links new n) (changeCell op links new n) := by
  refine (safe_cell n).bind fun c hc ↦ ?_
  obtain ⟨v, constant, shared⟩ := c
  cases constant with
  | true => exact safe_fail rfl
  | false =>
    refine (safe_changePart (fun {old} _ ↦ ?_) links hc).bind fun w hw ↦ ?_
    · cases op with
      | none => exact safe_pure hnew
      | some op =>
        exact safe_ofExcept ((yields_applyOperator op old new).mono fun _ ↦ Value.IsFlat.closed)
    · exact (safe_store n hw).bind fun _ _ ↦ safe_pure trivial

/-- What links lead to from a variable is changed. -/
theorem safe_changeBase (op : Option Operator) {new : Value} {base : Term} {links : List Link}
    (hnew : new.Closed k) (hbase : base.Closed k names) (h : Link.ClosedAll k names links) :
    Safe k names (Value.Closed k) (do
      let links ← evalLinks eval links
      match base with
      | .variable name => changeCell op links new (← place name)
      | .self => changeCell op links new (← ownPlace)
      | _ => fail .failed)
      (do
      let links ← evalLinks eval' links
      match base with
      | .variable name => changeCell op links new (← place name)
      | .self => changeCell op links new (← ownPlace)
      | _ => fail .failed) := by
  refine (safe_evalLinks heval h).bind fun links _ ↦ ?_
  split
  next => exact (safe_place hbase).bind fun n _ ↦ safe_changeCell op links hnew n
  next => exact safe_ownPlace.bind fun n _ ↦ safe_changeCell op links hnew n
  next => exact safe_fail rfl

theorem safe_evalAssign (op : Option Operator) {target value : Term}
    (htarget : target.Closed k names)
    (hvalue : value.Closed k names) :
    Safe k names (Value.Closed k) (evalAssign eval op target value)
      (evalAssign eval' op target value) := by
  refine (heval hvalue).bind fun new hnew ↦ ?_
  cases target with
  | chain base links => exact safe_changeBase heval op hnew htarget.1 htarget.2
  | _ =>
    have hnil : Link.ClosedAll k names [] := trivial
    exact safe_changeBase heval op hnew htarget hnil

theorem safe_evalBinary (op : Operator) {left right : Term} (hleft : left.Closed k names)
    (hright : right.Closed k names) :
    Safe k names (Value.Closed k) (evalBinary eval op left right)
      (evalBinary eval' op left right) := by
  unfold evalBinary
  split
  · refine (safe_evalGuard heval hleft).bind fun b _ ↦ ?_
    cases b with
    | true => exact (safe_evalGuard heval hright).bind fun b _ ↦ safe_pure trivial
    | false => exact safe_pure trivial
  · refine (safe_evalGuard heval hleft).bind fun b _ ↦ ?_
    cases b with
    | true => exact safe_pure trivial
    | false => exact (safe_evalGuard heval hright).bind fun b _ ↦ safe_pure trivial
  · refine (heval hleft).bind fun v hv ↦ ?_
    cases v with
    | unit => exact heval hright
    | _ => exact safe_pure hv
  · exact (heval hright).bind fun whole _ ↦ (heval hleft).bind fun part _ ↦ safe_ofExcept rfl
  · refine (heval hleft).bind fun v _ ↦ (heval hright).bind fun w _ ↦ safe_ofExcept ?_
    exact (yields_applyOperator op v w).mono fun _ ↦ Value.IsFlat.closed

/-! ### Forms of their own -/

theorem safe_matchesPattern (v : Value) {ts : List Term} (h : Term.ClosedAll k names ts) :
    Safe k names (fun _ ↦ True) (matchesPattern eval v ts) (matchesPattern eval' v ts) := by
  induction ts with
  | nil => exact safe_pure trivial
  | cons t ts ih =>
    refine (heval h.1).bind fun w _ ↦ ?_
    split
    · exact safe_pure trivial
    · exact ih h.2

theorem safe_evalCases (v : Value) {otherwise : Term} (hotherwise : otherwise.Closed k names)
    {cases : List Case} (h : Case.ClosedAll k names cases) :
    Safe k names (Value.Closed k) (evalCases eval v otherwise cases)
      (evalCases eval' v otherwise cases) := by
  induction cases with
  | nil => exact heval hotherwise
  | cons c cases ih =>
    obtain ⟨patterns, guard, action⟩ := c
    obtain ⟨⟨hpatterns, hguard, haction⟩, hcases⟩ := h
    refine (safe_matchesPattern heval v hpatterns).bind fun found _ ↦ ?_
    cases found with
    | false => exact ih hcases
    | true =>
      refine (safe_evalGuard heval hguard).bind fun holds _ ↦ ?_
      cases holds with
      | false => exact ih hcases
      | true => exact heval haction

/-- The body of a loop, which may end the loop with a value. -/
theorem safe_evalRound {body : Term} (h : body.Closed k names) :
    Safe k names (fun r ↦ ∀ v ∈ r, v.Closed k) (evalRound eval body) (evalRound eval' body) := by
  have hnone : ∀ v ∈ (none : Option Value), v.Closed k := fun v hv ↦ nomatch hv
  refine ((heval h).bind fun _ _ ↦ safe_pure hnone).tryCatch fun i hi ↦ ?_
  cases i with
  | leave v => exact .inr ⟨hi.1, safe_pure fun w hw ↦ Option.some.inj hw ▸ hi.2⟩
  | next => exact .inr ⟨hi, safe_pure hnone⟩
  | _ => exact .inl ⟨rfl, rfl⟩

omit heval in
/-- A handler that raises nothing passes on what it was called for, and so it passes on what ends
it in another way. -/
theorem safe_rethrow (hforms : k.forms) {i j : Interrupt} (hi : i.Closed k) :
    (match j with
      | .raised .unit => (throw i : Machine Value)
      | j => throw j) = throw j ∨
    k.forms ∧ Safe k names (Value.Closed k)
      (match j with
        | .raised .unit => throw i
        | j => throw j)
      (match j with
        | .raised .unit => throw i
        | j => throw j) := by
  cases j with
  | raised v =>
    cases v with
    | unit => exact .inr ⟨hforms, safe_throw hi⟩
    | _ => exact .inl rfl
  | _ => exact .inl rfl

theorem safe_evalAttempt (hforms : k.forms) {body handler : Term} {name : Option String}
    (hbody : body.Closed k names) (hhandler : handler.Closed k (name.toList ++ names)) :
    Safe k names (Value.Closed k) (evalAttempt eval body name handler)
      (evalAttempt eval' body name handler) := by
  refine (heval hbody).tryCatch fun i hi ↦ ?_
  cases hhandled : i.handled? with
  | none => exact .inl ⟨rfl, rfl⟩
  | some v =>
    have hv := hi.of_handled? hhandled
    have hlast := (heval hhandler).tryCatch fun j _ ↦
      (safe_rethrow hforms (j := j) hi).imp_left fun h ↦ ⟨h, h⟩
    refine .inr ⟨hforms, Safe.enclosed ?_ (List.Subset.refl names)⟩
    cases name with
    | none => exact hlast
    | some name => exact hlast.declaring hv false

/-- One step of evaluation. -/
theorem safe_evalStep (rounds : ℕ) {t : Term} (h : t.Closed k names) :
    Safe k names (Value.Closed k) (t.evalStep eval rounds) (t.evalStep eval' rounds) := by
  have hflat : ∀ {v : Value}, v.IsFlat → Safe k names (Value.Closed k) (pure v) (pure v) :=
    fun hv ↦ safe_pure hv.closed
  cases t with
  | unit | number | integer | truth | text | character => exact hflat trivial
  | list items =>
    exact (safe_evalAll heval h).bind fun vs hvs ↦ safe_pure (Value.closedAll_iff.mpr hvs)
  | record keys items =>
    refine (safe_evalAll heval h).bind fun vs hvs ↦ safe_pure (Value.closed_ofEntries ?_)
    exact Value.closedEntries_iff.mpr fun entry hentry ↦ hvs _ (List.of_mem_zip hentry).2
  | template parts => exact (safe_evalAll heval h).bind fun vs _ ↦ hflat trivial
  | «variable» name =>
    exact (safe_place h).bind fun n _ ↦ (safe_cell n).bind fun c hc ↦ safe_pure hc
  | self => exact safe_ownPlace.bind fun n _ ↦ (safe_cell n).bind fun c hc ↦ safe_pure hc
  | foreign path name =>
    rw [evalStep, evalStep]
    by_cases hpath : path = ["global"]
    · rw [if_pos hpath]
      exact safe_throw fun _ ↦ h hpath
    · rw [if_neg hpath]
      exact safe_fail rfl
  | signed minus t =>
    refine Safe.bind (heval (t := t) h) fun v _ ↦ safe_ofExcept ?_
    exact (yields_applySign minus v).mono fun _ ↦ Value.IsFlat.closed
  | negated t =>
    refine Safe.bind (heval (t := t) h) fun v _ ↦ safe_ofExcept ?_
    exact (yields_negate v).mono fun _ ↦ Value.IsFlat.closed
  | binary op left right => exact safe_evalBinary heval op h.1 h.2
  | call name strict arguments => exact safe_evalCall heval strict (k.ne_eval h.1) h.2
  | foreignCall path name arguments =>
    exact (safe_evalArguments heval false h).bind fun _ _ ↦ safe_fail rfl
  | chain base links => exact safe_evalChain heval h.1 h.2
  | closure parameters captured body =>
    refine (safe_mapM fun name hname ↦ safe_share (h.1 name hname)).bind fun places _ ↦ ?_
    refine safe_pure ⟨h.2, Argument.closedAll_iff.mpr fun a ha ↦ ?_⟩
    obtain ⟨n, -, rfl⟩ := List.mem_map.mp ha
    trivial
  | declare constant name value =>
    exact (heval h.2).bind fun v hv ↦ Safe.declaring (safe_pure trivial) hv constant
  | assign op target value => exact safe_evalAssign heval op h.1 h.2
  | block body => exact (safe_evalSequence heval h).enclosed (List.Subset.refl names)
  | conditional guard yes no =>
    refine (safe_evalGuard heval h.2.1).bind fun holds _ ↦ ?_
    cases holds with
    | true => exact heval h.2.2.1
    | false => exact heval h.2.2.2
  | selection subject cases otherwise =>
    exact (heval h.2.1).bind fun v _ ↦ safe_evalCases heval v h.2.2.2 h.2.2.1
  | whileLoop guard body =>
    refine safe_iterate ((safe_evalGuard heval h.2.1).bind fun holds _ ↦ ?_) rounds
    cases holds with
    | true => exact safe_evalRound heval h.2.2
    | false => exact safe_pure fun v hv ↦ Option.some.inj hv ▸ trivial
  | doLoop body guard goesOn =>
    refine safe_iterate ((safe_evalRound heval h.2.1).bind fun r hr ↦ ?_) rounds
    cases r with
    | some v => exact safe_pure hr
    | none =>
      refine (safe_evalGuard heval h.2.2).bind fun holds _ ↦ ?_
      split
      · exact safe_pure fun v hv ↦ absurd hv (Option.not_mem_none v)
      · exact safe_pure fun v hv ↦ Option.some.inj hv ▸ trivial
  | forLoop new items body => exact (heval h.2.1).bind fun _ _ ↦ safe_fail rfl
  | leave value => exact (heval h.2).bind fun v hv ↦ safe_throw ⟨h.1, hv⟩
  | next => exact safe_throw h
  | result value => exact (heval h.2).bind fun v hv ↦ safe_throw ⟨h.1, hv⟩
  | raise value => exact (heval h.2).bind fun v hv ↦ safe_throw ⟨h.1, hv⟩
  | attempt body name handler => exact safe_evalAttempt heval h.1 h.2.1 h.2.2
  | loadModule path => exact (heval h.2).bind fun _ _ ↦ safe_fail rfl
  | publish name => exact (safe_place h.2).bind fun _ _ ↦ hflat trivial

end Eval

/-- The evaluation of a closed term is never stopped because a word stands for nothing. -/
theorem safe_eval (steps : ℕ) : ∀ {names t}, t.Closed k names →
    Safe k names (Value.Closed k) (Term.eval steps t) (Term.eval steps t) := by
  induction steps with
  | zero => exact fun _ ↦ safe_throw trivial
  | succ steps ih => exact fun h ↦ safe_evalStep ih steps h

end Term

/-! ## Formulas -/

/-- Before the evaluation there are the constants and the variables that are bound, the last in
front. -/
theorem State.names_initial (b : Bindings) :
    (State.initial b).scope.map (·.1) = (constantNames ++ b.words).reverse := by
  have hplaced : ∀ (entries : List ((String × Float) × Bool)) {place},
      (∀ i e, (place i e : String × ℕ).1 = e.1.1) →
        (entries.mapIdx place).map (·.1) = entries.map (·.1.1) := by
    intro entries place hplace
    refine List.ext_getElem? fun i ↦ ?_
    rw [List.getElem?_map, List.getElem?_mapIdx, List.getElem?_map, Option.map_map]
    exact congrArg (Option.map · entries[i]?) (funext (hplace i))
  rw [State.initial, List.map_reverse, hplaced _ fun _ _ ↦ rfl, List.map_append, List.map_map,
    List.map_map]
  rfl

theorem State.closed_initial {k : Repertoire} (b : Bindings) :
    (State.initial b).Closed k (constantNames ++ b.words) := by
  constructor
  · intro c hc
    obtain ⟨x, hx⟩ := State.exists_float_of_mem_initial hc
    rw [hx]
    trivial
  · intro name hname
    rw [← List.mem_reverse, ← State.names_initial, List.mem_map] at hname
    obtain ⟨entry, hentry, rfl⟩ := hname
    rw [← any_eq_isSome_lookup, List.any_eq_true]
    exact ⟨entry, hentry, beq_self_eq_true _⟩

end FormulaQuiz.Formula
