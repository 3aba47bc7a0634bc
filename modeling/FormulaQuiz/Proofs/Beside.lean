import FormulaQuiz.Proofs.Widening

/-!
# Calls and terms beside one more variable

Each definition of the evaluation is followed in a state and in a wider one.  The body of a function
has a scope of its own, so nothing is hidden in it.
-/

namespace FormulaQuiz.Formula

variable {hidden : Option String} {k : ℕ} {eval : Term → Machine Value}

/-! ## Calls -/

namespace Machine

theorem tracks_argumentValue (a : Argument) :
    Tracks hidden k (Value.relocate (skip k)) (argumentValue a)
      (argumentValue (a.relocate (skip k))) := by
  cases a with
  | value v => exact tracks_pure v
  | cell place => exact (tracks_cell place).bind fun c ↦ tracks_pure c.value

theorem tracks_argumentValues (as : List Argument) :
    Tracks hidden k (List.map (Value.relocate (skip k))) (as.mapM argumentValue)
      ((as.map (Argument.relocate (skip k))).mapM argumentValue) := by
  rw [List.mapM_map]
  exact tracks_mapM fun a _ ↦ tracks_argumentValue a

/-- The cells of a scope after there is one more cell. -/
def skipScope (k : ℕ) (scope : List (String × ℕ)) : List (String × ℕ) :=
  scope.map (Prod.map id (skip k))

theorem lookup_skipScope (name : String) (scope : List (String × ℕ)) :
    (skipScope k scope).lookup name = (scope.lookup name).map (skip k) := by
  induction scope with
  | nil => rfl
  | cons entry scope ih =>
    rw [skipScope, List.map_cons, List.lookup_cons, List.lookup_cons, ← skipScope, ih]
    cases h : name == entry.1 <;> simp [h]

theorem tracks_bindParameters (names : List String) (as : List Argument)
    (scope : List (String × ℕ)) :
    Tracks hidden k (skipScope k) (bindParameters names as scope)
      (bindParameters names (as.map (Argument.relocate (skip k))) (skipScope k scope)) := by
  induction names generalizing as scope with
  | nil => exact tracks_pure scope
  | cons name names ih =>
    cases as with
    | nil => exact tracks_pure scope
    | cons a as =>
      cases a with
      | value v => exact (tracks_newCell v false).bind fun place ↦ ih as ((name, place) :: scope)
      | cell place => exact ih as ((name, place) :: scope)

section Bodies

variable (heval : ∀ t, Tracks none k (Value.relocate (skip k)) (eval t) (eval t))
include heval

theorem tracks_runBody (body : Term) (parameters : List String) (as : List Argument)
    (self : Option ℕ) :
    Tracks hidden k (Value.relocate (skip k)) (runBody eval body parameters as self)
      (runBody eval body parameters (as.map (Argument.relocate (skip k))) (self.map (skip k))) := by
  refine ((tracks_bindParameters parameters as []).bind fun scope ↦ ?_).deeper.enclosed
  refine tracks_modify_bind (fun s t hst ↦ ?_) ((heval body).tryCatch fun i ↦ ?_)
  · exact { hst with
      scope := fun name _ ↦ lookup_skipScope name scope
      isEmpty := by cases scope <;> rfl
      self := rfl }
  · cases i with
    | result v => exact tracks_pure v
    | _ => exact tracks_throw _

/-- A value and the value that a call leaves, after the cells are moved. -/
def relocatePair (k : ℕ) : Value × Value → Value × Value :=
  Prod.map (Value.relocate (skip k)) (Value.relocate (skip k))

theorem tracks_callValue (base : Base) (f : Callable) (given : List Argument)
    (vs : List Value) (on? : Option Value) :
    Tracks hidden k (relocatePair k) (callValue eval base f given vs on?)
      (callValue eval (base.relocate (skip k)) f (given.map (Argument.relocate (skip k)))
        (vs.map (Value.relocate (skip k))) (on?.map (Value.relocate (skip k)))) := by
  have hall : given.map (Argument.relocate (skip k)) ++
      (vs.map (Value.relocate (skip k))).map Argument.value =
        (given ++ vs.map Argument.value).map (Argument.relocate (skip k)) := by
    rw [List.map_append, List.map_map, List.map_map]
    rfl
  have hon : ∀ us : List Value,
      (on?.map (Value.relocate (skip k))).toList ++ us.map (Value.relocate (skip k)) =
        (on?.toList ++ us).map (Value.relocate (skip k)) := by
    intro us
    cases on? <;> rfl
  rw [callValue.eq_def, callValue.eq_def]
  dsimp only
  rw [hall]
  generalize given ++ vs.map Argument.value = all
  cases f with
  | closure parameters body =>
    dsimp only
    rw [List.length_map]
    split
    · rw [Base.admits_relocate (skip_injective k)]
      split
      · exact tracks_fail _
      · cases on? with
        | none =>
          exact (tracks_runBody heval body parameters all none).bind fun r ↦
            tracks_pure (r := relocatePair k) (r, .unit)
        | some v =>
          refine (tracks_newCell v base.constant).bind fun place ↦ ?_
          refine (tracks_runBody heval body parameters all (some place)).bind fun r ↦ ?_
          exact (tracks_cell place).bind fun c ↦ tracks_pure (r := relocatePair k) (r, c.value)
    · refine (tracks_argumentValues all).bind fun us ↦ ?_
      refine tracks_ofExcept ?_
      rw [hon, Value.unsupported, Value.unsupported, Value.signature_relocate]
      rfl
  | named name =>
    refine (tracks_argumentValues all).bind fun us ↦ ?_
    refine (tracks_ofExcept (r := Value.relocate (skip k)) ?_).bind fun r ↦ ?_
    · rw [hon]
      exact applyFunction_relocate name _
    · cases on? with
      | none => exact tracks_pure (r := relocatePair k) (r, .unit)
      | some v => exact tracks_pure (r := relocatePair k) (r, v)

omit heval in
/-- A method that is no function value is a function on the value before it. -/
theorem tracks_applyMethod (name : String) (vs : List Value) (v : Value) :
    Tracks hidden k (relocatePair k)
      (do return (← ofExcept (applyFunction name (v :: vs)), v))
      (do return (← ofExcept (applyFunction name
        (v.relocate (skip k) :: vs.map (Value.relocate (skip k)))), v.relocate (skip k))) :=
  (tracks_ofExcept (applyFunction_relocate name (v :: vs))).bind fun r ↦
    tracks_pure (r := relocatePair k) (r, v)

omit heval in
/-- A method with none of three names is an item of a record that is called, or a function. -/
theorem callMethod_eq {base : Base} {name : String} {vs : List Value} (hcall : name ≠ "call")
    (hcurry : name ≠ "curry") (hshared : name = "is_shared" → vs ≠ []) (v : Value) :
    callMethod eval base name vs v =
      match v with
      | .record entries =>
        match entries.lookup name with
        | some (.function f given) => callValue eval base f given vs (some v)
        | _ => do return (← ofExcept (applyFunction name (v :: vs)), v)
      | _ => do return (← ofExcept (applyFunction name (v :: vs)), v) := by
  unfold callMethod
  split
  case h_7 => rfl
  case h_8 => cases v <;> simp_all
  all_goals first
    | exact absurd rfl hcall
    | exact absurd rfl hcurry
    | exact absurd rfl (hshared rfl)

theorem tracks_callMethod (base : Base) (name : String) (vs : List Value) (v : Value) :
    Tracks hidden k (relocatePair k) (callMethod eval base name vs v)
      (callMethod eval (base.relocate (skip k)) name (vs.map (Value.relocate (skip k)))
        (v.relocate (skip k))) := by
  -- a function value keeps the arguments that it was given
  have hgiven : ∀ f given vs on?, Tracks hidden k (relocatePair k)
      (callValue eval base f given vs on?)
      (callValue eval (base.relocate (skip k)) f (Argument.relocateAll (skip k) given)
        (vs.map (Value.relocate (skip k))) (on?.map (Value.relocate (skip k)))) := by
    intro f given vs on?
    rw [Argument.relocateAll_eq]
    exact tracks_callValue heval base f given vs on?
  by_cases hcall : name = "call"
  · subst hcall
    cases v with
    | function f given =>
      exact (hgiven f given vs none).bind fun p ↦
        tracks_pure (r := relocatePair k) (p.1, .function f given)
    | _ =>
      cases vs with
      | nil => exact tracks_fail _
      | cons u rest =>
        cases u with
        | function f given => exact hgiven f given rest (some _)
        | _ => exact tracks_fail _
  by_cases hcurry : name = "curry"
  · subst hcurry
    cases v with
    | function f given =>
      have hmore : Argument.relocateAll (skip k) (given ++ vs.map Argument.value) =
          Argument.relocateAll (skip k) given ++
            (vs.map (Value.relocate (skip k))).map Argument.value := by
        rw [Argument.relocateAll_eq, Argument.relocateAll_eq, List.map_append, List.map_map,
          List.map_map]
        rfl
      have hpair : Tracks hidden k (relocatePair k) _ _ :=
        tracks_pure (.function f (given ++ vs.map Argument.value), .function f given)
      rw [relocatePair, Prod.map_apply, Value.relocate, hmore] at hpair
      exact hpair
    | _ => exact tracks_fail _
  by_cases hshared : name = "is_shared" ∧ vs = []
  · obtain ⟨rfl, rfl⟩ := hshared
    have hpair : Tracks hidden k (relocatePair k) _ _ := tracks_pure (.truth base.shared, v)
    cases v <;> exact hpair
  have hnone : name = "is_shared" → vs ≠ [] := fun h h' ↦ hshared ⟨h, h'⟩
  rw [callMethod_eq hcall hcurry hnone,
    callMethod_eq hcall hcurry fun h ↦ List.map_eq_nil_iff.not.mpr (hnone h)]
  cases v with
  | record entries =>
    have happly : Tracks hidden k _ _ _ := tracks_applyMethod name vs (.record entries)
    have hlookup : (Value.relocateEntries (skip k) entries).lookup name =
        (entries.lookup name).map (Value.relocate (skip k)) := by
      rw [Value.relocateEntries_eq, Value.lookup_relocate]
    dsimp only [Value.relocate] at happly ⊢
    rw [hlookup]
    cases entries.lookup name with
    | none => exact happly
    | some u =>
      cases u with
      | function f given => exact hgiven f given vs (some (.record entries))
      | _ => exact happly
  | _ => exact tracks_applyMethod name vs _

/-- What links make of a value, and the value as they left it. -/
theorem tracks_followLinks (base : Base) (links : List LinkValue) (v : Value) :
    Tracks hidden k (relocatePair k) (followLinks eval base links v)
      (followLinks eval (base.relocate (skip k)) (links.map (LinkValue.relocate (skip k)))
        (v.relocate (skip k))) := by
  induction links generalizing base v with
  | nil => exact tracks_pure (r := relocatePair k) (v, v)
  | cons link links ih =>
    rw [List.map_cons, followLinks.eq_def, followLinks.eq_def eval (base.relocate (skip k))]
    dsimp only
    rw [LinkValue.isOver_relocate]
    split
    · exact tracks_pure (r := relocatePair k) (.unit, v)
    · have hpart : Tracks hidden k (relocatePair k)
          (do
            let part ← ofExcept (link.get v)
            let p ← followLinks eval base.part links part
            return (p.1, link.update p.2 v))
          (do
            let part ← ofExcept ((link.relocate (skip k)).get (v.relocate (skip k)))
            let p ← followLinks eval (base.relocate (skip k)).part
              (links.map (LinkValue.relocate (skip k))) part
            return (p.1, (link.relocate (skip k)).update p.2 (v.relocate (skip k)))) := by
        refine (tracks_ofExcept (link.get_relocate v)).bind fun part ↦ ?_
        refine (ih base.part part).bind fun p ↦ ?_
        have hupdate : Tracks hidden k (relocatePair k) _ _ :=
          tracks_pure (p.1, link.update p.2 v)
        rw [relocatePair, Prod.map_apply, ← LinkValue.update_relocate] at hupdate
        exact hupdate
      cases link with
      | method name vs =>
        refine (tracks_callMethod heval base name vs v).bind fun p ↦ ?_
        exact (ih base.part p.1).bind fun p' ↦ tracks_pure (r := relocatePair k) (p'.1, p.2)
      | property name => exact hpart
      | index optional i => exact hpart

end Bodies

/-- The change of a part of a value. -/
theorem tracks_changePart {change change' : Value → Machine Value}
    (hchange : ∀ v, Tracks hidden k (Value.relocate (skip k)) (change v)
      (change' (v.relocate (skip k)))) (links : List LinkValue) (v : Value) :
    Tracks hidden k (Value.relocate (skip k)) (changePart change links v)
      (changePart change' (links.map (LinkValue.relocate (skip k))) (v.relocate (skip k))) := by
  induction links generalizing v with
  | nil => exact hchange v
  | cons link links ih =>
    refine (tracks_ofExcept (link.get_relocate v)).bind fun part ↦ ?_
    exact (ih part).bind fun part ↦ tracks_ofExcept (link.put_relocate part v)

end Machine

/-! ## Terms -/

theorem Term.disjoint_namesAll {ts : List Term} {l : List String} :
    (Term.namesAll ts).Disjoint l ↔ ∀ t ∈ ts, t.names.Disjoint l := by
  induction ts with
  | nil => simp [Term.namesAll]
  | cons t ts ih => simp [Term.namesAll, ih]

theorem any_eq_isSome_lookup {α : Type} (name : String) (l : List (String × α)) :
    l.any (·.1 == name) = (l.lookup name).isSome := by
  induction l with
  | nil => rfl
  | cons entry l ih =>
    rw [List.any_cons, List.lookup_cons, ih, BEq.comm]
    cases name == entry.1 <;> rfl

theorem Machine.tracks_ofExcept_same {α : Type} {e e' : Except Fault α} (h : e' = e) :
    Tracks hidden k id (ofExcept e) (ofExcept e') := by
  refine tracks_ofExcept ?_
  rw [h]
  cases e <;> rfl

namespace Term

open Machine

/-- Terms that do not use what is hidden are evaluated alike in a state and in a wider one. -/
def Follows (k : ℕ) (eval : Term → Machine Value) : Prop :=
  ∀ ⦃hidden : Option String⦄ ⦃t : Term⦄, t.names.Disjoint (concealed hidden) →
    Tracks hidden k (Value.relocate (skip k)) (eval t) (eval t)

section Eval

variable (heval : Follows k eval)
include heval

theorem Follows.none (t : Term) : Tracks none k (Value.relocate (skip k)) (eval t) (eval t) :=
  heval (List.disjoint_nil_right _)

theorem tracks_evalAll {ts : List Term} (h : (Term.namesAll ts).Disjoint (concealed hidden)) :
    Tracks hidden k (List.map (Value.relocate (skip k))) (ts.mapM eval) (ts.mapM eval) :=
  tracks_mapM fun _ ht ↦ heval (disjoint_namesAll.mp h _ ht)

theorem tracks_evalArguments (strict : Bool) {ts : List Term}
    (h : (Term.namesAll ts).Disjoint (concealed hidden)) :
    Tracks hidden k (List.map (Value.relocate (skip k))) (evalArguments eval strict ts)
      (evalArguments eval strict ts) := by
  unfold evalArguments
  split
  next name ts =>
    rw [Term.namesAll, List.disjoint_append_left] at h
    refine tracks_get fun s t hst ↦ ?_
    rw [hst.isEmpty]
    split
    · refine tracks_evalAll heval ?_
      rw [Term.namesAll, List.disjoint_append_left]
      exact h
    · exact (tracks_evalAll heval h.2).bind fun vs ↦ (heval h.1).bind fun v ↦ tracks_pure (v :: vs)
  next => exact tracks_evalAll heval h

theorem tracks_evalLinks {links : List Link}
    (h : (Link.namesAll links).Disjoint (concealed hidden)) :
    Tracks hidden k (List.map (LinkValue.relocate (skip k))) (evalLinks eval links)
      (evalLinks eval links) := by
  refine tracks_mapM fun link hlink ↦ ?_
  have hnames : link.names.Disjoint (concealed hidden) := fun name hname ↦
    h (Link.mem_namesAll.mpr ⟨link, hlink, hname⟩)
  cases link with
  | method name arguments =>
    exact (tracks_evalAll heval hnames).bind fun vs ↦ tracks_pure (LinkValue.method name vs)
  | property name => exact tracks_pure (LinkValue.property name)
  | index optional t => exact (heval hnames).bind fun v ↦ tracks_pure (LinkValue.index optional v)

theorem tracks_evalSequence {ts : List Term}
    (h : (Term.namesAll ts).Disjoint (concealed hidden)) :
    Tracks hidden k (Value.relocate (skip k)) (evalSequence eval ts) (evalSequence eval ts) := by
  induction ts with
  | nil => exact tracks_pure Value.unit
  | cons t ts ih =>
    rw [Term.namesAll, List.disjoint_append_left] at h
    cases ts with
    | nil => exact heval h.1
    | cons u ts => exact (heval h.1).bind fun _ ↦ ih h.2

theorem tracks_evalGuard {guard : Term} (h : guard.names.Disjoint (concealed hidden)) :
    Tracks hidden k id (evalGuard eval guard) (evalGuard eval guard) := by
  exact (heval h).bind fun v ↦ tracks_ofExcept_same v.asTruth_relocate

theorem tracks_matchesPattern (v : Value) {patterns : List Term}
    (h : (Term.namesAll patterns).Disjoint (concealed hidden)) :
    Tracks hidden k id (matchesPattern eval v patterns)
      (matchesPattern eval (v.relocate (skip k)) patterns) := by
  induction patterns with
  | nil => exact tracks_pure (r := id) false
  | cons pattern patterns ih =>
    rw [Term.namesAll, List.disjoint_append_left] at h
    refine (heval h.1).bind fun w ↦ ?_
    rw [Value.isSame_relocate]
    split
    · exact tracks_pure (r := id) true
    · exact ih h.2

theorem tracks_evalCases (v : Value) {otherwise : Term} {cases : List Case}
    (hotherwise : otherwise.names.Disjoint (concealed hidden))
    (h : (Case.namesAll cases).Disjoint (concealed hidden)) :
    Tracks hidden k (Value.relocate (skip k)) (evalCases eval v otherwise cases)
      (evalCases eval (v.relocate (skip k)) otherwise cases) := by
  induction cases with
  | nil => exact heval hotherwise
  | cons c cases ih =>
    obtain ⟨patterns, guard, action⟩ := c
    simp only [Case.namesAll, Case.names, List.disjoint_append_left] at h
    obtain ⟨⟨⟨hpatterns, hguard⟩, haction⟩, hcases⟩ := h
    refine (tracks_matchesPattern heval v hpatterns).bind fun found ↦ ?_
    cases found with
    | false => exact ih hcases
    | true =>
      refine (tracks_evalGuard heval hguard).bind fun holds ↦ ?_
      cases holds with
      | false => exact ih hcases
      | true => exact heval haction

theorem tracks_evalRound {body : Term} (h : body.names.Disjoint (concealed hidden)) :
    Tracks hidden k (Option.map (Value.relocate (skip k))) (evalRound eval body)
      (evalRound eval body) := by
  refine ((heval h).bind fun _ ↦ tracks_pure none).tryCatch fun i ↦ ?_
  cases i with
  | leave v => exact tracks_pure (some v)
  | next => exact tracks_pure none
  | _ => exact tracks_throw _

omit heval in
/-- A handler that raises nothing passes on what it was called for. -/
theorem tracks_rethrow (i j : Interrupt) : Tracks hidden k (Value.relocate (skip k))
    (match j with
      | .raised .unit => throw i
      | j => throw j)
    (match j.relocate (skip k) with
      | .raised .unit => throw (i.relocate (skip k))
      | j => throw j) := by
  cases j with
  | raised w => cases w <;> first | exact tracks_throw i | exact tracks_throw (.raised _)
  | _ => exact tracks_throw _

theorem tracks_evalAttempt {body handler : Term} (name : Option String)
    (h : body.names.Disjoint (concealed hidden)) (h' : handler.names.Disjoint (concealed hidden)) :
    Tracks hidden k (Value.relocate (skip k)) (evalAttempt eval body name handler)
      (evalAttempt eval body name handler) := by
  refine (heval h).tryCatch fun i ↦ ?_
  rw [Interrupt.handled?_relocate]
  cases i.handled? with
  | none => exact tracks_throw i
  | some v =>
    refine Tracks.enclosed ?_
    cases name with
    | none => exact (heval h').tryCatch fun j ↦ tracks_rethrow i j
    | some name =>
      simp only [Option.forIn_some, bind_assoc, pure_bind]
      exact Tracks.bind (r := id) (tracks_newVariable name v false) fun _ ↦
        (heval h').tryCatch fun j ↦ tracks_rethrow i j

/-- A script is known only when it is run, so nothing is hidden from it. -/
theorem tracks_evalScript (source : String) :
    Tracks none k (Value.relocate (skip k)) (evalScript eval source) (evalScript eval source) := by
  unfold evalScript
  split
  · exact tracks_fail _
  · refine (tracks_evalSequence heval (List.disjoint_nil_right _)).deeper.tryCatch fun i ↦ ?_
    cases i with
    | result v => exact tracks_pure v
    | fault g handled => exact tracks_fail g
    | _ => exact tracks_throw _

theorem tracks_toArgument {t : Term} (h : t.names.Disjoint (concealed hidden)) :
    Tracks hidden k (Argument.relocate (skip k)) (toArgument eval t) (toArgument eval t) := by
  unfold toArgument
  split
  next name =>
    rw [Term.names, List.singleton_disjoint] at h
    refine (tracks_place h).bind fun n ↦ (tracks_cell n).bind fun c ↦ ?_
    obtain ⟨v, constant, shared⟩ := c
    cases shared with
    | true => exact tracks_pure (Argument.cell n)
    | false => exact tracks_pure (Argument.value v)
  next => exact (heval h).bind fun v ↦ tracks_pure (Argument.value v)

theorem tracks_isShared {t : Term} (h : t.names.Disjoint (concealed hidden)) :
    Tracks hidden k id (isShared eval t) (isShared eval t) := by
  refine (tracks_toArgument heval h).bind fun a ↦ ?_
  cases a with
  | cell n => exact tracks_pure (r := id) true
  | value v => exact tracks_pure (r := id) false

theorem tracks_evalCallValue (f : Callable) (given : List Argument) {ts : List Term}
    (h : (Term.namesAll ts).Disjoint (concealed hidden)) :
    Tracks hidden k (Value.relocate (skip k)) (evalCallValue eval f given ts)
      (evalCallValue eval f (given.map (Argument.relocate (skip k))) ts) := by
  have hcall : ∀ vs, Tracks hidden k (Value.relocate (skip k))
      (do return (← callValue eval .free f given vs none).1)
      (do return (← callValue eval .free f (given.map (Argument.relocate (skip k)))
        (vs.map (Value.relocate (skip k))) none).1) := fun vs ↦
    (tracks_callValue heval.none .free f given vs none).bind fun p ↦ tracks_pure p.1
  cases f with
  | closure parameters body => exact (tracks_evalAll heval h).bind hcall
  | named name =>
    cases given with
    | nil => exact (tracks_evalArguments heval false h).bind hcall
    | cons a given => exact (tracks_evalAll heval h).bind hcall

theorem tracks_evalCall (name : String) (strict : Bool) {ts : List Term}
    (h : (name :: Term.namesAll ts).Disjoint (concealed hidden)) :
    Tracks hidden k (Value.relocate (skip k)) (evalCall eval name strict ts)
      (evalCall eval name strict ts) := by
  -- what is called by a text that is known only then is called where nothing is hidden
  have hopen : name = "eval" ∨ name = "is_def_var" → hidden = none := by
    intro hname
    cases hidden with
    | none => rfl
    | some word =>
      refine absurd (h List.mem_cons_self) (not_not_intro ?_)
      rcases hname with rfl | rfl <;> simp [concealed]
  rw [List.disjoint_cons_left] at h
  unfold evalCall
  split
  next f rest =>
    obtain ⟨-, h⟩ := h
    rw [Term.namesAll, List.disjoint_append_left] at h
    refine (heval h.1).bind fun v ↦ ?_
    cases v with
    | function f given =>
      have hcall := tracks_evalCallValue heval f given h.2
      rw [← Argument.relocateAll_eq] at hcall
      exact hcall
    | _ => exact tracks_fail _
  next f t ts =>
    obtain ⟨-, h⟩ := h
    rw [Term.namesAll, List.disjoint_append_left] at h
    refine (heval h.1).bind fun v ↦ ?_
    cases v with
    | function f given =>
      have hgiven : Tracks hidden k (List.map (Argument.relocate (skip k)))
          ((t :: ts).mapM (toArgument eval)) ((t :: ts).mapM (toArgument eval)) :=
        tracks_mapM fun u hu ↦ tracks_toArgument heval (disjoint_namesAll.mp h.2 u hu)
      refine hgiven.bind fun as ↦ ?_
      have hfunction : Tracks hidden k (Value.relocate (skip k)) _ _ :=
        tracks_pure (.function f (given ++ as))
      rw [Value.relocate, Argument.relocateAll_eq, List.map_append,
        ← Argument.relocateAll_eq given] at hfunction
      exact hfunction
    | _ => exact tracks_fail _
  next t =>
    obtain rfl := hopen (.inl rfl)
    refine (heval.none t).bind fun v ↦ ?_
    exact (tracks_ofExcept_same v.asText_relocate).bind fun source ↦ tracks_evalScript heval source
  next t =>
    obtain ⟨-, h⟩ := h
    rw [Term.namesAll, List.disjoint_append_left] at h
    refine (heval h.1).bind fun v ↦ (tracks_ofExcept_same v.asText_relocate).bind fun name ↦ ?_
    dsimp only [id]
    split
    · exact tracks_pure (Value.function (.named name) [])
    · exact tracks_fail _
  next t =>
    obtain rfl := hopen (.inr rfl)
    refine (heval.none t).bind fun v ↦ (tracks_ofExcept_same v.asText_relocate).bind fun name ↦ ?_
    refine tracks_get fun s t hst ↦ ?_
    have hany : t.scope.any (·.1 == name) = s.scope.any (·.1 == name) := by
      rw [any_eq_isSome_lookup, any_eq_isSome_lookup, hst.scope name List.not_mem_nil,
        Option.isSome_map]
    dsimp only [id]
    rw [hany]
    exact tracks_pure (Value.truth _)
  next t n =>
    obtain ⟨-, h⟩ := h
    simp only [Term.namesAll, List.disjoint_append_left] at h
    refine (heval h.1).bind fun v ↦ (tracks_ofExcept_same v.asText_relocate).bind fun _ ↦ ?_
    refine (heval h.2.1).bind fun w ↦ (tracks_ofExcept_same w.asInteger_relocate).bind fun _ ↦ ?_
    exact tracks_pure (Value.truth false)
  next u t n =>
    obtain ⟨-, h⟩ := h
    simp only [Term.namesAll, List.disjoint_append_left] at h
    refine (heval h.1).bind fun v ↦ (tracks_ofExcept_same v.asText_relocate).bind fun _ ↦ ?_
    refine (heval h.2.1).bind fun v ↦ (tracks_ofExcept_same v.asText_relocate).bind fun _ ↦ ?_
    refine (heval h.2.2.1).bind fun w ↦ (tracks_ofExcept_same w.asInteger_relocate).bind fun _ ↦ ?_
    exact tracks_pure (Value.truth false)
  next t =>
    obtain ⟨-, h⟩ := h
    rw [Term.namesAll, List.disjoint_append_left] at h
    exact (tracks_isShared heval h.1).bind fun b ↦ tracks_pure (Value.truth b)
  next =>
    exact (tracks_evalArguments heval strict h.2).bind fun vs ↦
      tracks_ofExcept (applyFunction_relocate name vs)

theorem tracks_followCell (links : List LinkValue) (place : ℕ) :
    Tracks hidden k (Value.relocate (skip k)) (followCell eval links place)
      (followCell eval (links.map (LinkValue.relocate (skip k))) (skip k place)) := by
  refine (tracks_cell place).bind fun c ↦ ?_
  have hbase : Base.ofCell (skip k place) (c.relocate (skip k)) =
      (Base.ofCell place c).relocate (skip k) := by
    obtain ⟨v, constant, shared⟩ := c
    cases shared <;> rfl
  rw [hbase]
  refine (tracks_followLinks heval.none (.ofCell place c) links c.value).bind fun p ↦ ?_
  exact Tracks.bind (r := id) (tracks_store place p.2) fun _ ↦ tracks_pure p.1

theorem tracks_evalChain {base : Term} {links : List Link}
    (h : (base.names ++ Link.namesAll links).Disjoint (concealed hidden)) :
    Tracks hidden k (Value.relocate (skip k)) (evalChain eval base links)
      (evalChain eval base links) := by
  rw [List.disjoint_append_left] at h
  refine (tracks_evalLinks heval h.2).bind fun links ↦ ?_
  split
  next name =>
    rw [Term.names, List.singleton_disjoint] at h
    exact (tracks_place h.1).bind fun place ↦ tracks_followCell heval links place
  next => exact tracks_ownPlace.bind fun place ↦ tracks_followCell heval links place
  next =>
    refine (heval h.1).bind fun v ↦ ?_
    exact (tracks_followLinks heval.none .free links v).bind fun p ↦ tracks_pure p.1

omit heval in
theorem tracks_changeCell (op : Option Operator) (links : List LinkValue) (new : Value)
    (place : ℕ) :
    Tracks hidden k (Value.relocate (skip k)) (changeCell op links new place)
      (changeCell op (links.map (LinkValue.relocate (skip k))) (new.relocate (skip k))
        (skip k place)) := by
  refine (tracks_cell place).bind fun c ↦ ?_
  obtain ⟨v, constant, shared⟩ := c
  cases constant with
  | true => exact tracks_fail _
  | false =>
    refine (tracks_changePart (fun old ↦ ?_) links v).bind fun v ↦ ?_
    · cases op with
      | none => exact tracks_pure new
      | some op => exact tracks_ofExcept (applyOperator_relocate op old new)
    · exact Tracks.bind (r := id) (tracks_store place v) fun _ ↦ tracks_pure Value.unit

/-- What links lead to from a variable or from the record itself is changed. -/
theorem tracks_changeBase (op : Option Operator) (new : Value) {base : Term} {links : List Link}
    (h : (base.names ++ Link.namesAll links).Disjoint (concealed hidden)) :
    Tracks hidden k (Value.relocate (skip k))
      (do
        let links ← evalLinks eval links
        match base with
        | .variable name => changeCell op links new (← place name)
        | .self => changeCell op links new (← ownPlace)
        | _ => fail .failed)
      (do
        let links ← evalLinks eval links
        match base with
        | .variable name => changeCell op links (new.relocate (skip k)) (← place name)
        | .self => changeCell op links (new.relocate (skip k)) (← ownPlace)
        | _ => fail .failed) := by
  rw [List.disjoint_append_left] at h
  refine (tracks_evalLinks heval h.2).bind fun links ↦ ?_
  split
  next name =>
    rw [Term.names, List.singleton_disjoint] at h
    exact (tracks_place h.1).bind fun place ↦ tracks_changeCell op links new place
  next => exact tracks_ownPlace.bind fun place ↦ tracks_changeCell op links new place
  next => exact tracks_fail _

theorem tracks_evalAssign (op : Option Operator) {target value : Term}
    (h : (target.names ++ value.names).Disjoint (concealed hidden)) :
    Tracks hidden k (Value.relocate (skip k)) (evalAssign eval op target value)
      (evalAssign eval op target value) := by
  rw [List.disjoint_append_left] at h
  refine (heval h.2).bind fun new ↦ ?_
  have hroot : ∀ t : Term, t.names.Disjoint (concealed hidden) →
      (t.names ++ Link.namesAll []).Disjoint (concealed hidden) := by
    intro t ht
    rwa [Link.namesAll, List.append_nil]
  cases target with
  | chain base links =>
    rw [Term.names] at h
    exact tracks_changeBase heval op new h.1
  | _ => exact tracks_changeBase heval op new (hroot _ h.1)

theorem tracks_evalBinary (op : Operator) {left right : Term}
    (h : (left.names ++ right.names).Disjoint (concealed hidden)) :
    Tracks hidden k (Value.relocate (skip k)) (evalBinary eval op left right)
      (evalBinary eval op left right) := by
  rw [List.disjoint_append_left] at h
  unfold evalBinary
  split
  · refine (tracks_evalGuard heval h.1).bind fun b ↦ ?_
    cases b with
    | true => exact (tracks_evalGuard heval h.2).bind fun b ↦ tracks_pure (Value.truth b)
    | false => exact tracks_pure (Value.truth false)
  · refine (tracks_evalGuard heval h.1).bind fun b ↦ ?_
    cases b with
    | true => exact tracks_pure (Value.truth true)
    | false => exact (tracks_evalGuard heval h.2).bind fun b ↦ tracks_pure (Value.truth b)
  · refine (heval h.1).bind fun v ↦ ?_
    cases v with
    | unit => exact heval h.2
    | _ => exact tracks_pure _
  · refine (heval h.2).bind fun whole ↦ (heval h.1).bind fun part ↦ tracks_ofExcept ?_
    exact Value.unsupported_relocate _ [whole, part]
  · exact (heval h.1).bind fun v ↦ (heval h.2).bind fun w ↦
      tracks_ofExcept (applyOperator_relocate op v w)

omit heval in
theorem partText_relocate (v : Value) : partText (v.relocate (skip k)) = partText v := by
  have hdisplay := v.display_relocate (f := skip k)
  cases v with
  | text content => rfl
  | _ => exact congrArg Text.trim hdisplay

/-- One step of evaluation. -/
theorem tracks_evalStep (rounds : ℕ) {t : Term} (h : t.names.Disjoint (concealed hidden)) :
    Tracks hidden k (Value.relocate (skip k)) (t.evalStep eval rounds)
      (t.evalStep eval rounds) := by
  cases t with
  | unit => exact tracks_pure Value.unit
  | number x => exact tracks_pure (Value.float x)
  | integer n => exact tracks_pure (Value.integer n)
  | truth b => exact tracks_pure (Value.truth b)
  | text content => exact tracks_pure (Value.text content)
  | character c => exact tracks_pure (Value.character c)
  | list items =>
    rw [Term.names] at h
    refine (tracks_evalAll heval h).bind fun vs ↦ ?_
    rw [← Value.relocateAll_eq]
    exact tracks_pure (Value.list vs)
  | record names items =>
    rw [Term.names] at h
    refine (tracks_evalAll heval h).bind fun vs ↦ ?_
    rw [List.zip_map_right, Value.ofEntries_relocate]
    exact tracks_pure (Value.ofEntries (names.zip vs))
  | template parts =>
    rw [Term.names] at h
    refine (tracks_evalAll heval h).bind fun vs ↦ ?_
    rw [List.map_map, show partText ∘ Value.relocate (skip k) = partText from
      funext partText_relocate]
    exact tracks_pure (Value.text (String.join (vs.map partText)))
  | «variable» name =>
    rw [Term.names, List.singleton_disjoint] at h
    exact (tracks_place h).bind fun n ↦ (tracks_cell n).bind fun c ↦ tracks_pure c.value
  | self => exact tracks_ownPlace.bind fun n ↦ (tracks_cell n).bind fun c ↦ tracks_pure c.value
  | foreign path name =>
    rw [evalStep]
    split <;> exact tracks_fail _
  | signed minus t =>
    rw [Term.names] at h
    exact (heval h).bind fun v ↦ tracks_ofExcept (applySign_relocate minus v)
  | negated t =>
    rw [Term.names] at h
    exact (heval h).bind fun v ↦ tracks_ofExcept (negate_relocate v)
  | binary op left right =>
    rw [Term.names] at h
    exact tracks_evalBinary heval op h
  | call name strict arguments =>
    rw [Term.names] at h
    exact tracks_evalCall heval name strict h
  | foreignCall path name arguments =>
    rw [Term.names] at h
    exact (tracks_evalArguments heval false h).bind fun _ ↦ tracks_fail _
  | chain base links =>
    rw [Term.names] at h
    exact tracks_evalChain heval h
  | closure parameters captured body =>
    rw [Term.names] at h
    refine (tracks_mapM fun name hname ↦ tracks_share (h hname)).bind fun places ↦ ?_
    have hfunction : Tracks hidden k (Value.relocate (skip k)) _ _ :=
      tracks_pure (.function (.closure (captured ++ parameters) body) (places.map .cell))
    rw [Value.relocate, Argument.relocateAll_eq, List.map_map] at hfunction
    rw [List.map_map]
    exact hfunction
  | declare constant name value =>
    rw [Term.names] at h
    refine (heval h).bind fun v ↦ ?_
    exact Tracks.bind (r := id) (tracks_newVariable name v constant) fun _ ↦ tracks_pure Value.unit
  | assign op target value =>
    rw [Term.names] at h
    exact tracks_evalAssign heval op h
  | block body =>
    rw [Term.names] at h
    exact (tracks_evalSequence heval h).enclosed
  | conditional guard yes no =>
    rw [Term.names, List.disjoint_append_left, List.disjoint_append_left] at h
    refine (tracks_evalGuard heval h.1.1).bind fun b ↦ ?_
    cases b with
    | true => exact heval h.1.2
    | false => exact heval h.2
  | selection subject cases otherwise =>
    rw [Term.names, List.disjoint_append_left, List.disjoint_append_left] at h
    exact (heval h.1.1).bind fun v ↦ tracks_evalCases heval v h.2 h.1.2
  | whileLoop guard body =>
    rw [Term.names, List.disjoint_append_left] at h
    refine tracks_iterate ((tracks_evalGuard heval h.1).bind fun b ↦ ?_) rounds
    cases b with
    | true => exact tracks_evalRound heval h.2
    | false => exact tracks_pure (some Value.unit)
  | doLoop body guard goesOn =>
    rw [Term.names, List.disjoint_append_left] at h
    refine tracks_iterate ((tracks_evalRound heval h.1).bind fun v? ↦ ?_) rounds
    cases v? with
    | some v => exact tracks_pure (some v)
    | none =>
      refine (tracks_evalGuard heval h.2).bind fun b ↦ ?_
      dsimp only [id]
      split
      · exact tracks_pure none
      · exact tracks_pure (some Value.unit)
  | forLoop names items body =>
    rw [Term.names, List.disjoint_append_left] at h
    exact (heval h.1).bind fun _ ↦ tracks_fail _
  | leave value =>
    rw [Term.names] at h
    exact (heval h).bind fun v ↦ tracks_throw (.leave v)
  | next => exact tracks_throw .next
  | result value =>
    rw [Term.names] at h
    exact (heval h).bind fun v ↦ tracks_throw (.result v)
  | raise value =>
    rw [Term.names] at h
    exact (heval h).bind fun v ↦ tracks_throw (.raised v)
  | attempt body name handler =>
    rw [Term.names, List.disjoint_append_left] at h
    exact tracks_evalAttempt heval name h.1 h.2
  | loadModule path =>
    rw [Term.names] at h
    exact (heval h).bind fun _ ↦ tracks_fail _
  | publish name =>
    rw [Term.names, List.singleton_disjoint] at h
    exact (tracks_place h).bind fun _ ↦ tracks_pure Value.unit

end Eval

/-- A term that does not use what is hidden has the same value in a wider state. -/
theorem tracks_eval (steps : ℕ) : Follows k (Term.eval steps) := by
  induction steps with
  | zero => exact fun _ _ _ ↦ tracks_throw .exhausted
  | succ steps ih => exact fun _ _ h ↦ tracks_evalStep ih steps h

end Term

/-! ## Formulas -/

/-- A variable that is bound last has the last cell and is found first. -/
theorem State.initial_append (b : Bindings) (word : String) (x : Float) :
    State.initial ⟨b.entries ++ [(word, x)]⟩ =
      { State.initial b with
        cells := (State.initial b).cells.push ⟨.float x, false, false⟩
        scope := (word, (State.initial b).cells.size) :: (State.initial b).scope } := by
  simp [State.initial, List.mapIdx_append, List.push_toArray, Nat.add_comm]

/-- Before the evaluation all cells hold floats. -/
theorem State.exists_float_of_mem_initial {b : Bindings} {c : Cell}
    (h : c ∈ (State.initial b).cells) : ∃ x, c.value = .float x := by
  rw [State.initial, List.mem_toArray, List.mem_map] at h
  obtain ⟨entry, -, rfl⟩ := h
  exact ⟨entry.1.2, rfl⟩

/-- Before the evaluation each name stands for a cell that is there. -/
theorem State.lt_size_of_lookup_initial {b : Bindings} {name : String} {n : ℕ}
    (h : (State.initial b).scope.lookup name = some n) : n < (State.initial b).cells.size := by
  obtain ⟨front, back, hscope, -⟩ := List.lookup_eq_some_iff.mp h
  have hmem : (name, n) ∈ (State.initial b).scope := by
    rw [hscope]
    exact List.mem_append_right _ List.mem_cons_self
  rw [State.initial, List.mem_reverse, List.mem_mapIdx] at hmem
  obtain ⟨i, hi, heq⟩ := hmem
  obtain ⟨-, rfl⟩ := Prod.mk.inj heq
  rw [State.initial, List.size_toArray, List.length_map]
  exact hi

/-- A variable that is bound last makes the state wider. -/
theorem State.widens_initial (b : Bindings) (word : String) (x : Float) :
    State.Widens (some word) (State.initial b).cells.size (.initial b)
      (.initial ⟨b.entries ++ [(word, x)]⟩) := by
  rw [State.initial_append]
  refine ⟨Nat.le_refl _, Array.size_push .., fun i ↦ ?_, fun name hname ↦ ?_, ?_, rfl, rfl⟩
  · by_cases hi : i < (State.initial b).cells.size
    · obtain ⟨x, hx⟩ := State.exists_float_of_mem_initial (Array.getElem_mem hi)
      have hcell : ∀ c : Cell, c.value = .float x →
          c.relocate (skip (State.initial b).cells.size) = c := by
        rintro ⟨_, _, _⟩ rfl
        rfl
      rw [skip, if_pos hi, Array.getElem?_push_lt hi, Array.getElem?_eq_getElem hi, Option.map_some,
        hcell _ hx]
    · rw [skip, if_neg hi, Array.getElem?_eq_none, Array.getElem?_eq_none]
      · rfl
      · exact Nat.le_of_not_lt hi
      · rw [Array.size_push]
        exact Nat.succ_le_succ (Nat.le_of_not_lt hi)
  · have hne : (name == word) = false :=
      beq_eq_false_iff_ne.mpr fun h ↦ hname (h ▸ List.mem_cons_self)
    dsimp only
    rw [List.lookup_cons, hne]
    cases h : (State.initial b).scope.lookup name with
    | none => rfl
    | some n =>
      rw [Option.map_some, skip, if_pos (State.lt_size_of_lookup_initial h)]
  · change false = (State.initial b).scope.isEmpty
    simp [State.initial, constantNames, constant?]

/-- A binding more makes no difference to a formula in which its name is not used. -/
theorem evaluate_append {b : Bindings} {word : String} (x : Float) {source : String}
    (h : ∀ t, Term.ofFormula? (evaluationText source) = some t →
      t.names.Disjoint (concealed (some word))) :
    evaluate ⟨b.entries ++ [(word, x)]⟩ source = evaluate b source := by
  rw [evaluate, evaluate]
  cases ht : Term.ofFormula? (evaluationText source) with
  | none => rfl
  | some t =>
    dsimp only
    rcases Term.tracks_eval stepLimit (h t ht) (State.widens_initial b word x) with
      ⟨v, s, s', hv, hv', -⟩ | ⟨i, s, s', hi, hi', -⟩
    · rw [hv, hv']
      exact v.toFinite_relocate
    · rw [hi, hi']
      exact congrArg Except.error i.toFault_relocate

end FormulaQuiz.Formula
