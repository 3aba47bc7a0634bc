import FormulaQuiz.Proofs.Agreement
import FormulaQuiz.Proofs.Relocation
import FormulaQuiz.Proofs.Usage

/-!
# Evaluation beside one more variable

A variable more is a cell more, and the cells behind it are one place further on.  A term that does
not use the variable is evaluated to the same value, with its cells moved, and what it changes is
the same.  Two functions look at a scope by a text that is only known then, so a term may use
neither; inside of functions, where the variable is out of sight, anything may be used.
-/

namespace FormulaQuiz.Formula

/-- The place of a cell when there is one more cell at the place `k`. -/
def skip (k place : ℕ) : ℕ := if place < k then place else place + 1

theorem skip_injective (k : ℕ) : (skip k).Injective := by
  intro i j h
  unfold skip at h
  split at h <;> split at h <;> omega

/-- What a term must not use where a variable is more than it knows of. -/
def concealed : Option String → List String
  | none => []
  | some word => [word, "eval", "is_def_var"]

/-- A state is another with one more cell at the place `k`, for which a hidden variable may stand. -/
structure State.Widens (hidden : Option String) (k : ℕ) (s t : State) : Prop where
  le : k ≤ s.cells.size
  size : t.cells.size = s.cells.size + 1
  cells : ∀ i : ℕ, t.cells[skip k i]? = s.cells[i]?.map (Cell.relocate (skip k))
  scope : ∀ name ∉ concealed hidden, t.scope.lookup name = (s.scope.lookup name).map (skip k)
  isEmpty : t.scope.isEmpty = s.scope.isEmpty
  self : t.self = s.self.map (skip k)
  depth : t.depth = s.depth

namespace State.Widens

variable {hidden : Option String} {k : ℕ} {s t : State}

/-- A change of a cell, alike in a state and in a wider one. -/
theorem modify (h : s.Widens hidden k t) (n : ℕ) (g g' : Cell → Cell)
    (hg : ∀ c, g' (c.relocate (skip k)) = (g c).relocate (skip k)) :
    State.Widens hidden k { s with cells := s.cells.modify n g }
      { t with cells := t.cells.modify (skip k n) g' } := by
  refine { h with le := ?_, size := ?_, cells := fun i ↦ ?_ }
  · rw [Array.size_modify]
    exact h.le
  · rw [Array.size_modify, Array.size_modify]
    exact h.size
  · rw [Array.getElem?_modify, Array.getElem?_modify, h.cells]
    simp only [(skip_injective k).eq_iff]
    split
    · cases s.cells[i]? with
      | some c => exact congrArg some (hg c)
      | none => rfl
    · rfl

/-- Where nothing is hidden, less is hidden than anywhere. -/
theorem of_none (h : s.Widens none k t) : s.Widens hidden k t :=
  { h with scope := fun name _ ↦ h.scope name List.not_mem_nil }

/-- What is done to the cells in another scope is done to them where this scope is kept. -/
theorem leaving {inner : Option String} {s' t' : State} (h : s.Widens hidden k t)
    (h' : s'.Widens inner k t') :
    State.Widens hidden k { s with cells := s'.cells } { t with cells := t'.cells } :=
  { h with le := h'.le, size := h'.size, cells := h'.cells }

end State.Widens

namespace Machine

variable {α β : Type} {hidden : Option String} {k : ℕ} {r : α → α} {q : β → β} {m m' : Machine α}

/-- Two actions, run in a state and in a wider one, end alike and leave such states: with results
that `r` takes to one another, or with the same interruption. -/
def Tracks (hidden : Option String) (k : ℕ) (r : α → α) (m m' : Machine α) : Prop :=
  ∀ ⦃s t : State⦄, s.Widens hidden k t →
    (∃ a s' t', m s = .ok a s' ∧ m' t = .ok (r a) t' ∧ s'.Widens hidden k t') ∨
      ∃ i s' t', m s = .error i s' ∧ m' t = .error (i.relocate (skip k)) t' ∧ s'.Widens hidden k t'

/-! ## Actions -/

theorem tracks_pure (a : α) : Tracks hidden k r (pure a) (pure (r a)) :=
  fun s t h ↦ .inl ⟨a, s, t, rfl, rfl, h⟩

theorem tracks_throw (i : Interrupt) :
    Tracks hidden k r (throw i) (throw (i.relocate (skip k))) :=
  fun s t h ↦ .inr ⟨i, s, t, rfl, rfl, h⟩

theorem tracks_fail (g : Fault) : Tracks hidden k r (fail g) (fail g) := tracks_throw (.fault g true)

theorem tracks_ofExcept {e e' : Except Fault α} (h : e' = e.map r) :
    Tracks hidden k r (ofExcept e) (ofExcept e') := by
  subst h
  cases e with
  | ok a => exact tracks_pure a
  | error g => exact tracks_fail g

theorem Tracks.bind (h : Tracks hidden k r m m') {f f' : α → Machine β}
    (hf : ∀ a, Tracks hidden k q (f a) (f' (r a))) : Tracks hidden k q (m >>= f) (m' >>= f') := by
  intro s t hst
  rcases h hst with ⟨a, s', t', hm, hm', hst'⟩ | ⟨i, s', t', hm, hm', hst'⟩
  · rw [bind_of_ok hm, bind_of_ok hm']
    exact hf a hst'
  · exact .inr ⟨i, s', t', bind_of_error hm, bind_of_error hm', hst'⟩

/-- What is looked up in the states. -/
theorem tracks_get {f f' : State → Machine β}
    (h : ∀ s t, s.Widens hidden k t → Tracks hidden k q (f s) (f' t)) :
    Tracks hidden k q (get >>= f) (get >>= f') := fun s t hst ↦ h s t hst hst

theorem tracks_set {s t : State} (h : s.Widens hidden k t) :
    Tracks hidden k id (set s : Machine PUnit) (set t) := fun _ _ _ ↦ .inl ⟨_, s, t, rfl, rfl, h⟩

theorem tracks_modify {f f' : State → State}
    (h : ∀ s t, s.Widens hidden k t → (f s).Widens hidden k (f' t)) :
    Tracks hidden k id (modify f : Machine PUnit) (modify f') :=
  fun s t hst ↦ .inl ⟨_, f s, f' t, rfl, rfl, h s t hst⟩

theorem Tracks.tryCatch (h : Tracks hidden k r m m') {f f' : Interrupt → Machine α}
    (hf : ∀ i, Tracks hidden k r (f i) (f' (i.relocate (skip k)))) :
    Tracks hidden k r (tryCatch m f) (tryCatch m' f') := by
  intro s t hst
  change (∃ a s' t', EStateM.tryCatch m f s = _ ∧ EStateM.tryCatch m' f' t = _ ∧ _) ∨
    ∃ i s' t', EStateM.tryCatch m f s = _ ∧ EStateM.tryCatch m' f' t = _ ∧ _
  rw [EStateM.tryCatch, EStateM.tryCatch]
  rcases h hst with ⟨a, s', t', hm, hm', hst'⟩ | ⟨i, s', t', hm, hm', hst'⟩
  · rw [hm, hm']
    exact .inl ⟨a, s', t', rfl, rfl, hst'⟩
  · rw [hm, hm']
    exact hf i hst'

theorem tracks_mapM {γ : Type} {f f' : γ → Machine β} {cs : List γ}
    (h : ∀ c ∈ cs, Tracks hidden k q (f c) (f' c)) :
    Tracks hidden k (List.map q) (cs.mapM f) (cs.mapM f') := by
  induction cs with
  | nil => exact tracks_pure []
  | cons c cs ih =>
    obtain ⟨hc, hcs⟩ := List.forall_mem_cons.mp h
    rw [List.mapM_cons, List.mapM_cons]
    exact hc.bind fun b ↦ (ih hcs).bind fun bs ↦ tracks_pure (b :: bs)

theorem tracks_iterate {round round' : Machine (Option α)}
    (h : Tracks hidden k (Option.map r) round round') (rounds : ℕ) :
    Tracks hidden k r (iterate round rounds) (iterate round' rounds) := by
  induction rounds with
  | zero => exact tracks_throw .exhausted
  | succ rounds ih =>
    refine h.bind fun a? ↦ ?_
    cases a? with
    | some a => exact tracks_pure a
    | none => exact ih

/-! ## Cells and scopes -/

theorem tracks_newCell (v : Value) (constant : Bool) :
    Tracks hidden k (skip k) (newCell v constant) (newCell (v.relocate (skip k)) constant) := by
  intro s t h
  have hplace : t.cells.size = skip k s.cells.size := by
    rw [h.size, skip, if_neg (Nat.not_lt.mpr h.le)]
  have hpush : State.Widens hidden k { s with cells := s.cells.push ⟨v, constant, false⟩ }
      { t with cells := t.cells.push ⟨v.relocate (skip k), constant, false⟩ } := by
    refine { h with le := ?_, size := ?_, cells := fun i ↦ ?_ }
    · rw [Array.size_push]
      exact Nat.le_succ_of_le h.le
    · rw [Array.size_push, Array.size_push, h.size]
    · rw [Array.getElem?_push, Array.getElem?_push, h.cells, hplace]
      simp only [(skip_injective k).eq_iff]
      split <;> rfl
  refine .inl ⟨s.cells.size, _, _, rfl, ?_, hpush⟩
  rw [← hplace]
  rfl

theorem tracks_place {name : String} (h : name ∉ concealed hidden) :
    Tracks hidden k (skip k) (place name) (place name) := by
  refine tracks_get fun s t hst ↦ ?_
  rw [hst.scope name h]
  cases s.scope.lookup name with
  | some n => exact tracks_pure n
  | none => exact tracks_fail _

theorem tracks_ownPlace : Tracks hidden k (skip k) ownPlace ownPlace := by
  refine tracks_get fun s t hst ↦ ?_
  rw [hst.self]
  cases s.self with
  | some n => exact tracks_pure n
  | none => exact tracks_fail _

theorem tracks_cell (n : ℕ) :
    Tracks hidden k (Cell.relocate (skip k)) (cell n) (cell (skip k n)) := by
  refine tracks_get fun s t hst ↦ ?_
  rw [hst.cells]
  cases s.cells[n]? with
  | some c => exact tracks_pure c
  | none => exact tracks_fail _

theorem tracks_store (n : ℕ) (v : Value) :
    Tracks hidden k id (store n v) (store (skip k n) (v.relocate (skip k))) :=
  tracks_modify fun _ _ hst ↦ hst.modify n _ _ fun _ ↦ rfl

theorem tracks_share {name : String} (h : name ∉ concealed hidden) :
    Tracks hidden k (skip k) (share name) (share name) := by
  refine (tracks_place h).bind fun n ↦ Tracks.bind (r := id) ?_ fun _ ↦ tracks_pure n
  exact tracks_modify fun _ _ hst ↦ hst.modify n _ _ fun _ ↦ rfl

theorem tracks_newVariable (name : String) (v : Value) (constant : Bool) :
    Tracks hidden k id (newVariable name v constant)
      (newVariable name (v.relocate (skip k)) constant) := by
  refine (tracks_newCell v constant).bind fun n ↦ tracks_modify fun s t h ↦ ?_
  refine { h with scope := fun other hother ↦ ?_, isEmpty := rfl }
  dsimp only
  rw [List.lookup_cons, List.lookup_cons]
  split
  · rfl
  · exact h.scope other hother

/-- What an action does to the scope is undone. -/
theorem Tracks.enclosed (h : Tracks hidden k r m m') :
    Tracks hidden k r (enclosed m) (enclosed m') := by
  intro s t hst
  rw [Machine.enclosed, Machine.enclosed]
  rcases h hst with ⟨a, s', t', hm, hm', hst'⟩ | ⟨i, s', t', hm, hm', hst'⟩
  · rw [hm, hm']
    exact .inl ⟨a, _, _, rfl, rfl, hst.leaving hst'⟩
  · rw [hm, hm']
    exact .inr ⟨i, _, _, rfl, rfl, hst.leaving hst'⟩

theorem Tracks.deeper (h : Tracks hidden k r m m') :
    Tracks hidden k r (deeper m) (deeper m') := by
  refine tracks_get fun s t hst ↦ ?_
  rw [hst.depth]
  split
  · refine Tracks.bind (r := id) (tracks_set ?_) fun _ ↦ h.bind fun a ↦ ?_
    · exact { hst with depth := rfl }
    · refine Tracks.bind (r := id) (tracks_modify fun s' t' hst' ↦ ?_) fun _ ↦ tracks_pure a
      exact { hst' with depth := rfl }
  · exact tracks_throw _

/-- An action in a scope without the variable goes on where nothing is hidden. -/
theorem tracks_modify_bind {f f' : State → State}
    (h : ∀ s t, s.Widens hidden k t → (f s).Widens none k (f' t)) (hm : Tracks none k r m m') :
    Tracks hidden k r (modify f >>= fun _ ↦ m) (modify f' >>= fun _ ↦ m') := by
  intro s t hst
  have hmodify : ∀ (f : State → State) s, (modify f : Machine PUnit) s = .ok ⟨⟩ (f s) :=
    fun _ _ ↦ rfl
  rw [bind_of_ok (hmodify f s), bind_of_ok (hmodify f' t)]
  rcases hm (h s t hst) with ⟨a, s', t', hm, hm', hst'⟩ | ⟨i, s', t', hm, hm', hst'⟩
  · exact .inl ⟨a, s', t', hm, hm', hst'.of_none⟩
  · exact .inr ⟨i, s', t', hm, hm', hst'.of_none⟩

end Machine

end FormulaQuiz.Formula
