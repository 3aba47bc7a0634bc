import FormulaQuiz.Formula.Call
import FormulaQuiz.Proofs.Outcomes
import Mathlib.Data.List.Basic

/-!
# Values whose cells are moved

A function keeps variables by the places of their cells, and it may stand in a list, a record or
among the arguments of another function.  When cells are moved to other places, values move along.
What operators, functions and links compute does not depend on where the cells are.
-/

namespace FormulaQuiz.Formula

/-! ## Moving -/

mutual

/-- A value after each cell is moved from its place to another. -/
def Value.relocate (f : ℕ → ℕ) : Value → Value
  | .list items => .list (Value.relocateAll f items)
  | .record entries => .record (Value.relocateEntries f entries)
  | .function g given => .function g (Argument.relocateAll f given)
  | v => v
termination_by structural v => v

/-- Values after each cell is moved. -/
def Value.relocateAll (f : ℕ → ℕ) : List Value → List Value
  | [] => []
  | v :: vs => v.relocate f :: Value.relocateAll f vs
termination_by structural vs => vs

/-- Entries of a record after each cell is moved. -/
def Value.relocateEntries (f : ℕ → ℕ) : List (String × Value) → List (String × Value)
  | [] => []
  | entry :: entries => Value.relocateEntry f entry :: Value.relocateEntries f entries
termination_by structural entries => entries

/-- An entry of a record after each cell is moved. -/
def Value.relocateEntry (f : ℕ → ℕ) : String × Value → String × Value
  | (name, v) => (name, v.relocate f)
termination_by structural entry => entry

/-- An argument after each cell is moved. -/
def Argument.relocate (f : ℕ → ℕ) : Argument → Argument
  | .value v => .value (v.relocate f)
  | .cell place => .cell (f place)
termination_by structural a => a

/-- Arguments after each cell is moved. -/
def Argument.relocateAll (f : ℕ → ℕ) : List Argument → List Argument
  | [] => []
  | a :: as => a.relocate f :: Argument.relocateAll f as
termination_by structural as => as

end

variable {f : ℕ → ℕ}

@[simp] theorem Value.relocateAll_eq (vs : List Value) :
    Value.relocateAll f vs = vs.map (Value.relocate f) := by
  induction vs with
  | nil => rfl
  | cons v vs ih => rw [Value.relocateAll, ih, List.map_cons]

theorem Value.relocateEntry_eq (entry : String × Value) :
    Value.relocateEntry f entry = entry.map id (Value.relocate f) := by
  obtain ⟨name, v⟩ := entry
  rfl

@[simp] theorem Value.relocateEntries_eq (entries : List (String × Value)) :
    Value.relocateEntries f entries = entries.map (Prod.map id (Value.relocate f)) := by
  induction entries with
  | nil => rfl
  | cons entry entries ih => rw [Value.relocateEntries, ih, List.map_cons, Value.relocateEntry_eq]

@[simp] theorem Argument.relocateAll_eq (as : List Argument) :
    Argument.relocateAll f as = as.map (Argument.relocate f) := by
  induction as with
  | nil => rfl
  | cons a as ih => rw [Argument.relocateAll, ih, List.map_cons]

/-- The content of a cell after each cell is moved. -/
def Cell.relocate (f : ℕ → ℕ) (c : Cell) : Cell := { c with value := c.value.relocate f }

/-- An interruption after each cell is moved. -/
def Interrupt.relocate (f : ℕ → ℕ) : Interrupt → Interrupt
  | .raised v => .raised (v.relocate f)
  | .leave v => .leave (v.relocate f)
  | .result v => .result (v.relocate f)
  | i => i

/-- A link after each cell is moved. -/
def LinkValue.relocate (f : ℕ → ℕ) : LinkValue → LinkValue
  | .method name arguments => .method name (arguments.map (Value.relocate f))
  | .property name => .property name
  | .index optional v => .index optional (v.relocate f)

/-- The base of a link after each cell is moved. -/
def Base.relocate (f : ℕ → ℕ) (base : Base) : Base := { base with locked := base.locked.map f }

/-! ## What is asked of a value -/

namespace Value

@[simp] theorem typeName_relocate (v : Value) : (v.relocate f).typeName = v.typeName := by
  cases v <;> rfl

@[simp] theorem signatureName_relocate (v : Value) :
    (v.relocate f).signatureName = v.signatureName := by
  cases v <;> rfl

@[simp] theorem signature_relocate (name : String) (vs : List Value) :
    signature name (vs.map (relocate f)) = signature name vs := by
  rw [signature, signature, List.map_map]
  simp only [Function.comp_def, signatureName_relocate]

theorem unsupported_relocate (name : String) (vs : List Value) :
    unsupported name (vs.map (relocate f)) = (unsupported name vs).map (relocate f) := by
  rw [unsupported, signature_relocate]
  rfl

@[simp] theorem toFloat?_relocate (v : Value) : (v.relocate f).toFloat? = v.toFloat? := by
  cases v <;> rfl

@[simp] theorem toFinite_relocate (v : Value) : (v.relocate f).toFinite = v.toFinite := by
  rw [toFinite, toFinite, toFloat?_relocate, typeName_relocate]

@[simp] theorem asTruth_relocate (v : Value) : (v.relocate f).asTruth = v.asTruth := by
  cases v <;> rfl

@[simp] theorem asText_relocate (v : Value) : (v.relocate f).asText = v.asText := by
  cases v <;> rfl

@[simp] theorem asInteger_relocate (v : Value) : (v.relocate f).asInteger = v.asInteger := by
  cases v <;> rfl

mutual

/-- Where its cells are makes no difference to what is compared in a value. -/
theorem isSame_relocate (v w : Value) : (v.relocate f).isSame (w.relocate f) = v.isSame w := by
  cases v with
  | list vs =>
    cases w with
    | list ws => rw [relocate, relocate, isSame, isSame, areSame_relocate vs ws]
    | _ => simp only [relocate, isSame]
  | record vs =>
    cases w with
    | record ws => rw [relocate, relocate, isSame, isSame, haveSameEntries_relocate vs ws]
    | _ => simp only [relocate, isSame]
  | _ => cases w <;> simp only [relocate, isSame]

theorem areSame_relocate : ∀ vs ws : List Value,
    areSame (relocateAll f vs) (relocateAll f ws) = areSame vs ws
  | [], [] => rfl
  | [], _ :: _ | _ :: _, [] => by simp only [relocateAll, areSame]
  | v :: vs, w :: ws => by
    rw [relocateAll, relocateAll, areSame, areSame, isSame_relocate v w, areSame_relocate vs ws]

theorem haveSameEntries_relocate : ∀ vs ws : List (String × Value),
    haveSameEntries (relocateEntries f vs) (relocateEntries f ws) = haveSameEntries vs ws
  | [], [] => rfl
  | [], _ :: _ | _ :: _, [] => by simp only [relocateEntries, haveSameEntries]
  | v :: vs, w :: ws => by
    rw [relocateEntries, relocateEntries, haveSameEntries, haveSameEntries, isSameEntry_relocate v w,
      haveSameEntries_relocate vs ws]

theorem isSameEntry_relocate : ∀ v w : String × Value,
    isSameEntry (relocateEntry f v) (relocateEntry f w) = isSameEntry v w
  | (k, v), (l, w) => by
    rw [relocateEntry, relocateEntry, isSameEntry, isSameEntry, isSame_relocate v w]

end

mutual

/-- The text of a value does not tell where its cells are. -/
theorem nestedChars_relocate : ∀ v : Value, (v.relocate f).nestedChars = v.nestedChars
  | .list items => by rw [relocate, nestedChars, nestedChars, itemChars_relocate items]
  | .record entries => by rw [relocate, nestedChars, nestedChars, entriesChars_relocate entries]
  | .function _ _ => by rw [relocate, nestedChars, nestedChars]
  | .unit | .float _ | .integer _ | .truth _ | .text _ | .character _ => by rw [relocate] <;> nofun

theorem itemChars_relocate : ∀ vs : List Value, itemChars (relocateAll f vs) = itemChars vs
  | [] => rfl
  | [v] => by
    rw [relocateAll, relocateAll, itemChars, itemChars, nestedChars_relocate v]
  | v :: w :: vs => by
    have ih := itemChars_relocate (w :: vs)
    rw [relocateAll] at ih
    rw [relocateAll, relocateAll, itemChars.eq_def, itemChars.eq_def (v :: w :: vs)]
    dsimp only
    rw [nestedChars_relocate v, ih]

theorem entriesChars_relocate : ∀ entries : List (String × Value),
    entriesChars (relocateEntries f entries) = entriesChars entries
  | [] => rfl
  | [entry] => by
    rw [relocateEntries, relocateEntries, entriesChars, entriesChars, entryChars_relocate entry]
  | entry :: other :: entries => by
    have ih := entriesChars_relocate (other :: entries)
    rw [relocateEntries] at ih
    rw [relocateEntries, relocateEntries, entriesChars.eq_def,
      entriesChars.eq_def (entry :: other :: entries)]
    dsimp only
    rw [entryChars_relocate entry, ih]

theorem entryChars_relocate : ∀ entry : String × Value,
    entryChars (relocateEntry f entry) = entryChars entry
  | (name, v) => by rw [relocateEntry, entryChars, entryChars, nestedChars_relocate v]

end

@[simp] theorem display_relocate (v : Value) : (v.relocate f).display = v.display := by
  have h := nestedChars_relocate (f := f) v
  cases v <;> first | rfl | exact congrArg String.ofList h

/-! ## Entries of records -/

theorem lookup_relocate (name : String) (entries : List (String × Value)) :
    (entries.map (Prod.map id (relocate f))).lookup name = (entries.lookup name).map (relocate f) := by
  induction entries with
  | nil => rfl
  | cons entry entries ih =>
    rw [List.map_cons, List.lookup_cons, List.lookup_cons, ih]
    cases h : name == entry.1 <;> simp [h]

theorem putEntry_relocate (name : String) (v : Value) (entries : List (String × Value)) :
    putEntry name (v.relocate f) (entries.map (Prod.map id (relocate f))) =
      (putEntry name v entries).map (Prod.map id (relocate f)) := by
  induction entries with
  | nil => rfl
  | cons entry entries ih =>
    obtain ⟨k, w⟩ := entry
    rw [List.map_cons, Prod.map_apply, putEntry, putEntry, ih, id_eq]
    split
    · rfl
    · split <;> rfl

theorem ofEntries_relocate (entries : List (String × Value)) :
    ofEntries (entries.map (Prod.map id (relocate f))) = (ofEntries entries).relocate f := by
  have h : ∀ sorted : List (String × Value),
      (entries.map (Prod.map id (relocate f))).foldl (fun sorted (name, v) ↦ putEntry name v sorted)
          (sorted.map (Prod.map id (relocate f))) =
        (entries.foldl (fun sorted (name, v) ↦ putEntry name v sorted) sorted).map
          (Prod.map id (relocate f)) := by
    induction entries with
    | nil => exact fun _ ↦ rfl
    | cons entry entries ih =>
      intro sorted
      rw [List.map_cons, List.foldl_cons, List.foldl_cons, ← ih, ← putEntry_relocate]
      rfl
  rw [ofEntries, ofEntries, relocate, relocateEntries_eq, ← h []]
  rfl

end Value

/-! ## Operators and functions -/

theorem Value.IsFlat.relocate {v : Value} (h : v.IsFlat) : v.relocate f = v := by
  cases v with
  | list | record | function => exact absurd h id
  | _ => rfl

/-- What has no parts stays as it is when cells are moved. -/
theorem Yields.map_relocate {e : Except Fault Value} (h : Yields Value.IsFlat e) :
    e = e.map (Value.relocate f) := by
  cases e with
  | ok v => exact congrArg Except.ok h.relocate.symm
  | error fault => rfl

theorem applySign_relocate (minus : Bool) (v : Value) :
    applySign minus (v.relocate f) = (applySign minus v).map (Value.relocate f) := by
  refine Eq.trans ?_ (yields_applySign minus v).map_relocate
  cases v <;> rfl

theorem negate_relocate (v : Value) :
    negate (v.relocate f) = (negate v).map (Value.relocate f) := by
  refine Eq.trans ?_ (yields_negate v).map_relocate
  cases v <;> rfl

/-- An operator gives the same on values whose cells are moved. -/
theorem applyOperator_relocate (op : Operator) (v w : Value) :
    applyOperator op (v.relocate f) (w.relocate f) =
      (applyOperator op v w).map (Value.relocate f) := by
  refine Eq.trans ?_ (yields_applyOperator op v w).map_relocate
  cases v <;> cases w <;> rfl

section Functions

variable (name : String)

theorem otherFunction?_relocate (v : Value) :
    otherFunction? name (v.relocate f) = otherFunction? name v := by
  cases v with
  | list | record | function =>
    simp only [Value.relocate]
    unfold otherFunction?
    split <;> simp_all [Value.typeName]
  | _ => rfl

theorem applyOne_relocate (v : Value) : applyOne name (v.relocate f) = applyOne name v := by
  rw [applyOne.eq_def, applyOne.eq_def, otherFunction?_relocate]
  cases otherFunction? name v with
  | some r => rfl
  | none =>
    dsimp only
    cases floatFunction? name <;> cases v <;> rfl

/-- A named function gives the same on values whose cells are moved. -/
theorem applyFunction_relocate (vs : List Value) :
    applyFunction name (vs.map (Value.relocate f)) =
      (applyFunction name vs).map (Value.relocate f) := by
  refine Eq.trans ?_ (yields_applyFunction name vs).map_relocate
  have hother : (Value.unsupported name (vs.map (Value.relocate f)) : Except Fault Value) =
      Value.unsupported name vs := by
    rw [Value.unsupported, Value.unsupported, Value.signature_relocate]
  rcases vs with _ | ⟨v, _ | ⟨w, _ | ⟨u, vs⟩⟩⟩
  · exact hother
  · exact applyOne_relocate name v
  · cases v <;> cases w <;> rfl
  · cases v <;> cases w <;> exact hother

end Functions

/-! ## Parts of values -/

section Parts

theorem getProperty_relocate (name : String) (v : Value) :
    getProperty name (v.relocate f) = (getProperty name v).map (Value.relocate f) := by
  have hother : ((otherFunction? name (v.relocate f)).getD (.error .failed) : Except Fault Value) =
      ((otherFunction? name v).getD (.error .failed)).map (Value.relocate f) := by
    rw [otherFunction?_relocate]
    cases h : otherFunction? name v with
    | some r => exact (yields_otherFunction? h).map_relocate
    | none => rfl
  cases v with
  | record entries =>
    simp only [Value.relocate, Value.relocateEntries_eq, getProperty, Value.lookup_relocate]
    cases entries.lookup name <;> rfl
  | _ =>
    simp only [Value.relocate, getProperty] at hother ⊢
    split
    · exact hother
    · rfl

theorem putProperty_relocate (name : String) (part v : Value) :
    putProperty name (part.relocate f) (v.relocate f) =
      (putProperty name part v).map (Value.relocate f) := by
  cases v with
  | record entries =>
    simp only [Value.relocate, Value.relocateEntries_eq, putProperty, Value.putEntry_relocate,
      Except.map]
  | _ => rfl

/-- The results that come of a value, or of none, when its cells are moved. -/
theorem elim_relocate {v? w? : Option Value} (h : w? = v?.map (Value.relocate f)) :
    (w?.elim (.error .failed) .ok : Except Fault Value) =
      (v?.elim (.error .failed) .ok : Except Fault Value).map (Value.relocate f) := by
  rw [h]
  cases v? <;> rfl

theorem getIndex_relocate (i v : Value) :
    getIndex (i.relocate f) (v.relocate f) = (getIndex i v).map (Value.relocate f) := by
  refine elim_relocate ?_
  cases v with
  | list items =>
    cases i with
    | integer n =>
      simp only [Value.relocate, Value.relocateAll_eq, List.length_map]
      cases placeAt? items.length n <;> simp
    | _ => rfl
  | record entries =>
    cases i with
    | text name =>
      simp only [Value.relocate, Value.relocateEntries_eq, Value.lookup_relocate]
      cases entries.lookup name <;> rfl
    | _ => rfl
  | text content =>
    cases i with
    | integer n =>
      simp only [Value.relocate, Option.map_map]
      rfl
    | _ => rfl
  | integer m =>
    cases i with
    | integer n =>
      simp only [Value.relocate, Option.map_map]
      rfl
    | _ => rfl
  | _ => cases i <;> rfl

theorem putIndex_relocate (i part v : Value) :
    putIndex (i.relocate f) (part.relocate f) (v.relocate f) =
      (putIndex i part v).map (Value.relocate f) := by
  refine elim_relocate ?_
  cases v with
  | list items =>
    cases i with
    | integer n =>
      simp only [Value.relocate, Value.relocateAll_eq, List.length_map]
      cases placeAt? items.length n <;> simp [Value.relocate, List.map_set]
    | _ => rfl
  | record entries =>
    cases i with
    | text name =>
      simp only [Value.relocate, Value.relocateEntries_eq, Value.putEntry_relocate, Option.map_some]
    | _ => rfl
  | text content =>
    cases i with
    | integer n =>
      cases part with
      | character c =>
        simp only [Value.relocate, Option.map_map]
        rfl
      | _ => rfl
    | _ => rfl
  | integer m =>
    cases i with
    | integer n =>
      cases part with
      | truth b =>
        simp only [Value.relocate, Option.map_map]
        rfl
      | _ => rfl
    | _ => rfl
  | _ => cases i <;> rfl

namespace LinkValue

theorem get_relocate (v : Value) (link : LinkValue) :
    (link.relocate f).get (v.relocate f) = (link.get v).map (Value.relocate f) := by
  cases link with
  | method name arguments => rfl
  | property name => exact getProperty_relocate name v
  | index optional i => exact getIndex_relocate i v

theorem put_relocate (part v : Value) (link : LinkValue) :
    (link.relocate f).put (part.relocate f) (v.relocate f) =
      (link.put part v).map (Value.relocate f) := by
  cases link with
  | method name arguments => rfl
  | property name => exact putProperty_relocate name part v
  | index optional i => exact putIndex_relocate i part v

theorem update_relocate (part v : Value) (link : LinkValue) :
    (link.relocate f).update (part.relocate f) (v.relocate f) =
      (link.update part v).relocate f := by
  have hentry : ∀ name (entries : List (String × Value)),
      (if ((Value.relocateEntries f entries).lookup name).isSome then
        Value.record (Value.putEntry name (part.relocate f) (Value.relocateEntries f entries))
      else .record (Value.relocateEntries f entries)) =
        (if (entries.lookup name).isSome then Value.record (Value.putEntry name part entries)
        else .record entries).relocate f := by
    intro name entries
    rw [Value.relocateEntries_eq, Value.lookup_relocate, Option.isSome_map,
      Value.putEntry_relocate]
    split <;> rw [Value.relocate, Value.relocateEntries_eq]
  have hproperty : ∀ name, (LinkValue.property name).update (part.relocate f) (v.relocate f) =
      ((LinkValue.property name).update part v).relocate f := by
    intro name
    cases v with
    | record entries => exact hentry name entries
    | _ => rfl
  cases link with
  | method name arguments => rfl
  | property name => exact hproperty name
  | index optional i =>
    cases i with
    | text name => exact hproperty name
    | integer n =>
      cases v with
      | list items =>
        simp only [relocate, Value.relocate, Value.relocateAll_eq, update, List.length_map]
        cases placeAt? items.length n with
        | none => exact congrArg Value.list (Value.relocateAll_eq items).symm
        | some place =>
          simp only [Value.relocate, Value.relocateAll_eq, List.map_set]
      | _ => rfl
    | _ => rfl

theorem isOver_relocate (v : Value) (link : LinkValue) :
    (link.relocate f).isOver (v.relocate f) = link.isOver v := by
  cases link with
  | index optional i => cases optional <;> cases v <;> rfl
  | _ => rfl

end LinkValue

end Parts

/-! ## Bases and interruptions -/

theorem Base.admits_relocate (hf : f.Injective) (base : Base) (given : List Argument) :
    (base.relocate f).admits (given.map (Argument.relocate f)) = base.admits given := by
  rw [Base.admits, Base.admits, List.all_map]
  refine congrArg (given.all ·) (funext fun a ↦ ?_)
  cases a with
  | value v => rfl
  | cell place =>
    have hplace : base.locked.map f = some (f place) ↔ base.locked = some place :=
      (Option.map_injective hf).eq_iff (b := some place)
    change (base.locked.map f != some (f place)) = (base.locked != some place)
    rw [Bool.eq_iff_iff, bne_iff_ne, bne_iff_ne]
    exact not_congr hplace

theorem Interrupt.toFault_relocate (i : Interrupt) : (i.relocate f).toFault = i.toFault := by
  cases i with
  | raised v => exact congrArg Fault.raised v.display_relocate
  | _ => rfl

theorem Interrupt.handled?_relocate (i : Interrupt) :
    (i.relocate f).handled? = i.handled?.map (Value.relocate f) := by
  cases i with
  | fault g handled =>
    cases handled with
    | true =>
      simp only [relocate, handled?]
      split <;> rfl
    | false => rfl
  | _ => rfl

end FormulaQuiz.Formula
