import FormulaQuiz.Formula.Operation
import Mathlib.Tactic.SplitIfs

/-!
# What operators and functions give

Operators and the functions of a name give values without parts.  Where they give none, it is for
what their operands are: no fault of theirs says that a word stands for nothing.
-/

namespace FormulaQuiz.Formula

/-- Whether a fault is that a word stands for nothing. -/
def Fault.isLookup : Fault → Bool
  | undefined _ | unknown _ | early _ => true
  | _ => false

theorem Fault.isLookup_iff {fault : Fault} :
    fault.isLookup = true ↔ fault.code = "EXPR_UNDEFINED_SYMBOL" := by
  cases fault <;> simp [isLookup, code]

/-- A value that has no parts and is no function. -/
def Value.IsFlat : Value → Prop
  | .list _ | .record _ | .function _ _ => False
  | _ => True

/-- A result with a property, or a fault that is of no word. -/
def Yields {α : Type} (P : α → Prop) : Except Fault α → Prop
  | .ok a => P a
  | .error fault => fault.isLookup = false

theorem Yields.mono {α : Type} {P Q : α → Prop} {e : Except Fault α} (h : Yields P e)
    (hQ : ∀ a, P a → Q a) : Yields Q e := by
  cases e with
  | ok a => exact hQ a h
  | error fault => exact h

theorem yields_unsupported {α : Type} {P : α → Prop} (name : String) (vs : List Value) :
    Yields P (Value.unsupported name vs) := rfl

theorem yields_asTruth (v : Value) : Yields (fun _ ↦ True) v.asTruth := by
  cases v <;> first | rfl | trivial

theorem yields_asText (v : Value) : Yields (fun _ ↦ True) v.asText := by
  cases v <;> first | rfl | trivial

theorem yields_asInteger (v : Value) : Yields (fun _ ↦ True) v.asInteger := by
  cases v <;> first | rfl | trivial

theorem yields_toFinite (v : Value) : Yields (fun _ ↦ True) v.toFinite := by
  rw [Value.toFinite]
  split
  · split
    · trivial
    · rfl
  · rfl

section Operators

variable {op : Operator} {v w u : Value} {r : Except Fault Value}

theorem yields_negateInteger (n : Int) : Yields Value.IsFlat (negateInteger n) := by
  rw [negateInteger]
  split
  · trivial
  · rfl

theorem yields_applySign (minus : Bool) (v : Value) : Yields Value.IsFlat (applySign minus v) := by
  cases v with
  | float x => trivial
  | integer n =>
    cases minus with
    | true => exact yields_negateInteger n
    | false => trivial
  | _ => rfl

theorem yields_negate (v : Value) : Yields Value.IsFlat (negate v) := by
  cases v with
  | truth b => trivial
  | _ => rfl

theorem yields_checkedInteger (reason : IntegerFault.Reason) (symbol : String) (m n k : Int) :
    Yields Value.IsFlat (checkedInteger reason symbol m n k) := by
  rw [checkedInteger]
  split
  · trivial
  · rfl

theorem yields_integerPower (m n : Int) : Yields Value.IsFlat (integerPower m n) := by
  rw [integerPower]
  split_ifs <;> first | rfl | trivial | exact yields_checkedInteger _ _ _ _ _

theorem isFlat_shiftedInteger (n places : Int) : (shiftedInteger n places).IsFlat := by
  rw [shiftedInteger]
  split_ifs <;> trivial

theorem isFlat_wordFunction? {name : String} {g : Int → Int → Value}
    (h : wordFunction? name = some g) (m n : Int) : (g m n).IsFlat := by
  unfold wordFunction? at h
  split at h <;> cases h
  · exact isFlat_shiftedInteger m n
  · exact isFlat_shiftedInteger m (-n)
  · trivial
  · trivial

theorem yields_integerOperator? {m n : Int} (h : integerOperator? op m n = some r) :
    Yields Value.IsFlat r := by
  unfold integerOperator? at h
  split at h
  case h_7 =>
    split at h
    next g hg =>
      cases h
      exact isFlat_wordFunction? hg m n
    next =>
      obtain ⟨b, -, rfl⟩ := Option.map_eq_some_iff.mp h
      trivial
  case h_6 =>
    cases h
    exact yields_integerPower m n
  case h_4 | h_5 =>
    cases h
    split <;> first | rfl | trivial | exact yields_checkedInteger _ _ _ _ _
  all_goals
    cases h
    exact yields_checkedInteger _ _ _ _ _

/-- What two floats give is a float or a truth value. -/
theorem isFlat_floatOperator? {x y : Float} (h : floatOperator? op x y = some v) : v.IsFlat := by
  unfold floatOperator? at h
  split at h
  case h_7 =>
    obtain ⟨b, -, rfl⟩ := Option.map_eq_some_iff.mp h
    trivial
  all_goals
    cases h
    trivial

theorem isFlat_truthOperator? {a b : Bool} (h : truthOperator? op a b = some v) : v.IsFlat := by
  unfold truthOperator? at h
  split at h
  case h_9 => exact nomatch h
  all_goals
    cases h
    trivial

theorem isFlat_contentOperator? {s t : String} (h : contentOperator? op s t = some v) :
    v.IsFlat := by
  unfold contentOperator? at h
  split at h
  · cases h
    trivial
  · obtain ⟨b, -, rfl⟩ := Option.map_eq_some_iff.mp h
    trivial

theorem isFlat_textOperator? (h : textOperator? op v w = some u) : u.IsFlat := by
  unfold textOperator? at h
  split at h
  case h_5 => exact nomatch h
  case h_1 | h_2 =>
    split at h
    · cases h
      trivial
    · exact isFlat_contentOperator? h
  all_goals exact isFlat_contentOperator? h

theorem yields_mixedOperator (op : Operator) (v w : Value) :
    Yields Value.IsFlat (mixedOperator op v w) := by
  rw [mixedOperator]
  split
  · trivial
  · rfl

/-- An operator gives a value without parts, or a fault of its operands. -/
theorem yields_applyOperator (op : Operator) (v w : Value) :
    Yields Value.IsFlat (applyOperator op v w) := by
  have hresult : ∀ {r? : Option (Except Fault Value)}, (∀ r, r? = some r → Yields Value.IsFlat r) →
      Yields Value.IsFlat (r?.getD (mixedOperator op v w)) := by
    intro r? hr
    cases r? with
    | none => exact yields_mixedOperator op v w
    | some r => exact hr r rfl
  have hmap : ∀ {v? : Option Value} {r : Except Fault Value}, v?.map .ok = some r →
      (∀ v, v? = some v → v.IsFlat) → Yields Value.IsFlat r := by
    intro v? r h hv
    obtain ⟨v, hv?, rfl⟩ := Option.map_eq_some_iff.mp h
    exact hv v hv?
  rw [applyOperator.eq_def]
  refine hresult fun r h ↦ ?_
  split at h
  · exact yields_integerOperator? h
  · exact hmap h fun _ ↦ isFlat_truthOperator?
  · obtain ⟨_, -, rfl⟩ := Option.map_eq_some_iff.mp h
    trivial
  · split at h <;> cases h
    trivial
  · split at h <;> cases h
    trivial
  · split at h
    · exact hmap h fun _ ↦ isFlat_floatOperator?
    · exact hmap h fun _ ↦ isFlat_textOperator?

end Operators

section Functions

variable {name : String}

theorem yields_floatSign (x : Float) : Yields Value.IsFlat (floatSign x) := by
  rw [floatSign]
  split_ifs <;> first | rfl | trivial

theorem yields_otherFunction? {v : Value} {r : Except Fault Value}
    (h : otherFunction? name v = some r) : Yields Value.IsFlat r := by
  unfold otherFunction? at h
  split at h <;> cases h
  · split
    · exact yields_negateInteger _
    · trivial
  case h_3 => exact yields_floatSign _
  case h_9 => rfl
  all_goals trivial

theorem yields_applyOne (name : String) (v : Value) : Yields Value.IsFlat (applyOne name v) := by
  rw [applyOne.eq_def]
  split
  next r hr => exact yields_otherFunction? hr
  next =>
    split
    · split
      · trivial
      · rfl
    · rfl

theorem yields_logarithm (x base : Float) : Yields Value.IsFlat (logarithm x base) := by
  rw [logarithm]
  split
  · rfl
  · trivial

theorem yields_realPower (x y : Float) : Yields Value.IsFlat (realPower x y) := by
  rw [realPower]
  split
  · rfl
  · trivial

/-- A named function gives a value without parts, or a fault of its arguments. -/
theorem yields_applyFunction (name : String) (vs : List Value) :
    Yields Value.IsFlat (applyFunction name vs) := by
  rw [applyFunction.eq_def]
  split
  · exact yields_applyOne name _
  · split_ifs
    · exact yields_logarithm _ _
    · exact yields_realPower _ _
    · rfl
  · split
    next g hg => exact isFlat_wordFunction? hg _ _
    next => rfl
  · rfl

end Functions

end FormulaQuiz.Formula
