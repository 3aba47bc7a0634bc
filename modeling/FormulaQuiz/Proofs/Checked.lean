import FormulaQuiz.Proofs.Hiding
import FormulaQuiz.Proofs.Scanning
import FormulaQuiz.Proofs.Scopes

/-!
# Formulas whose identifiers are checked

The check looks at the identifiers of a text, and the evaluation at the term that is read from the
text when it is rewritten.  What the check lets pass has all its variables, so no word is the cause
if it has no value.  But the check passes over what stands right behind a point, and there a formula
may call functions that are not for authors.
-/

namespace FormulaQuiz.Formula

/-- It can be tested whether a result is a certain fault. -/
instance decidableEqError {ε α : Type} [DecidableEq ε] (e : Except ε α) (fault : ε) :
    Decidable (e = .error fault) :=
  match e with
  | .ok _ => isFalse nofun
  | .error f => decidable_of_iff (f = fault) ⟨congrArg _, Except.error.inj⟩

theorem exists_of_toBool {ε α : Type} {e : Except ε α} (h : e.toBool = true) : ∃ a, e = .ok a := by
  cases e with
  | ok a => exact ⟨a, rfl⟩
  | error f => exact nomatch h

section Check

variable {t : AliasTable} {b : Bindings} {source : String} {fault : Fault} {x : Float}

/-- A formula is read as a term that is closed, if its symbols are. -/
theorem Term.closed_of_symbols {k : Repertoire} {names : List String} {term : Term}
    (hglobal : ⟨"global", false⟩ ∈ symbols source → k.strays)
    (hforms : (∃ s ∈ symbols source, s.name ∈ formWords) → k.forms)
    (hvalue : ∀ s ∈ symbols source, s.isCalled = false → k.Admits names s.name)
    (hfunction : ∀ s ∈ symbols source, k.function s.name)
    (hmethod : ∀ w, IsMethod source.toList w → k.method w)
    (hterm : Term.ofFormula? (evaluationText source) = some term) : term.Closed k names := by
  have hfits : term.Fits (.ofChars source.toList) := Term.fits_ofChars hterm
  have hwithin : (Vocabulary.ofChars source.toList).Within k :=
    ⟨hglobal, fun w hw ↦ hw.elim (hfunction ⟨w, false⟩) (hfunction ⟨w, true⟩), hmethod, hforms⟩
  refine hfits.closed hwithin (List.forall_mem_nil _) fun w hw ↦ ?_
  exact hvalue ⟨w, false⟩ (hfits.free w hw) rfl

/-! ## Words that stand for nothing -/

/-- All forms, functions and methods, but no scripts; all variables are there. -/
def Repertoire.whole : Repertoire where
  function name := name ≠ "eval"
  method _ := True
  strays := False
  forms := True
  ne_eval h := h

/-- The variables of a checked formula are there. -/
theorem Repertoire.admits_of_checkSymbols {k : Repertoire} {ss : List Symbol} {s : Symbol}
    (h : checkSymbols t b ss = .ok ()) (hs : s ∈ ss) (hcalled : s.isCalled = false) :
    k.Admits (constantNames ++ b.words) s.name := by
  cases hbound : b.contains s.name with
  | false =>
    have hknown := isKnown_of_checkSymbols h hs hbound
    rw [Symbol.isKnown, hcalled, if_neg Bool.false_ne_true] at hknown
    exact .inl (List.mem_append_left _ (List.contains_iff_mem.mp hknown))
  | true =>
    obtain ⟨x, hx⟩ := Option.isSome_iff_exists.mp hbound
    exact .inl (List.mem_append_right _ (Bindings.mem_words_of_get? hx))

/-- Such an interruption of a formula is not that a word stands for nothing. -/
theorem isLookup_toFault {i : Interrupt} (h : i.Closed .whole) : i.toFault.isLookup = false := by
  cases i with
  | fault f handled => exact Bool.eq_false_iff.mpr h
  | _ => rfl

/-- If the identifiers of a formula are checked and none names the module that is not there or runs
scripts, no word is the cause if the formula has no value. -/
theorem code_ne_of_checkSymbols (hglobal : ∀ s ∈ symbols source, s.name ≠ "global")
    (heval : ∀ s ∈ symbols source, s.name ≠ "eval")
    (hcheck : checkSymbols t b (symbols source) = .ok ()) (h : evaluate b source = .error fault) :
    fault.code ≠ "EXPR_UNDEFINED_SYMBOL" := by
  suffices hlookup : fault.isLookup = false by
    rw [Ne, ← Fault.isLookup_iff, hlookup]
    exact Bool.false_ne_true
  rw [evaluate] at h
  split at h
  next =>
    cases h
    rfl
  next term hterm =>
    have hclosed : term.Closed .whole (constantNames ++ b.words) :=
      Term.closed_of_symbols (fun hs ↦ absurd rfl (hglobal _ hs)) (fun _ ↦ trivial)
        (fun _ hs ↦ Repertoire.admits_of_checkSymbols hcheck hs) heval (fun _ _ ↦ trivial) hterm
    rcases Term.safe_eval stepLimit hclosed (State.closed_initial b) with
      ⟨v, s, hv, -⟩ | ⟨i, s, hi, hclosed, -⟩
    · rw [hv] at h
      have hfinite : Yields (fun _ ↦ True) v.toFinite := yields_toFinite v
      rw [show v.toFinite = .error fault from h] at hfinite
      exact hfinite
    · rw [hi] at h
      cases h
      exact isLookup_toFault hclosed

/-- A function that there is not for two values is the cause here. -/
theorem code_ne_sin : checkSymbols ⟨⟨8, 1000⟩, []⟩ ⟨[("x", 2)]⟩ (symbols "sin(x, x)") = .ok () ∧
    evaluate ⟨[("x", 2)]⟩ "sin(x, x)" = .error (.unsupported "sin (f64, f64)") ∧
      Fault.code (.unsupported "sin (f64, f64)") ≠ "EXPR_UNDEFINED_SYMBOL" := by
  have hcheck : checkSymbols ⟨⟨8, 1000⟩, []⟩ ⟨[("x", 2)]⟩ (symbols "sin(x, x)") = .ok () := by rfl
  have hvalue : evaluate ⟨[("x", 2)]⟩ "sin(x, x)" = .error (.unsupported "sin (f64, f64)") := by
    decide +kernel
  exact ⟨hcheck, hvalue,
    code_ne_of_checkSymbols (by decide +kernel) (by decide +kernel) hcheck hvalue⟩

/-- Bound words that evaluation keeps for a module in which there is nothing, and for scripts, which
a function without name runs where no variables are. -/
theorem code_global : (checkSymbols ⟨⟨8, 1000⟩, []⟩ ⟨[("global", 1), ("x", 2)]⟩
      (symbols "global::x") = .ok () ∧
      evaluate ⟨[("global", 1), ("x", 2)]⟩ "global::x" = .error (.undefined "global::x")) ∧
    (checkSymbols ⟨⟨8, 1000⟩, []⟩ ⟨[("eval", 1), ("x", 2)]⟩
      (symbols "(||eval!(\"x\")).call()") = .ok () ∧
      evaluate ⟨[("eval", 1), ("x", 2)]⟩ "(||eval!(\"x\")).call()" = .error (.undefined "x")) ∧
    ∀ name, Fault.code (.undefined name) = "EXPR_UNDEFINED_SYMBOL" := by
  refine ⟨⟨by rfl, ?_⟩, ⟨by rfl, ?_⟩, fun _ ↦ rfl⟩
  · decide +kernel
  · decide +kernel

end Check

/-! ## Functions that are not for authors -/

/-- The functions that evaluation has of its own, some of them as operators only. -/
def ownFunctions : List String :=
  ["sign", "is_zero", "is_odd", "is_even", "type_of", "Fn", "is_def_var", "is_def_fn", "is_shared",
    "call", "curry", "eval", "<<", ">>", "&", "|"]

/-- There are no functions but those of authors and those of evaluation itself. -/
theorem mem_of_applyFunction {name : String} {vs : List Value} {v : Value}
    (h : applyFunction name vs = .ok v) : name ∈ functionNames ++ ownFunctions := by
  have hone : ∀ {w}, applyOne name w = .ok v → name ∈ functionNames ++ ownFunctions := by
    intro w h
    rw [applyOne.eq_def] at h
    split at h
    next r hr =>
      unfold otherFunction? at hr
      split at hr <;> first | decide | cases hr
    next =>
      split at h
      next f x hf _ =>
        unfold floatFunction? at hf
        split at hf <;> first | decide | cases hf
      next => cases h
  rw [applyFunction.eq_def] at h
  split at h
  · exact hone h
  · split_ifs at h with hlog hpow
    · rw [hlog]
      decide
    · rw [hpow]
      decide
    · cases h
  · split at h
    next f hf =>
      unfold wordFunction? at hf
      split at hf <;> first | decide | cases hf
    next => cases h
  · cases h

/-- The functions that a term calls, by their names or as methods. -/
def Term.calls : Term → List String
  | .call name _ _ | .foreignCall _ name _ => [name]
  | .chain _ links => links.filterMap fun
    | .method name _ => some name
    | _ => none
  | _ => []

/-- The value of a term, which is given up where a function of a name is called. -/
def Term.evalWithout (name : String) : (steps : Nat) → Term → Machine Value
  | 0, _ => throw .exhausted
  | steps + 1, t =>
    if name ∈ t.calls then throw .exhausted
    else t.evalStep (Term.evalWithout name steps) steps

/-- The number that a formula stands for without a call of a function of a name. -/
def evaluateWithout (name : String) (b : Bindings) (source : String) : Except Fault Float :=
  match Term.ofFormula? (evaluationText source) with
  | none => .error .malformed
  | some t =>
    match t.evalWithout name stepLimit (.initial b) with
    | .ok v _ => v.toFinite
    | .error i _ => .error i.toFault

/-- A formula calls a function if it comes to something else where calls of it are given up. -/
def Calls (b : Bindings) (source name : String) : Prop :=
  evaluateWithout name b source ≠ evaluate b source

/-- The functions of authors, and other names for which there are none. -/
def Repertoire.ofAuthors : Repertoire where
  function name := name ∈ functionNames ∨ name ∉ ownFunctions
  method name := name ∈ functionNames
  strays := True
  forms := False
  ne_eval := by
    rintro name (hmem | hown) rfl
    · exact absurd hmem (by decide)
    · exact hown (by decide)

section Calls

open Machine

variable {name : String} {names : List String}

/-- A function that there is not is never applied. -/
theorem yields_false_applyFunction (h : name ∉ functionNames) (hown : name ∉ ownFunctions)
    (vs : List Value) : Yields (fun _ ↦ False) (applyFunction name vs) := by
  have hyields := yields_applyFunction name vs
  cases hr : applyFunction name vs with
  | ok v => exact absurd (mem_of_applyFunction hr) (by simp [h, hown])
  | error fault =>
    rw [hr] at hyields
    exact hyields

theorem Term.safe_evalCall_of_notMem {k : Repertoire} {eval : Term → Machine Value}
    (heval : ∀ {names t}, t.Closed k names → Safe k names (Value.Closed k) (eval t) (eval t))
    (h : name ∉ functionNames) (hown : name ∉ ownFunctions) (strict : Bool) {ts : List Term}
    (hts : Term.ClosedAll k names ts) : Safe k names (fun _ ↦ False)
      (evalCall eval name strict ts) (evalCall eval name strict ts) := by
  unfold evalCall
  split
  case h_9 =>
    exact (safe_evalArguments heval strict hts).bind fun vs _ ↦
      safe_ofExcept (yields_false_applyFunction h hown vs)
  all_goals exact absurd (by decide) hown

/-- The evaluation of a closed term never calls a function that is not for authors. -/
theorem Term.safe_evalWithout (h : name ∉ functionNames) (steps : ℕ) :
    ∀ {names t}, t.Closed .ofAuthors names → Safe .ofAuthors names (Value.Closed .ofAuthors)
      (Term.eval steps t) (Term.evalWithout name steps t) := by
  induction steps with
  | zero => exact fun _ ↦ safe_throw trivial
  | succ steps ih =>
    intro names t ht
    rw [evalWithout]
    split
    next hcalls =>
      cases t with
      | call called strict arguments =>
        obtain rfl := List.mem_singleton.mp hcalls
        have hown := ht.1.resolve_left h
        exact (safe_evalCall_of_notMem (safe_eval steps) h hown strict ht.2).of_false id
      | foreignCall path called arguments =>
        have hnever : Safe .ofAuthors names (fun _ : Value ↦ False)
            (evalArguments (Term.eval steps) false arguments >>= fun _ ↦ fail .failed)
            (evalArguments (Term.eval steps) false arguments >>= fun _ ↦ fail .failed) :=
          (safe_evalArguments (safe_eval steps) false ht).bind fun _ _ ↦ safe_fail rfl
        exact hnever.of_false id
      | chain base links =>
        obtain ⟨link, hlink, hmethod⟩ := List.mem_filterMap.mp hcalls
        have hclosed := Link.closedAll_iff.mp ht.2 link hlink
        cases link with
        | method called arguments =>
          obtain rfl := Option.some.inj hmethod
          exact absurd hclosed.1 h
        | _ => cases hmethod
      | _ => exact absurd hcalls List.not_mem_nil
    next => exact safe_evalStep ih steps ht

end Calls

/-- The words that begin forms of their own are not used as aliases. -/
theorem formWords_subset : formWords ⊆ reservedWords := by decide

/-- A formula that has a value calls functions of authors only, if no identifier in it is a word or
function of evaluation itself and its methods are functions of authors. -/
theorem mem_functionNames_of_calls {b : Bindings} {source name : String} {x : Float}
    (hown : ∀ s ∈ symbols source, s.name ∉ reservedWords ++ ownFunctions)
    (hmethod : ∀ w, IsMethod source.toList w → w ∈ functionNames)
    (h : evaluate b source = .ok x) (hcalls : Calls b source name) : name ∈ functionNames := by
  by_contra hname
  refine hcalls ?_
  rw [h, evaluateWithout]
  rw [evaluate] at h
  cases hterm : Term.ofFormula? (evaluationText source) with
  | none =>
    rw [hterm] at h
    cases h
  | some term =>
    rw [hterm] at h
    have hfunction : ∀ s ∈ symbols source, Repertoire.ofAuthors.function s.name :=
      fun s hs ↦ .inr fun hmem ↦ hown s hs (List.mem_append_right _ hmem)
    have hforms : ¬ ∃ s ∈ symbols source, s.name ∈ formWords := by
      rintro ⟨s, hs, hmem⟩
      exact hown s hs (List.mem_append_left _ (formWords_subset hmem))
    have hclosed : term.Closed .ofAuthors (constantNames ++ b.words) :=
      Term.closed_of_symbols (fun _ ↦ trivial) hforms (fun _ _ _ ↦ .inr trivial) hfunction hmethod
        hterm
    dsimp only at h ⊢
    rcases Term.safe_evalWithout hname stepLimit hclosed (State.closed_initial b) with
      ⟨v, s, hv, hv', -⟩ | ⟨i, s, hi, -⟩
    · rw [hv] at h
      rw [hv']
      exact h
    · rw [hi] at h
      cases h

/-- A formula of an author calls the one function in it. -/
theorem calls_abs : Calls ⟨[("x", 2)]⟩ "abs(x)" "abs" ∧ "abs" ∈ functionNames := by
  obtain ⟨x, hx⟩ : ∃ x, evaluate ⟨[("x", 2)]⟩ "abs(x)" = .ok x :=
    exists_of_toBool (by decide +kernel)
  have hgiven : evaluateWithout "abs" ⟨[("x", 2)]⟩ "abs(x)" = .error .unending := by
    decide +kernel
  have hcalls : Calls ⟨[("x", 2)]⟩ "abs(x)" "abs" := by
    rw [Calls, hgiven, hx]
    exact nofun
  have hmethod : ∀ w, IsMethod "abs(x)".toList w → w ∈ functionNames := by
    rintro w ⟨p, blanks, y, rest, hsource, -⟩
    have hmem : '.' ∈ "abs(x)".toList := hsource ▸ List.mem_append_right p List.mem_cons_self
    exact absurd hmem (by decide)
  exact ⟨hcalls, mem_functionNames_of_calls (by decide +kernel) hmethod hx hcalls⟩

/-- Behind a point a checked formula may call a function that is not for authors, and one that is
not checked may anywhere. -/
theorem calls_sign : (checkSymbols ⟨⟨8, 1000⟩, []⟩ ⟨[("x", 2)]⟩ (symbols "x.sign()") = .ok () ∧
      (∃ x, evaluate ⟨[("x", 2)]⟩ "x.sign()" = .ok x) ∧ Calls ⟨[("x", 2)]⟩ "x.sign()" "sign") ∧
    ((∃ x, evaluate ⟨[]⟩ "sign(-3)" = .ok x) ∧ Calls ⟨[]⟩ "sign(-3)" "sign") ∧
      "sign" ∉ functionNames := by
  have hcalls : ∀ {b source x}, evaluate b source = .ok x →
      evaluateWithout "sign" b source = .error .unending → Calls b source "sign" := by
    intro b source x hx hgiven
    rw [Calls, hgiven, hx]
    exact nofun
  obtain ⟨x, hx⟩ : ∃ x, evaluate ⟨[("x", 2)]⟩ "x.sign()" = .ok x :=
    exists_of_toBool (by decide +kernel)
  obtain ⟨y, hy⟩ : ∃ x, evaluate ⟨[]⟩ "sign(-3)" = .ok x := exists_of_toBool (by decide +kernel)
  refine ⟨⟨by rfl, ⟨x, hx⟩, hcalls hx ?_⟩, ⟨⟨y, hy⟩, hcalls hy ?_⟩, by decide⟩
  · decide +kernel
  · decide +kernel

end FormulaQuiz.Formula
