import FormulaQuiz.Formula.Capture
import Mathlib.Data.List.Basic

/-!
# The names that a term uses

To evaluate a term is to ask what some names stand for: its variables, the variables that its
functions keep, and the names that it calls.  The names of parameters and of new variables are not
asked for.
-/

namespace FormulaQuiz.Formula

mutual

/-- The names that the evaluation of a term may ask for, also those that are new in it. -/
def Term.names : Term → List String
  | .variable name | .publish name => [name]
  | .list items | .record _ items | .template items | .foreignCall _ _ items | .block items =>
    Term.namesAll items
  | .call name _ items => name :: Term.namesAll items
  | .signed _ t | .negated t | .declare _ _ t | .leave t | .result t | .raise t | .loadModule t =>
    t.names
  | .binary _ l r | .assign _ l r | .whileLoop l r | .doLoop l r _ | .forLoop _ l r
  | .attempt l _ r => l.names ++ r.names
  | .chain base links => base.names ++ Link.namesAll links
  | .closure _ captured _ => captured
  | .conditional guard yes no => guard.names ++ yes.names ++ no.names
  | .selection subject cases otherwise => subject.names ++ Case.namesAll cases ++ otherwise.names
  | .unit | .number _ | .integer _ | .truth _ | .text _ | .character _ | .self | .foreign _ _
  | .next => []

/-- The names that some terms use. -/
def Term.namesAll : List Term → List String
  | [] => []
  | t :: ts => t.names ++ Term.namesAll ts

/-- The names that the terms in a link use. -/
def Link.names : Link → List String
  | .method _ arguments => Term.namesAll arguments
  | .property _ => []
  | .index _ t => t.names

/-- The names that the terms in some links use. -/
def Link.namesAll : List Link → List String
  | [] => []
  | l :: ls => l.names ++ Link.namesAll ls

/-- The names that the terms in a case use. -/
def Case.names : Case → List String
  | .mk patterns guard action => Term.namesAll patterns ++ guard.names ++ action.names

/-- The names that the terms in some cases use. -/
def Case.namesAll : List Case → List String
  | [] => []
  | c :: cs => c.names ++ Case.namesAll cs

end

section

variable {name : String}

theorem Term.mem_namesAll {ts : List Term} :
    name ∈ Term.namesAll ts ↔ ∃ t ∈ ts, name ∈ t.names := by
  induction ts with
  | nil => simp [Term.namesAll]
  | cons t ts ih => simp [Term.namesAll, ih]

theorem Link.mem_namesAll {ls : List Link} :
    name ∈ Link.namesAll ls ↔ ∃ l ∈ ls, name ∈ l.names := by
  induction ls with
  | nil => simp [Link.namesAll]
  | cons l ls ih => simp [Link.namesAll, ih]

theorem Case.mem_namesAll {cs : List Case} :
    name ∈ Case.namesAll cs ↔ ∃ c ∈ cs, name ∈ c.names := by
  induction cs with
  | nil => simp [Case.namesAll]
  | cons c cs ih => simp [Case.namesAll, ih]

end

theorem append_subset_append {l l' m m' : List String} (h : l ⊆ l') (h' : m ⊆ m') :
    l ++ m ⊆ l' ++ m' :=
  List.append_subset.mpr ⟨List.subset_append_of_subset_left m' h,
    List.subset_append_of_subset_right l' h'⟩

mutual

/-- The variables that a term leaves to its surroundings are among the names that it uses. -/
theorem Term.free_subset (bound : List String) : ∀ t : Term, t.free bound ⊆ t.names
  | .variable name => by
    rw [Term.free, Term.names]
    split <;> simp
  | .publish name => by
    rw [Term.free, Term.names]
    split <;> simp
  | .list items | .record _ items | .template items | .foreignCall _ _ items | .block items => by
    rw [Term.free, Term.names]
    exact Term.freeAll_subset bound items
  | .call name _ items => by
    rw [Term.free, Term.names]
    exact List.subset_cons_of_subset name (Term.freeAll_subset bound items)
  | .signed _ t | .negated t | .declare _ _ t | .leave t | .result t | .raise t
  | .loadModule t => by
    rw [Term.free, Term.names]
    exact t.free_subset bound
  | .binary _ l r | .assign _ l r | .whileLoop l r | .doLoop l r _ => by
    rw [Term.free, Term.names]
    exact append_subset_append (l.free_subset bound) (r.free_subset bound)
  | .forLoop names l r => by
    rw [Term.free, Term.names]
    exact append_subset_append (l.free_subset bound) (r.free_subset (names ++ bound))
  | .attempt l name r => by
    rw [Term.free, Term.names]
    exact append_subset_append (l.free_subset bound) (r.free_subset (name.toList ++ bound))
  | .chain base links => by
    rw [Term.free, Term.names]
    exact append_subset_append (base.free_subset bound) (Link.freeAll_subset bound links)
  | .closure _ captured _ => by
    rw [Term.free, Term.names]
    exact (List.filter_sublist).subset
  | .conditional guard yes no => by
    rw [Term.free, Term.names]
    exact append_subset_append (append_subset_append (guard.free_subset bound)
      (yes.free_subset bound)) (no.free_subset bound)
  | .selection subject cases otherwise => by
    rw [Term.free, Term.names]
    exact append_subset_append (append_subset_append (subject.free_subset bound)
      (Case.freeAll_subset bound cases)) (otherwise.free_subset bound)
  | .unit | .number _ | .integer _ | .truth _ | .text _ | .character _ | .self | .foreign _ _
  | .next => by
    rw [Term.free]
    exact List.nil_subset _

theorem Term.freeAll_subset (bound : List String) :
    ∀ ts : List Term, Term.freeAll bound ts ⊆ Term.namesAll ts
  | [] => List.nil_subset _
  | t :: ts => by
    rw [Term.freeAll, Term.namesAll]
    exact append_subset_append (t.free_subset bound) (Term.freeAll_subset _ ts)

theorem Link.free_subset (bound : List String) : ∀ l : Link, l.free bound ⊆ l.names
  | .method _ arguments => by
    rw [Link.free, Link.names]
    exact Term.freeAll_subset bound arguments
  | .property _ => by
    rw [Link.free]
    exact List.nil_subset _
  | .index _ t => by
    rw [Link.free, Link.names]
    exact t.free_subset bound

theorem Link.freeAll_subset (bound : List String) :
    ∀ ls : List Link, Link.freeAll bound ls ⊆ Link.namesAll ls
  | [] => List.nil_subset _
  | l :: ls => by
    rw [Link.freeAll, Link.namesAll]
    exact append_subset_append (l.free_subset bound) (Link.freeAll_subset bound ls)

theorem Case.free_subset (bound : List String) : ∀ c : Case, c.free bound ⊆ c.names
  | .mk patterns guard action => by
    rw [Case.free, Case.names]
    exact append_subset_append (append_subset_append (Term.freeAll_subset bound patterns)
      (guard.free_subset bound)) (action.free_subset bound)

theorem Case.freeAll_subset (bound : List String) :
    ∀ cs : List Case, Case.freeAll bound cs ⊆ Case.namesAll cs
  | [] => List.nil_subset _
  | c :: cs => by
    rw [Case.freeAll, Case.namesAll]
    exact append_subset_append (c.free_subset bound) (Case.freeAll_subset bound cs)

end

/-- A function keeps only names that its body uses. -/
theorem Term.captured_subset (parameters : List String) (body : Term) :
    Term.captured parameters body ⊆ body.names := fun _ h ↦
  body.free_subset parameters (List.mem_eraseDups.mp h)

/-! ## Terms of known words -/

/-- The words that begin a form of their own. -/
def formWords : List String :=
  ["true", "false", "if", "switch", "this", "while", "loop", "do", "for", "continue", "break",
    "return", "throw", "try", "let", "const", "import", "export"]

/-- What is known of the words of a formula: of those that stand for values, of those that are called
by a parenthesis behind them, and of those that are called as methods. -/
structure Vocabulary where
  value : String → Prop
  function : String → Prop
  method : String → Prop
  /-- Whether there are words that begin forms of their own. -/
  forms : Prop

mutual

/-- A term that is read from a formula with known words; `new` tells whether it may be a new
variable.  A word that stands for a value may be called too, by a parenthesis that is not right
behind it. -/
def Term.FitsAs (v : Vocabulary) (new : Bool) : Term → Prop
  | .unit | .number _ | .integer _ | .truth _ | .text _ | .character _ => True
  | .variable name => v.value name
  | .foreign path _ => ∃ w ∈ path.head?, v.value w
  | .list items | .record _ items | .template items | .foreignCall _ _ items | .block items =>
    Term.FitsAll v items
  | .signed _ t | .negated t => t.FitsAs v false
  | .binary _ l r | .assign _ l r => l.FitsAs v false ∧ r.FitsAs v false
  | .call name _ items => (v.value name ∨ v.function name) ∧ Term.FitsAll v items
  | .chain base links => base.FitsAs v false ∧ Link.FitsAll v links
  | .closure parameters captured body =>
    captured = Term.captured parameters body ∧ body.FitsAs v true
  | .self | .next => v.forms
  | .declare _ _ t => new = true ∧ v.forms ∧ t.FitsAs v false
  | .leave t | .result t | .raise t | .loadModule t => v.forms ∧ t.FitsAs v false
  | .whileLoop l r | .doLoop l r _ | .forLoop _ l r | .attempt l _ r =>
    v.forms ∧ l.FitsAs v false ∧ r.FitsAs v false
  | .conditional guard yes no =>
    v.forms ∧ guard.FitsAs v false ∧ yes.FitsAs v false ∧ no.FitsAs v false
  | .selection subject cases otherwise =>
    v.forms ∧ subject.FitsAs v false ∧ Case.FitsAll v cases ∧ otherwise.FitsAs v false
  | .publish _ => False

/-- Terms that fit, none of which is a new variable. -/
def Term.FitsAll (v : Vocabulary) : List Term → Prop
  | [] => True
  | t :: ts => t.FitsAs v false ∧ Term.FitsAll v ts

/-- A link with terms that fit. -/
def Link.Fits (v : Vocabulary) : Link → Prop
  | .method name arguments => v.method name ∧ Term.FitsAll v arguments
  | .property _ => True
  | .index _ t => t.FitsAs v false

/-- Links with terms that fit. -/
def Link.FitsAll (v : Vocabulary) : List Link → Prop
  | [] => True
  | l :: ls => l.Fits v ∧ Link.FitsAll v ls

/-- A case with terms that fit. -/
def Case.Fits (v : Vocabulary) : Case → Prop
  | .mk patterns guard action =>
    Term.FitsAll v patterns ∧ guard.FitsAs v false ∧ action.FitsAs v false

/-- Cases with terms that fit. -/
def Case.FitsAll (v : Vocabulary) : List Case → Prop
  | [] => True
  | c :: cs => c.Fits v ∧ Case.FitsAll v cs

end

/-- A term that fits and is no new variable. -/
abbrev Term.Fits (v : Vocabulary) (t : Term) : Prop := t.FitsAs v false

section Fits

variable {v : Vocabulary} {new : Bool}

/-- What is no new variable fits everywhere. -/
theorem Term.Fits.fitsAs {t : Term} (h : t.Fits v) : t.FitsAs v new := by
  cases t with
  | declare => exact Bool.noConfusion h.1
  | _ => exact h

@[simp] theorem Term.fits_withSign {minus : Bool} {t : Term} :
    (t.withSign minus).Fits v ↔ t.Fits v := by
  cases t <;> exact Iff.rfl

@[simp] theorem Term.fits_follow {t : Term} {links : List Link} :
    (t.follow links).Fits v ↔ t.Fits v ∧ Link.FitsAll v links := by
  cases links with
  | nil => exact ⟨fun h ↦ ⟨h, trivial⟩, And.left⟩
  | cons l ls => exact Iff.rfl

theorem Link.fitsAll_iff {ls : List Link} : Link.FitsAll v ls ↔ ∀ l ∈ ls, l.Fits v := by
  induction ls with
  | nil => exact ⟨fun _ ↦ nofun, fun _ ↦ trivial⟩
  | cons l ls ih => rw [Link.FitsAll, ih, List.forall_mem_cons]

theorem Link.fitsAll_append {ls ls' : List Link} :
    Link.FitsAll v (ls ++ ls') ↔ Link.FitsAll v ls ∧ Link.FitsAll v ls' := by
  rw [Link.fitsAll_iff, Link.fitsAll_iff, Link.fitsAll_iff, List.forall_mem_append]

mutual

/-- The names that a term uses stand for values or are called. -/
theorem Term.FitsAs.names : ∀ {new : Bool} {t : Term}, t.FitsAs v new →
    ∀ w ∈ t.names, v.value w ∨ v.function w
  | _, .variable name, h => by
    rw [Term.names]
    exact List.forall_mem_singleton.mpr (.inl h)
  | _, .list items, h | _, .record _ items, h | _, .template items, h
  | _, .foreignCall _ _ items, h | _, .block items, h => by
    rw [Term.names]
    exact Term.FitsAll.names h
  | _, .signed _ t, h | _, .negated t, h => by
    rw [Term.names]
    exact Term.FitsAs.names (t := t) h
  | _, .declare _ _ t, h => by
    rw [Term.names]
    exact h.2.2.names
  | _, .leave t, h | _, .result t, h | _, .raise t, h | _, .loadModule t, h => by
    rw [Term.names]
    exact h.2.names
  | _, .binary _ l r, h | _, .assign _ l r, h => by
    rw [Term.names]
    exact List.forall_mem_append.mpr ⟨h.1.names, h.2.names⟩
  | _, .whileLoop l r, h | _, .doLoop l r _, h | _, .forLoop _ l r, h | _, .attempt l _ r, h => by
    rw [Term.names]
    exact List.forall_mem_append.mpr ⟨h.2.1.names, h.2.2.names⟩
  | _, .call name _ items, h => by
    rw [Term.names]
    exact List.forall_mem_cons.mpr ⟨h.1, Term.FitsAll.names h.2⟩
  | _, .chain base links, h => by
    rw [Term.names]
    exact List.forall_mem_append.mpr ⟨h.1.names, Link.FitsAll.names h.2⟩
  | _, .closure parameters captured body, h => by
    rw [Term.names, h.1]
    exact fun w hw ↦ h.2.names w (Term.captured_subset parameters body hw)
  | _, .conditional guard yes no, h => by
    rw [Term.names]
    refine List.forall_mem_append.mpr ⟨List.forall_mem_append.mpr ⟨h.2.1.names, ?_⟩, ?_⟩
    · exact h.2.2.1.names
    · exact h.2.2.2.names
  | _, .selection subject cases otherwise, h => by
    rw [Term.names]
    refine List.forall_mem_append.mpr ⟨List.forall_mem_append.mpr ⟨h.2.1.names, ?_⟩, ?_⟩
    · exact Case.FitsAll.names h.2.2.1
    · exact h.2.2.2.names
  | _, .unit, _ | _, .number _, _ | _, .integer _, _ | _, .truth _, _ | _, .text _, _
  | _, .character _, _ | _, .foreign _ _, _ | _, .self, _ | _, .next, _ => by
    rw [Term.names]
    exact nofun

theorem Term.FitsAll.names :
    ∀ {ts : List Term}, Term.FitsAll v ts → ∀ w ∈ Term.namesAll ts, v.value w ∨ v.function w
  | [], _ => nofun
  | _ :: _, h => List.forall_mem_append.mpr ⟨h.1.names, Term.FitsAll.names h.2⟩

theorem Link.Fits.names : ∀ {l : Link}, l.Fits v → ∀ w ∈ l.names, v.value w ∨ v.function w
  | .method _ _, h => Term.FitsAll.names h.2
  | .property _, _ => nofun
  | .index _ t, h => Term.FitsAs.names (t := t) h

theorem Link.FitsAll.names :
    ∀ {ls : List Link}, Link.FitsAll v ls → ∀ w ∈ Link.namesAll ls, v.value w ∨ v.function w
  | [], _ => nofun
  | _ :: _, h => List.forall_mem_append.mpr ⟨h.1.names, Link.FitsAll.names h.2⟩

theorem Case.Fits.names : ∀ {c : Case}, c.Fits v → ∀ w ∈ c.names, v.value w ∨ v.function w
  | .mk _ _ _, h => by
    rw [Case.names]
    refine List.forall_mem_append.mpr ⟨List.forall_mem_append.mpr ⟨?_, h.2.1.names⟩, h.2.2.names⟩
    exact Term.FitsAll.names h.1

theorem Case.FitsAll.names :
    ∀ {cs : List Case}, Case.FitsAll v cs → ∀ w ∈ Case.namesAll cs, v.value w ∨ v.function w
  | [], _ => nofun
  | _ :: _, h => List.forall_mem_append.mpr ⟨h.1.names, Case.FitsAll.names h.2⟩

end

end Fits

end FormulaQuiz.Formula
