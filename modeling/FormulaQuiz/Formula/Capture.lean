import FormulaQuiz.Formula.Term

/-!
# What a function takes from around it

A function without name keeps the variables around it that it uses: those that occur in its body and
are neither its parameters nor new in the body.  They are found in the order in which they occur.
-/

namespace FormulaQuiz.Formula

mutual

/-- The variables that occur in a term and are not among `bound`, in the order of occurrence. -/
def Term.free (bound : List String) : Term → List String
  | .variable name => if bound.contains name then [] else [name]
  | .list items | .record _ items | .template items | .call _ _ items | .foreignCall _ _ items
  | .block items => Term.freeAll bound items
  | .signed _ t | .negated t | .declare _ _ t | .leave t | .result t | .raise t
  | .loadModule t => t.free bound
  | .binary _ l r | .assign _ l r | .whileLoop l r | .doLoop l r _ => l.free bound ++ r.free bound
  | .chain base links => base.free bound ++ Link.freeAll bound links
  | .closure _ captured _ => captured.filter (!bound.contains ·)
  | .conditional guard yes no => guard.free bound ++ yes.free bound ++ no.free bound
  | .selection subject cases otherwise =>
    subject.free bound ++ Case.freeAll bound cases ++ otherwise.free bound
  | .forLoop names items body => items.free bound ++ body.free (names ++ bound)
  | .attempt body name handler => body.free bound ++ handler.free (name.toList ++ bound)
  | .publish name => if bound.contains name then [] else [name]
  | .unit | .number _ | .integer _ | .truth _ | .text _ | .character _ | .self | .foreign _ _
  | .next => []

/-- The variables that occur in terms one after the other and are neither among `bound` nor new in
them. -/
def Term.freeAll (bound : List String) : List Term → List String
  | [] => []
  | t :: ts => t.free bound ++ Term.freeAll (t.declared.map (·.1) ++ bound) ts

/-- The variables that occur in a link and are not among `bound`. -/
def Link.free (bound : List String) : Link → List String
  | .method _ arguments => Term.freeAll bound arguments
  | .property _ => []
  | .index _ t => t.free bound

/-- The variables that occur in links and are not among `bound`. -/
def Link.freeAll (bound : List String) : List Link → List String
  | [] => []
  | l :: ls => l.free bound ++ Link.freeAll bound ls

/-- The variables that occur in a case and are not among `bound`. -/
def Case.free (bound : List String) : Case → List String
  | .mk patterns guard action =>
    Term.freeAll bound patterns ++ guard.free bound ++ action.free bound

/-- The variables that occur in cases and are not among `bound`. -/
def Case.freeAll (bound : List String) : List Case → List String
  | [] => []
  | c :: cs => c.free bound ++ Case.freeAll bound cs

end

/-- The variables that a function with some parameters keeps, each once. -/
def Term.captured (parameters : List String) (body : Term) : List String :=
  (body.free parameters).eraseDups

end FormulaQuiz.Formula
