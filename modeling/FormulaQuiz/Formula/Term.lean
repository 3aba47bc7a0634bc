import FormulaQuiz.Formula.Operator

/-!
# Terms

What a formula under evaluation means.  Everything has a value, also a block of terms, a condition
and a loop, so there is one kind of term.  The forms that authors are not told of are those of a
small script language.
-/

namespace FormulaQuiz.Formula

mutual

/-- A formula or a part of one as a tree. -/
inductive Term where
  /-- The value of what has no value of its own. -/
  | unit
  | number (x : Float)
  | integer (n : Int)
  | truth (b : Bool)
  | text (content : String)
  | character (c : Char)
  | list (items : List Term)
  /-- Items under names. -/
  | record (names : List String) (items : List Term)
  /-- A text put together from the texts of its parts. -/
  | template (parts : List Term)
  | variable (name : String)
  /-- What a function was called on. -/
  | self
  /-- A variable of a module; there are no modules. -/
  | foreign (path : List String) (name : String)
  /-- A term with a plus or minus sign in front. -/
  | signed (minus : Bool) (t : Term)
  /-- A term with an exclamation mark in front. -/
  | negated (t : Term)
  | binary (op : Operator) (left right : Term)
  /-- A call; a strict one takes its arguments in order. -/
  | call (name : String) (strict : Bool) (arguments : List Term)
  /-- A call of a function of a module. -/
  | foreignCall (path : List String) (name : String) (arguments : List Term)
  /-- A term with methods, properties and indices after it. -/
  | chain (base : Term) (links : List Link)
  /-- A function without name; it keeps the variables around it that it uses. -/
  | closure (parameters captured : List String) (body : Term)
  /-- A new variable. -/
  | declare (constant : Bool) (name : String) (value : Term)
  /-- A change of a variable or of a part of one, to a value or by an operator. -/
  | assign (op : Option Operator) (place value : Term)
  /-- Terms one after the other; variables that are new in them end with them. -/
  | block (body : List Term)
  | conditional (guard yes no : Term)
  | selection (subject : Term) (cases : List Case) (otherwise : Term)
  /-- A loop with its guard in front. -/
  | whileLoop (guard body : Term)
  /-- A loop with its guard at the end, which goes on while the guard is `goesOn`. -/
  | doLoop (body guard : Term) (goesOn : Bool)
  /-- A loop over items. -/
  | forLoop (names : List String) (items body : Term)
  /-- The end of a loop, whose value it gives. -/
  | leave (value : Term)
  /-- The end of a round of a loop. -/
  | next
  /-- The end of a function or script, whose value it gives. -/
  | result (value : Term)
  | raise (value : Term)
  /-- A block with another to run if it fails. -/
  | attempt (body : Term) (name : Option String) (handler : Term)
  | loadModule (path : Term)
  /-- The offer of a variable to other scripts. -/
  | publish (name : String)

/-- What may follow a term. -/
inductive Link where
  | method (name : String) (arguments : List Term)
  | property (name : String)
  /-- An index; if it is optional, a base without value has no part. -/
  | index (optional : Bool) (t : Term)

/-- A case of a selection. -/
inductive Case where
  | mk (patterns : List Term) (guard action : Term)

end

namespace Term

/-- A term with a sign in front; a number takes the sign itself. -/
def withSign (minus : Bool) : Term → Term
  | .number x => .number (if minus then -x else x)
  | .integer n => .integer (if minus then -n else n)
  | t => .signed minus t

/-- Whether a term is seen to be no truth value. -/
def isPlain : Term → Bool
  | .unit | .number _ | .integer _ | .text _ | .character _ | .list _ | .record _ _ | .template _
  | .closure _ [] _ => true
  | _ => false

/-- Whether a term is seen to have no items to go through. -/
def isSingle : Term → Bool
  | .unit | .number _ | .integer _ | .truth _ | .character _ | .record _ _ => true
  | _ => false

/-- Whether a term may be an index of another: a list or text takes an integer, a record a text, and
neither another literal nor logic. -/
def mayIndex (left index : Term) : Bool :=
  match left, index with
  | .list _, .text _ | .text _, .text _ | .template _, .text _ | .integer _, .text _
  | .list _, .template _ | .text _, .template _ | .template _, .template _
  | .integer _, .template _ | .record _ _, .integer _ => false
  | .list _, index | .text _, index | .template _, index | .integer _, index
  | .record _ _, index =>
    match index with
    | .unit | .number _ | .character _ | .truth _ | .binary .both _ _ | .binary .either _ _ => false
    | _ => true
  | _, _ => true

/-- Two terms with an operator between them; logic takes no term that is seen to be no truth
value. -/
def combine? (op : Operator) (left right : Term) : Option Term :=
  if (op = .both ∨ op = .either) ∧ (left.isPlain ∨ right.isPlain) then none
  else some (.binary op left right)

/-- A term with what follows it. -/
def follow (base : Term) : List Link → Term
  | [] => base
  | links => .chain base links

mutual

/-- Whether a term is a value written out, and may be a pattern of a selection. -/
def isLiteral : Term → Bool
  | .unit | .number _ | .integer _ | .truth _ | .text _ | .character _ | .closure _ [] _ => true
  | .list items | .record _ items => areLiterals items
  | _ => false

/-- Whether some terms are values written out. -/
def areLiterals : List Term → Bool
  | [] => true
  | t :: ts => t.isLiteral && areLiterals ts

end

/-- Whether a term may stand in a sequence without a semicolon after it. -/
def endsItself : Term → Bool
  | .block _ | .conditional _ _ _ | .selection _ _ _ | .whileLoop _ _ | .forLoop _ _ _
  | .attempt _ _ _ => true
  | _ => false

/-- The variables that a term brings to the terms after it, with whether each is constant. -/
def declared : Term → List (String × Bool)
  | .declare constant name _ => [(name, constant)]
  | _ => []

/-- Whether a term is the name of a variable or of what a function was called on. -/
def isRoot : Term → Bool
  | .variable _ | .self | .foreign _ _ => true
  | _ => false

/-- Whether a term names a place that may be changed; `constants` tells which variables are
constant. -/
def isPlace (constants : List (String × Bool)) : Term → Bool
  | .variable name => constants.lookup name != some true
  | .chain base links =>
    base.isRoot && links.all fun
      | .method _ _ => false
      | _ => true
  | t => t.isRoot

end Term

end FormulaQuiz.Formula
