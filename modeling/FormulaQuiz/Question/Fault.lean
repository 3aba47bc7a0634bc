import FormulaQuiz.Decimal.Notation
import FormulaQuiz.Formula.Fault

/-!
# What may be wrong with a question

Each cause is a constructor with what an author has to know of it.  `Fault.code`, `Fault.kind` and
`Fault.message` say it to the author; a fault of an equation comes with a report on the equation.
-/

namespace FormulaQuiz

/-- What an author needs to find a faulty equation. -/
structure StepReport where
  /-- The number of the equation, from one. -/
  index : Nat
  /-- The equation as written. -/
  expr : String
  /-- The equation as plain text. -/
  plain : String
  /-- The equation as plain text with aliases in place of names, if there were aliases. -/
  encoded : Option String
deriving DecidableEq, Repr

/-- What may be wrong with an equation. -/
inductive StepFault where
  /-- It is not one name, one equals sign and one formula. -/
  | notEquation
  /-- Its left side is a final answer without alias. -/
  | noAlias (name : String)
  /-- Its left side is an input. -/
  | inputReassigned (index : Nat) (name : String)
  /-- Its left side has a value already. -/
  | rebound (name : String)
  /-- Its left side was given a value while its right side was evaluated. -/
  | bound (name : String)
  /-- Its right side has no value. -/
  | formula (fault : Formula.Fault)
deriving DecidableEq, Repr

namespace StepFault

/-- The code of a fault. -/
def code : StepFault → String
  | notEquation => "EXPR_INVALID_EQUATION"
  | noAlias _ => "EXPR_UNDEFINED_SYMBOL"
  | inputReassigned _ _ => "EXPR_INPUT_REASSIGNED"
  | rebound _ | bound _ => "EXPR_LHS_REBOUND"
  | formula fault => fault.code

/-- What an author is told of a fault. -/
def message : StepFault → String
  | notEquation => "Invalid expression"
  | noAlias name => "Final answer \"" ++ name ++ "\" has no internal token."
  | inputReassigned index name =>
    "Method " ++ Decimal.natText index ++ " assigns to input variable \"" ++ name ++
      "\"; only new names or final answers can be assigned."
  | rebound name =>
    "\"" ++ name ++ "\" is already assigned by an earlier method and cannot be reassigned."
  | bound name => "\"" ++ name ++ "\" is already assigned."
  | formula fault => fault.message

end StepFault

/-- What may be wrong with a question, or with the settings under which it is varied. -/
inductive Fault where
  /-- The document is no draft of a question. -/
  | unreadable
  | emptyDraft
  | emptyName
  | duplicateName (name : String)
  | randomizedFinalAnswer (name : String)
  | decimalPlacesMissing (name : String)
  | stepSizeInvalid (name : String)
  | wrongAnswersInverted (name : String) (min max : Float)
  | randomBoundsMissing (name : String)
  | randomBoundsInvalid (name : String) (min max : Float)
  | randomBoundsTooWide (name : String) (min max : Float)
  | noFinalAnswer
  | emptyMethod (index : Nat)
  | noWrongAnswers
  | noAliases
  | alreadyAliased (name : String)
  | aliasesExhausted (name : String) (attempts : Nat)
  | notAliased (name : String)
  | finalAnswerAsInput (name : String)
  | defaultMissing (name : String)
  | defaultNotNumeric (name : String)
  | randomBoundsUnrepresentable (name : String) (places : UInt8) (min max : Float)
  | step (fault : StepFault) (report : StepReport)
  | decoyStepInvalid (size : Float)
  | decoyRangeInverted (min max : Float)
  | decoyRangeTooLarge (min max size : Float)
  | insufficientDecoys (name : String) (percentages : List String)
  | notANumber (name : String)
  | noAnswers
  | noCorrectAnswer
deriving Repr

namespace Fault

/-- The greatest number of deviations of a wrong answer. -/
def deviationLimit : Nat := 10000

/-- The kinds of faults. -/
inductive Kind where
  | configuration
  | expression
  | insufficientDecoys
  | resultNotANumber
deriving DecidableEq, Repr

/-- The name of a kind. -/
def Kind.name : Kind → String
  | configuration => "configuration"
  | expression => "expression"
  | insufficientDecoys => "insufficientDecoys"
  | resultNotANumber => "resultNotANumber"

/-- The kind of a fault. -/
def kind : Fault → Kind
  | step _ _ => .expression
  | insufficientDecoys _ _ => .insufficientDecoys
  | notANumber _ => .resultNotANumber
  | _ => .configuration

/-- The code of a fault. -/
def code : Fault → String
  | unreadable => "API_DEFINITION_INVALID"
  | emptyDraft => "CONFIG_EMPTY_DEFINITION"
  | emptyName => "CONFIG_EMPTY_NAME"
  | duplicateName _ => "CONFIG_DUPLICATE_NAME"
  | randomizedFinalAnswer _ => "CONFIG_RANDOMIZED_FINAL_ANSWER"
  | decimalPlacesMissing _ => "CONFIG_DECIMAL_PLACES_MISSING"
  | stepSizeInvalid _ | decoyStepInvalid _ => "CONFIG_DECOY_STEP_INVALID"
  | wrongAnswersInverted _ _ _ | decoyRangeInverted _ _ => "CONFIG_DECOY_BOUNDS_INVERTED"
  | randomBoundsMissing _ => "CONFIG_RANDOM_BOUNDS_MISSING"
  | randomBoundsInvalid _ _ _ => "CONFIG_RANDOM_BOUNDS_INVERTED"
  | randomBoundsTooWide _ _ _ => "CONFIG_RANDOM_BOUNDS_TOO_WIDE"
  | noFinalAnswer => "CONFIG_NO_FINAL_ANSWER"
  | emptyMethod _ => "CONFIG_EMPTY_METHOD"
  | noWrongAnswers | noAliases => "CONFIG_ENGINE_OPTIONS"
  | alreadyAliased _ => "CONFIG_NAME_ALREADY_ENCODED"
  | aliasesExhausted _ _ => "CONFIG_TOKEN_SPACE_EXHAUSTED"
  | notAliased _ => "CONFIG_NAME_NOT_ENCODED"
  | finalAnswerAsInput _ => "CONFIG_FINAL_ANSWER_AS_INPUT"
  | defaultMissing _ => "CONFIG_DEFAULT_MISSING"
  | defaultNotNumeric _ => "CONFIG_DEFAULT_NOT_NUMERIC"
  | randomBoundsUnrepresentable _ _ _ _ => "CONFIG_RANDOM_BOUNDS_UNREPRESENTABLE"
  | step fault _ => fault.code
  | decoyRangeTooLarge _ _ _ => "CONFIG_DECOY_RANGE_TOO_LARGE"
  | insufficientDecoys _ _ => "DECOY_INSUFFICIENT"
  | notANumber _ => "RESULT_NOT_A_NUMBER"
  | noAnswers => "API_STATIC_ANSWERS_EMPTY"
  | noCorrectAnswer => "API_STATIC_NO_CORRECT_ANSWER"

/-- A range in a message. -/
def rangeText (min max : Float) : String :=
  "[" ++ Decimal.plain min ++ ", " ++ Decimal.plain max ++ "]"

/-- What an author is told of a fault. -/
def message : Fault → String
  | unreadable => "Question definition is not valid JSON:"
  | emptyDraft => "Please add at least 1 variable and 1 method for dynamic questions."
  | emptyName => "Variable names cannot be empty."
  | duplicateName name => "Variable name \"" ++ name ++ "\" is declared more than once."
  | randomizedFinalAnswer name =>
    "Final answer \"" ++ name ++ "\" is derived from methods and cannot be randomized."
  | decimalPlacesMissing name => "Invalid name or decimal places for \"" ++ name ++ "\"."
  | stepSizeInvalid name => "Step size must be a positive number for \"" ++ name ++ "\"."
  | wrongAnswersInverted name min max =>
    "Wrong answer range for \"" ++ name ++ "\" starts above its end (" ++ Decimal.plain min ++
      "% > " ++ Decimal.plain max ++ "%)."
  | randomBoundsMissing name => "Randomized variable \"" ++ name ++ "\" needs both min and max."
  | randomBoundsInvalid name min max =>
    "Randomized variable \"" ++ name ++ "\" has an invalid range " ++ rangeText min max ++ "."
  | randomBoundsTooWide name min max =>
    "Randomized variable \"" ++ name ++ "\" has a range " ++ rangeText min max ++
      " too wide to draw from."
  | noFinalAnswer => "No final answers specified."
  | emptyMethod index => "Method " ++ Decimal.natText index ++ " cannot be empty."
  | noWrongAnswers => "incorrectOptionCount must be at least 1."
  | noAliases => "tokenLength and maxTokenAttempts must be at least 1."
  | alreadyAliased name => "\"" ++ name ++ "\" already has an internal token."
  | aliasesExhausted name attempts =>
    "Could not find a collision-free internal name for \"" ++ name ++ "\" after " ++
      Decimal.natText attempts ++ " attempts."
  | notAliased name => "Variable \"" ++ name ++ "\" has no internal token."
  | finalAnswerAsInput name => "Final answer \"" ++ name ++ "\" cannot be resolved as an input."
  | defaultMissing name => "Variable \"" ++ name ++ "\" needs a default value."
  | defaultNotNumeric name =>
    "Default value of \"" ++ name ++ "\" must be a number or a valid math expression."
  | randomBoundsUnrepresentable name places min max =>
    "No value with " ++ Decimal.natText places.toNat ++ " decimal places lies in " ++
      rangeText min max ++ " for \"" ++ name ++ "\"."
  | step fault _ => fault.message
  | decoyStepInvalid size => "Decoy step must be positive, got " ++ Decimal.plain size ++ "."
  | decoyRangeInverted min max => "Decoy range " ++ rangeText min max ++ " is inverted."
  | decoyRangeTooLarge min max size =>
    "Decoy range " ++ rangeText min max ++ " with step " ++ Decimal.plain size ++
      " produces more than " ++ Decimal.natText deviationLimit ++ " deviations."
  | insufficientDecoys name percentages =>
    "Not enough wrong answers for variable " ++ name ++
      ". Try increasing the decimal places, step size or range. Your settings generated: [" ++
      ",".intercalate percentages ++ "]"
  | notANumber name =>
    "Final answer \"" ++ name ++
      "\" is not a number, please check that it is used in your methods correctly."
  | noAnswers => "Static questions need at least one answer."
  | noCorrectAnswer => "Static questions need a correct answer."

end Fault

end FormulaQuiz
