import FormulaQuiz.Decimal.Digits

/-!
# The command line

A command line names a command and its options, each at most once.  An option has its value after an
equals sign or in the next argument, which may begin with a minus sign only if it is nothing else.
-/

namespace FormulaQuiz.Cli

/-- A command with its options. -/
inductive Command where
  /-- Make one variation of a question. -/
  | generate (definition : String) (seed : Option UInt64) (randomize pretty : Bool)
  /-- Show how the wrong answers of a question come about. -/
  | preview (definition : String) (seed : Option UInt64) (randomize : Bool)
  /-- Check all questions in a directory. -/
  | check (dir : String)
deriving DecidableEq, Repr

/-- An option with its value, if it takes one. -/
abbrev Given := List (String × Option String)

/-- The name of an option and the text after the equals sign, if an argument is a long option. -/
def splitOption? (argument : String) : Option (String × Option String) :=
  match argument.toList with
  | '-' :: '-' :: cs =>
    let name := String.ofList (cs.takeWhile (· != '='))
    match cs.dropWhile (· != '=') with
    | [] => some (name, none)
    | _ :: attached => some (name, some (String.ofList attached))
  | _ => none

/-- Whether an argument may be the value of the option before it. -/
def mayBeValue (argument : String) : Bool := argument == "-" || argument.toList.head? != some '-'

/-- The options in some arguments; two dashes may end them. -/
def options? (valued flags : List String) : List String → Option Given
  | [] => some []
  | ["--"] => some []
  | [argument] => do
    let (name, attached) ← splitOption? argument
    guard (if attached.isSome then valued.contains name else flags.contains name)
    some [(name, attached)]
  | argument :: next :: rest => do
    let (name, attached) ← splitOption? argument
    if valued.contains name then
      match attached with
      | some _ => some ((name, attached) :: (← options? valued flags (next :: rest)))
      | none => do
        guard (mayBeValue next)
        some ((name, some next) :: (← options? valued flags rest))
    else do
      guard (flags.contains name ∧ attached.isNone)
      some ((name, none) :: (← options? valued flags (next :: rest)))

namespace Given

/-- Whether no option is given twice. -/
def isOnce (given : Given) : Bool := (given.map (·.1)).eraseDups.length == given.length

/-- Whether an option is given. -/
def has (given : Given) (name : String) : Bool := (given.lookup name).isSome

/-- The value of an option. -/
def value? (given : Given) (name : String) : Option String := (given.lookup name).join

/-- The seed, if one is given; none if it is no number of 64 bits. -/
def seed? (given : Given) : Option (Option UInt64) :=
  match given.value? "seed" with
  | none => some none
  | some text =>
    let cs := text.toList
    let digits := if cs.head? = some '+' then cs.drop 1 else cs
    if digits ≠ [] ∧ digits.all Decimal.isDigit ∧ Decimal.value digits < 1 <<< 64 then
      some (some (UInt64.ofNat (Decimal.value digits)))
    else none

end Given

/-- The command that a name and its arguments are. -/
def Command.ofArguments? (name : String) (arguments : List String) : Option Command := do
  let valued := if name = "check" then ["dir"] else ["definition", "seed"]
  let flags :=
    if name = "generate" then ["no-randomize", "pretty"]
    else if name = "preview" then ["randomize"] else []
  let given ← options? valued ("verbose" :: flags) arguments
  guard given.isOnce
  match name with
  | "generate" =>
    some (.generate (← given.value? "definition") (← given.seed?) (!given.has "no-randomize")
      (given.has "pretty"))
  | "preview" =>
    some (.preview (← given.value? "definition") (← given.seed?) (given.has "randomize"))
  | "check" => some (.check (← given.value? "dir"))
  | _ => none

/-- The command that a command line is.  How much is logged may be told before the command or after
it. -/
def Command.ofLine? : List String → Option Command
  | "--verbose" :: name :: arguments => Command.ofArguments? name arguments
  | name :: arguments => Command.ofArguments? name arguments
  | [] => none

end FormulaQuiz.Cli
