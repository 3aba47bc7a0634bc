import FormulaQuiz.Formula.Capture
import FormulaQuiz.Formula.Token
import FormulaQuiz.Formula.Vocabulary

/-!
# Reading terms from tokens

A term is read from the front of some tokens, with a limit on its nesting so that no formula is too
deep to evaluate.  A formula is one expression.  A script, which a formula may hold in a text, is a
sequence of them, with statements that an expression has not.
-/

namespace FormulaQuiz.Formula

/-- What a term is a part of. -/
inductive Context where
  /-- In a formula: a block holds one expression. -/
  | formula
  /-- In a function of a formula: a block may also stand for an expression. -/
  | closure
  /-- In a script: a block holds a sequence, and there are no functions. -/
  | script
deriving DecidableEq, Repr

/-- What is known where a term is read. -/
structure Mode where
  context : Context
  /-- How deep the term is nested. -/
  level : Nat
  /-- Whether the term is in a loop. -/
  inLoop : Bool
  /-- Whether the term is outside of all blocks. -/
  outermost : Bool
  /-- Whether a pipe may stand between operands. -/
  pipes : Bool
  /-- The variables that are new in the surroundings, with whether each is constant. -/
  scope : List (String × Bool)

/-- How deep a term may be nested. -/
def nestingLimit : Nat := 64

namespace Mode

/-- The mode of a whole formula or script. -/
def outer (context : Context) : Mode := ⟨context, 0, false, true, true, []⟩

/-- A mode `n` levels deeper, if the limit admits it. -/
def deeper (mode : Mode) (n : Nat) : Option Mode :=
  if mode.level + n ≤ nestingLimit then some { mode with level := mode.level + n } else none

/-- The mode in the body of a loop. -/
def looping (mode : Mode) : Mode := { mode with inLoop := true }

/-- The mode after some variables became new. -/
def declaring (mode : Mode) (new : List (String × Bool)) : Mode :=
  { mode with scope := new ++ mode.scope }

/-- The mode in the body of a function. -/
def inFunction (mode : Mode) (parameters : List String) : Mode :=
  ⟨.closure, mode.level, false, false, true, parameters.map (·, false)⟩

end Mode

/-- A step of reading: it takes tokens from the front, or fails. -/
abbrev Parser := StateT (List Token) Option

namespace Parser

/-- The token in front, which stays there. -/
def peek : Parser (Option Token) := return (← get).head?

/-- The token in front, which is taken. -/
def take : Parser Token := do
  match ← get with
  | [] => failure
  | token :: rest =>
    set rest
    return token

/-- Takes a token, if it is in front. -/
def accept (token : Token) : Parser Bool := do
  if (← peek) == some token then
    let _ ← take
    return true
  else return false

/-- Takes a token, which must be in front. -/
def expect (token : Token) : Parser Unit := do
  guard (← accept token)

/-- Fails if a token is in front. -/
def refuse (token : Token) : Parser Unit := do
  guard ((← peek) != some token)

/-- Takes a name. -/
def name : Parser String := do
  match ← take with
  | .word name => if isName name then return name else failure
  | _ => failure

/-- Whether nothing follows a word that may have a value after it. -/
def atEnd (outermost : Bool) : Parser Bool := do
  match ← peek with
  | none | some .semicolon => return true
  | some .closeBrace => return !outermost
  | _ => return false

/-- Reads terms with commas between them, and perhaps after them, up to a closing token. -/
def items (item : Parser Term) (close : Token) : (count : Nat) → Parser (List Term)
  | 0 => failure
  | count + 1 => do
    if ← accept close then return []
    let t ← item
    if ← accept .comma then return t :: (← items item close count)
    expect close
    return [t]

/-- Reads terms under names, with commas between them, and perhaps after them, up to a closing
brace. -/
def entries (item : Parser Term) :
    (count : Nat) → (seen : List String) → Parser (List String × List Term)
  | 0, _ => failure
  | count + 1, seen => do
    if ← accept .closeBrace then return ([], [])
    let key ← match ← take with
      | .word key => if isName key then pure key else failure
      | .text key => pure key
      | _ => failure
    guard (!seen.contains key)
    expect .colon
    let t ← item
    if ← accept .comma then
      let (keys, ts) ← entries item count (key :: seen)
      return (key :: keys, t :: ts)
    expect .closeBrace
    return ([key], [t])

/-- Reads the names of parameters up to a pipe. -/
def parameters : (count : Nat) → (seen : List String) → Parser (List String)
  | 0, _ => failure
  | count + 1, seen => do
    if ← accept (.operator .pipe) then return []
    let parameter ← name
    guard (!seen.contains parameter)
    if ← accept .comma then return parameter :: (← parameters count (parameter :: seen))
    expect (.operator .pipe)
    return [parameter]

/-- How the terms in a term are read: an expression, and one of a sequence. -/
structure Readers where
  expression : Mode → Parser Term
  statement : Mode → Parser Term

section

variable (read : Readers) (count : Nat)

/-- Reads a condition, which is seen to be no other value than a truth value. -/
def condition (mode : Mode) : Parser Term := do
  refuse .openBrace
  let t ← read.expression mode
  guard (!t.isPlain)
  refuse .equals
  return t

/-- Reads what may be nothing. -/
def possibleStatement (mode : Mode) : Parser Term := do
  if (← peek).isNone then return .unit
  if ← accept .semicolon then return .unit
  read.statement mode

/-- Reads the rest of a sequence, up to a closing brace or to the end of a script. -/
def sequence (braced : Bool) : (count : Nat) → Mode → Parser (List Term)
  | 0, _ => failure
  | count + 1, mode => do
    if ← accept .semicolon then return ← sequence braced count mode
    match ← peek with
    | none =>
      guard (!braced)
      return []
    | some .closeBrace =>
      guard braced
      expect .closeBrace
      return []
    | some _ =>
      let t ← read.statement mode
      unless t.endsItself do
        match ← peek with
        | none | some .semicolon | some .closeBrace => pure ()
        | some _ => failure
      return t :: (← sequence braced count (mode.declaring t.declared))

/-- Reads an expression with the change of it that may follow. -/
def expressionStatement (mode : Mode) : Parser Term := do
  let mode ← mode.deeper 1
  let t ← read.expression mode
  let op? ← match ← peek with
    | some .equals => pure (some none)
    | some (.assignment op) => pure (some (some op))
    | _ => pure none
  match op? with
  | none => return t
  | some op =>
    let _ ← take
    let value ← read.expression mode
    guard (t.isPlace mode.scope)
    return .assign op t value

/-- Reads a block in braces. -/
def block (mode : Mode) : Parser Term := do
  expect .openBrace
  if mode.context = .script then
    return .block (← sequence read true count { ← mode.deeper 1 with outermost := false })
  else
    let t ← expressionStatement read mode
    expect .closeBrace
    return .block [t]

/-- Reads what follows the word of a condition. -/
def conditional : (count : Nat) → Mode → Parser Term
  | 0, _ => failure
  | count + 1, mode => do
    let mode ← mode.deeper 1
    let test ← condition read mode
    let yes ← block read count mode
    if ← accept (.word "else") then
      let no ← if ← accept (.word "if") then conditional count mode else block read count mode
      return .conditional test yes no
    else return .conditional test yes .unit

/-- Reads patterns with pipes between them. -/
def patterns : (count : Nat) → Mode → Parser (List Term)
  | 0, _ => failure
  | count + 1, mode => do
    let pattern ← read.expression { mode with pipes := false }
    guard pattern.isLiteral
    if ← accept (.operator .pipe) then return pattern :: (← patterns count mode)
    return [pattern]

/-- Reads an action of a selection; whether a comma must follow it. -/
def action (mode : Mode) : Parser (Term × Bool) := do
  expect .arrow
  if mode.context = .script then
    let t ← possibleStatement read mode
    return (.block [t], !t.endsItself)
  else return (← read.expression mode, true)

/-- Takes what separates an action from the next case. -/
def endCase (needed : Bool) : Parser Unit := do
  unless ← accept .comma do
    guard (!needed || (← peek) == some .closeBrace)

/-- Reads the cases of a selection; the one for all other values comes last. -/
def cases :
    (count : Nat) → Mode → (otherwise? : Option Term) → Parser (List Case × Option Term)
  | 0, _, _ => failure
  | count + 1, mode, otherwise? => do
    if ← accept .closeBrace then return ([], otherwise?)
    guard otherwise?.isNone
    if ← accept (.word "_") then
      let (t, needed) ← action read mode
      endCase needed
      cases count mode (some t)
    else
      let values ← patterns read count mode
      let test ← if ← accept (.word "if") then condition read mode else pure (.truth true)
      let (t, needed) ← action read mode
      endCase needed
      let (rest, otherwise?) ← cases count mode otherwise?
      return (.mk values test t :: rest, otherwise?)

/-- Reads what follows the word of a selection. -/
def selection (mode : Mode) : Parser Term := do
  let mode ← mode.deeper 1
  let subject ← read.expression mode
  expect .openBrace
  let (cases, otherwise?) ← cases read count mode none
  return .selection subject cases (otherwise?.getD .unit)

/-- Reads what follows the word of a loop with its guard in front, or of one without guard. -/
def whileLoop (guarded : Bool) (mode : Mode) : Parser Term := do
  let mode ← mode.deeper 1
  let test ← if guarded then condition read mode else pure (.truth true)
  return .whileLoop test (← block read count mode.looping)

/-- Reads what follows the word of a loop with its guard at the end. -/
def doLoop (mode : Mode) : Parser Term := do
  let mode ← mode.deeper 1
  let body ← block read count mode.looping
  let goesOn ← accept (.word "while")
  unless goesOn do expect (.word "until")
  return .doLoop body (← condition read mode) goesOn

/-- Reads what follows the word of a loop over items. -/
def forLoop (mode : Mode) : Parser Term := do
  let mode ← mode.deeper 1
  let names ← if ← accept .opening then do
      let item ← name
      expect .comma
      let counter ← name
      guard (item != counter)
      expect .closing
      pure [item, counter]
    else do pure [← name]
  expect (.word "in")
  refuse .openBrace
  let items ← read.expression mode
  guard (!items.isSingle)
  let body ← block read count (mode.declaring (names.map (·, false))).looping
  return .forLoop names items body

/-- Reads what follows the word of an attempt. -/
def attempt (mode : Mode) : Parser Term := do
  let mode ← mode.deeper 1
  let body ← block read count mode
  expect (.word "catch")
  let failed? ← if ← accept .opening then do
      let failed ← name
      expect .closing
      pure (some failed)
    else pure none
  let handler ← block read count (mode.declaring (failed?.toList.map (·, false)))
  return .attempt body failed? handler

/-- Reads what follows the word of a new variable. -/
def declaration (constant : Bool) (mode : Mode) : Parser Term := do
  let mode ← mode.deeper 1
  let declared ← name
  let value ← if ← accept .equals then read.expression mode else pure .unit
  return .declare constant declared value

/-- Reads what follows the word of an offer. -/
def publication (mode : Mode) : Parser Term := do
  guard mode.outermost
  if ← accept (.word "let") then declaration read false mode
  else if ← accept (.word "const") then declaration read true mode
  else
    let published ← name
    if ← accept (.word "as") then
      let _ ← name
    return .publish published

/-- Reads a value that may be missing. -/
def possibleValue (outermost : Bool) (mode : Mode) : Parser Term := do
  if ← atEnd outermost then return .unit
  read.expression (← mode.deeper 1)

/-- Reads one of a sequence that begins with a word of its own, which is taken; none, if there is no
such form. -/
def wordStatement? (word : String) (mode : Mode) : Option (Parser Term) :=
  match word with
  | "if" => some do conditional read count (← mode.deeper 1)
  | "switch" => some do selection read count (← mode.deeper 1)
  | "while" => some do whileLoop read count true (← mode.deeper 1)
  | "loop" => some do whileLoop read count false (← mode.deeper 1)
  | "do" => some do doLoop read count (← mode.deeper 1)
  | "for" => some do forLoop read count (← mode.deeper 1)
  | "continue" => some do
    guard mode.inLoop
    return .next
  | "break" => some do
    guard mode.inLoop
    return .leave (← possibleValue read false mode)
  | "return" => some do return .result (← possibleValue read mode.outermost mode)
  | "throw" => some do return .raise (← possibleValue read mode.outermost mode)
  | "try" => some do attempt read count (← mode.deeper 1)
  | "let" => some do declaration read false (← mode.deeper 1)
  | "const" => some do declaration read true (← mode.deeper 1)
  | "import" => some do
    let path ← read.expression (← mode.deeper 2)
    if ← accept (.word "as") then
      let _ ← name
    return .loadModule path
  | "export" => some do publication read (← mode.deeper 1)
  | _ => none

/-- Reads one of a sequence. -/
def statementStep (mode : Mode) : Parser Term := do
  match ← peek with
  | some .openBrace => block read count (← mode.deeper 1)
  | some (.word word) =>
    match wordStatement? read count word mode with
    | some statement =>
      let _ ← take
      statement
    | none => expressionStatement read mode
  | _ => expressionStatement read mode

/-- Reads a function without name, whose first pipe is taken; a double pipe is both. -/
def closure (hasParameters : Bool) (mode : Mode) : Parser Term := do
  guard (mode.context ≠ .script)
  let names ← if hasParameters then parameters count [] else pure []
  let body ← possibleStatement read (← (mode.inFunction names).deeper 2)
  return .closure names (Term.captured names body) body

/-- Reads the rest of a template, which comes with a block first. -/
def templateParts : (count : Nat) → Mode → Parser (List Term)
  | 0, _ => failure
  | count + 1, mode => do
    let t ← block read count mode
    match ← take with
    | .text content => return [t, .text content]
    | .templateText content => return t :: .text content :: (← templateParts count mode)
    | _ => failure

/-- Reads an operand that begins with a word, which is taken. -/
def wordOperand (word : String) (mode : Mode) : Parser Term := do
  if word = "true" then return .truth true
  else if word = "false" then return .truth false
  else if word = "if" then return .block [← conditional read count (← mode.deeper 1)]
  else if word = "switch" then return .block [← selection read count (← mode.deeper 1)]
  else if word = "this" then
    guard (mode.context = .closure)
    return .self
  else if isName word then return .variable word
  else if callableWords.contains word then
    match ← peek with
    | some .opening | some .bang => return .variable word
    | _ => failure
  else
    guard (mode.context ≠ .formula ∧ ["while", "loop", "do", "for"].contains word)
    match wordStatement? read count word mode with
    | some loop => return .block [← loop]
    | none => failure

/-- Reads an operand without signs and links, whose first token is taken. -/
def primary (mode : Mode) : Token → Parser Term
  | .number x => return .number x
  | .integer n => return .integer n
  | .text content => return .text content
  | .character c => return .character c
  | .templateText content => do
    return .template (.text content :: (← templateParts read count (← mode.deeper 1)))
  | .opening => do
    let t ← read.expression (← mode.deeper 1)
    expect .closing
    return t
  | .openBracket => do
    let mode ← mode.deeper 2
    return .list (← items (read.expression mode) .closeBracket count)
  | .openRecord => do
    let mode ← mode.deeper 2
    let (names, ts) ← entries (read.expression mode) count []
    return .record names ts
  | .openBrace => do
    guard (mode.context ≠ .formula)
    expectBlock (← mode.deeper 1)
  | .operator .either => closure read count false mode
  | .operator .pipe => closure read count true mode
  | .word word => wordOperand read count word mode
  | _ => failure
where
  /-- Reads a block whose opening brace is taken. -/
  expectBlock (mode : Mode) : Parser Term := do
    modify (.openBrace :: ·)
    block read count mode

/-- Reads the arguments of a call, whose opening parenthesis is taken. -/
def arguments (mode : Mode) : Parser (List Term) := do
  if ← accept .closing then return []
  let mode ← mode.deeper 1
  items (read.expression mode) .closing count

/-- Reads indices one after the other, the first of whose brackets is taken; each is one level
deeper than the one before. -/
def indices :
    (count : Nat) → Mode → (left? : Option Term) → (optional : Bool) → Parser (List Link)
  | 0, _, _, _ => failure
  | count + 1, mode, left?, optional => do
    let index ← read.expression (← mode.deeper 1)
    guard (left?.all (·.mayIndex index))
    expect .closeBracket
    let link := Link.index optional index
    if ← accept .openBracket then
      return link :: (← indices count (← mode.deeper 1) none false)
    if ← accept .optionalBracket then
      return link :: (← indices count (← mode.deeper 1) none true)
    return [link]

/-- Reads methods, properties and indices; `left?` is the term before them, if nothing is
between. -/
def links : (count : Nat) → Mode → (left? : Option Term) → Parser (List Link)
  | 0, _, _ => failure
  | count + 1, mode, left? => do
    if ← accept .point then
      let mode ← mode.deeper 1
      let .word part ← take | failure
      if ← accept .opening then
        guard (isName part ∨ methodWords.contains part)
        let link := Link.method part (← arguments read count mode)
        return link :: (← links count mode none)
      guard (isName part)
      return .property part :: (← links count mode none)
    let optional ← accept .optionalBracket
    if ← (do if optional then return true else accept .openBracket) then
      let parts ← indices read count (← mode.deeper 1) left? optional
      return parts ++ (← links count mode none)
    return []

/-- Reads what turns a variable into a call or into a variable of a module. -/
def called : (count : Nat) → Mode → Term → Parser Term
  | 0, _, _ => failure
  | count + 1, mode, .variable word => do
    if ← accept .opening then return .call word false (← arguments read count mode)
    if ← accept .bang then
      expect .opening
      return .call word true (← arguments read count mode)
    if ← accept .doubleColon then called count mode (.foreign [word] (← name))
    else return .variable word
  | count + 1, mode, .foreign path word => do
    if ← accept .opening then return .foreignCall path word (← arguments read count mode)
    refuse .bang
    if ← accept .doubleColon then called count mode (.foreign (path ++ [word]) (← name))
    else return .foreign path word
  | _ + 1, _, t => return t

/-- Reads an operand with its signs. -/
def operand : (count : Nat) → Mode → Parser Term
  | 0, _ => failure
  | count + 1, mode => do
    match ← take with
    | .sign minus => return (← operand count (← mode.deeper 1)).withSign minus
    | .bang => return .negated (← operand count (← mode.deeper 1))
    | token =>
      let t ← primary read count mode token
      let t ← called read count mode t
      return t.follow (← links read count mode (some t))

/-- The operator in front that may stand between operands. -/
def nextOperator? (pipes : Bool) : Parser (Option Operator) := do
  let some token ← peek | return none
  match token.operator? with
  | some .pipe => return if pipes then some .pipe else none
  | op? => return op?

/-- Reads the operators after a term that bind at least as tightly as `floor`, with their
operands; each is one level deeper than the one before. -/
def operators : (count : Nat) → Mode → (floor : Nat) → (left : Term) → Parser Term
  | 0, _, _, _ => failure
  | count + 1, mode, floor, left => do
    match ← nextOperator? mode.pipes with
    | none => return left
    | some op =>
      if op.precedence < floor ∨ op.precedence = floor ∧ !op.groupsRight then return left
      let _ ← take
      let right ← operand read count mode
      let tighter := (← nextOperator? true).any op.yieldsTo
      let right ← if tighter then do
          operators count (← mode.deeper 1) op.precedence right
        else pure right
      let whole ← Term.combine? op left right
      operators count (← mode.deeper 1) floor whole

/-- Reads a term with its operators. -/
def expressionStep (mode : Mode) : Parser Term := do
  let mode ← mode.deeper 1
  let t ← operand read count mode
  operators read count mode 1 t

end

mutual

/-- Reads an expression that has no more than `count` tokens. -/
def expression : (count : Nat) → Mode → Parser Term
  | 0, _ => failure
  | count + 1, mode => expressionStep ⟨expression count, statement count⟩ count mode
termination_by structural count => count

/-- Reads one of a sequence that has no more than `count` tokens. -/
def statement : (count : Nat) → Mode → Parser Term
  | 0, _ => failure
  | count + 1, mode => statementStep ⟨expression count, statement count⟩ count mode
termination_by structural count => count

end

/-- The result of reading all of a text; `count` bounds the steps for a number of tokens. -/
def whole? {α : Type} (p : Nat → Parser α) (text : String) : Option α := do
  let tokens ← Token.ofText? text
  let (a, rest) ← (p (2 * tokens.length + 2)).run tokens
  guard rest.isEmpty
  return a

end Parser

/-- The term that a formula, as it is written for evaluation, is. -/
def Term.ofFormula? (text : String) : Option Term :=
  Parser.whole? (Parser.expression · (.outer .formula)) text

/-- The terms that a script is. -/
def Term.ofScript? (text : String) : Option (List Term) :=
  Parser.whole?
    (fun count ↦ Parser.sequence ⟨Parser.expression count, Parser.statement count⟩ false count
      (.outer .script)) text

end FormulaQuiz.Formula
