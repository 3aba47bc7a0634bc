import FormulaQuiz.Cli.Arguments
import FormulaQuiz.Cli.FileTree
import FormulaQuiz.Variation.Document
import FormulaQuiz.Variation.Request

/-!
# What a command reports

A report is an exit code and lines.  The first line tells whether the command succeeded; the lines
after it have a label each.  All that an author wrote stands in string literals, so it cannot begin
a line.
-/

namespace FormulaQuiz.Cli

/-- Why a command fails. -/
inductive Failure where
  | question (fault : Fault)
  | notFound (path : String)
  | notFile (path : String)
  | notDirectory (path : String)
  | noDefinitions (path : String)
  /-- The bytes of a file are no text. -/
  | notText
  | checkFailed (failed total : Nat)

/-- How the name of a file with a question ends. -/
def definitionSuffix : String := ".question.json"

namespace Failure

/-- The code of a failure. -/
def code : Failure → String
  | question fault => fault.code
  | notFound _ => "CLI_SOURCE_NOT_FOUND"
  | notFile _ => "CLI_SOURCE_NOT_FILE"
  | notDirectory _ => "CLI_SOURCE_NOT_DIR"
  | noDefinitions _ => "CLI_SOURCE_EMPTY"
  | notText => "CLI_SOURCE_READ"
  | checkFailed _ _ => "CLI_CHECK_FAILED"

/-- What is told of a failure. -/
def message : Failure → String
  | question fault => fault.message
  | notFound path => "path does not exist: " ++ path
  | notFile path => "definition is not a file: " ++ path
  | notDirectory path => "dir is not a directory: " ++ path
  | noDefinitions path => "No " ++ definitionSuffix ++ " files under " ++ path
  | notText => "stream did not contain valid UTF-8"
  | checkFailed failed total =>
    Decimal.natText failed ++ " of " ++ Decimal.natText total ++ " definitions failed."

/-- More about a failure, for a fault that has more. -/
def detail? : Failure → Option Json
  | question (.step _ r) =>
    some (.ofMembers [("kind", .text "expression"), ("index", .nat r.index),
      ("expr", .text r.expr), ("sanitized", .text r.plain), ("encoded", .text? r.encoded)])
  | question (.insufficientDecoys name percentages) =>
    some (.ofMembers [("kind", .text "decoys"), ("variable", .text name),
      ("percentages", .array (percentages.map .text))])
  | _ => none

end Failure

/-- What a command reports. -/
structure Report where
  exitCode : UInt32
  lines : List String
deriving DecidableEq, Repr

/-- The report on a command line that is none. -/
def Report.usage : Report := ⟨2, []⟩

/-- A text as a string literal. -/
def literal (text : String) : String := (Json.text text).compact

/-- The lines on a failure. -/
def failureLines (failure : Failure) : List String :=
  ["RESULT:ERROR", "ERROR_CODE:" ++ failure.code, "ERROR_MSG_JSON:" ++ literal failure.message] ++
    (failure.detail?.map fun json ↦ "ERROR_DETAIL_JSON:" ++ json.compact).toList

/-- The report on a failure. -/
def Report.ofFailure (failure : Failure) : Report := ⟨1, failureLines failure⟩

/-- The lines of a text. -/
def splitLines (cs : List Char) : List (List Char) :=
  cs.foldr (fun c lines ↦
    if c = '\n' then [] :: lines
    else match lines with
      | line :: lines => (c :: line) :: lines
      | [] => [[c]]) [[]]

/-- The report on a document, on one line or on several. -/
def Report.ofDocument (label : String) (pretty : Bool) (json : Json) : Report :=
  let text := label ++ ":" ++ (if pretty then json.pretty else json.compact)
  ⟨0, "RESULT:OK" :: (splitLines text.toList).map String.ofList⟩

/-- The draft in the bytes of a file. -/
def draftOfBytes (bytes : ByteArray) : Except Failure Draft :=
  match String.fromUTF8? bytes with
  | none => .error .notText
  | some text =>
    match Draft.ofText? text with
    | some draft => .ok draft
    | none => .error (.question .unreadable)

/-- The draft in the file that a path names. -/
def draftAt (path : String) : Option FileTree → Except Failure Draft
  | none => .error (.notFound path)
  | some (.file bytes) => draftOfBytes bytes
  | some (.directory _) => .error (.notFile path)

/-- A result, the fault of which is a failure. -/
def orFailure {α : Type} : Except Fault α → Except Failure α
  | .ok x => .ok x
  | .error fault => .error (.question fault)

/-- A file with a question, and what is wrong with it. -/
structure CheckedFile where
  /-- The path from the directory. -/
  relative : String
  failure : Option Failure

/-- The path of a file from the directory under which it was found; backslashes count as slashes. -/
def FoundFile.relative (f : FoundFile) : String :=
  String.ofList (("/".intercalate f.components).toList.map fun c ↦ if c = '\\' then '/' else c)

/-- Whether a file under a directory has a question: the whole path ends in the suffix. -/
def FoundFile.hasQuestion (f : FoundFile) : Bool :=
  definitionSuffix.toList.isSuffixOf ("/" ++ "/".intercalate f.components).toList

/-- The order of the files of a check: by their paths, and of equal ones by the names on the way. -/
def FoundFile.before (f g : FoundFile) : Bool :=
  if f.relative = g.relative then !g.components.lex f.components fun a b ↦ decide (a < b)
  else decide (f.relative ≤ g.relative)

/-- The files with questions in a tree, in order. -/
def questionFiles (tree : FileTree) : List FoundFile :=
  (tree.files.filter FoundFile.hasQuestion).mergeSort FoundFile.before

/-- What is wrong with the question in some bytes. -/
def failureOf? (bytes : ByteArray) : Option Failure :=
  match draftOfBytes bytes >>= fun draft ↦ orFailure draft.validate with
  | .ok _ => none
  | .error failure => some failure

/-- Checks a file. -/
def FoundFile.check (f : FoundFile) : CheckedFile := ⟨f.relative, failureOf? f.bytes⟩

/-- The line on a file. -/
def CheckedFile.line (f : CheckedFile) : String :=
  match f.failure with
  | none => "FILE_OK:" ++ literal f.relative
  | some failure =>
    "FILE_ERROR:" ++ literal f.relative ++ "|" ++ failure.code ++ "|" ++ literal failure.message

/-- The report on some files. -/
def Report.ofFiles (files : List CheckedFile) : Report :=
  let failed := (files.filter fun f ↦ f.failure.isSome).length
  let lines := files.map CheckedFile.line ++ ["CHECKED:" ++ Decimal.natText files.length]
  if failed = 0 then ⟨0, "RESULT:OK" :: lines⟩
  else ⟨1, failureLines (.checkFailed failed files.length) ++ lines⟩

/-- The report of a check of the directory that a path names. -/
def checkReport (path : String) : Option FileTree → Except Failure Report
  | none => .error (.notFound path)
  | some (.file _) => .error (.notDirectory path)
  | some (.directory entries) =>
    match questionFiles (.directory entries) with
    | [] => .error (.noDefinitions path)
    | files => .ok (.ofFiles (files.map FoundFile.check))

namespace Command

/-- The path that a command is about. -/
def path : Command → String
  | generate definition _ _ _ => definition
  | preview definition _ _ => definition
  | check dir => dir

/-- The report of a command, or its failure, when its absolute path names the given tree; `entropy`
is the seed if none is given. -/
def outcome (path : String) (tree : Option FileTree) (entropy : UInt64) :
    Command → Except Failure Report
  | generate _ seed randomize pretty => do
    let draft ← draftAt path tree
    let variation ← orFailure (Request.generate { draft, randomize } (seed.getD entropy))
    return .ofDocument "INSTANCE_JSON" pretty (variation.toJson Json.float)
  | preview _ seed randomize => do
    let draft ← draftAt path tree
    let preview ← orFailure (draft.preview randomize (seed.getD entropy))
    return .ofDocument "PREVIEW_JSON" false (preview.toJson Json.float)
  | check _ => checkReport path tree

/-- The report of a command when its absolute path names the given tree. -/
def report (command : Command) (path : String) (tree : Option FileTree) (entropy : UInt64) :
    Report :=
  match command.outcome path tree entropy with
  | .ok report => report
  | .error failure => .ofFailure failure

end Command

end FormulaQuiz.Cli
