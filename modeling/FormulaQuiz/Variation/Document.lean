import FormulaQuiz.Json.Printer
import FormulaQuiz.Variation.Preview

/-!
# Variations as documents

A variation is written with a way to write floats as parameter.
-/

namespace FormulaQuiz

/-- An option as a document. -/
def AnswerOption.toJson (o : AnswerOption) : Json :=
  .ofMembers [("content", .text o.content), ("isCorrect", .bool o.isCorrect),
    ("isLatex", .bool o.isLatex)]

/-- An input as a document. -/
def ShownVariable.toJson (float : Float → Json) (v : ShownVariable) : Json :=
  .ofMembers [("name", .text v.name), ("unit", .text? v.unit), ("value", float v.value),
    ("display", .text v.display)]

/-- A variation as a document. -/
def Variation.toJson (float : Float → Json) (v : Variation) : Json :=
  .ofMembers [("variables", .array (v.shown.map (·.toJson float))),
    ("answers", .array (v.answers.map (·.toJson)))]

/-- The report on a final answer as a document. -/
def FinalAnswerPreview.toJson (float : Float → Json) (p : FinalAnswerPreview) : Json :=
  .ofMembers [("name", .text p.name), ("unit", .text? p.unit), ("value", float p.value),
    ("display", .text p.display), ("percentages", .array (p.percentages.map .text)),
    ("incorrectValues", .array (p.incorrectValues.map float))]

/-- A variation with its report as a document. -/
def Preview.toJson (float : Float → Json) (p : Preview) : Json :=
  .ofMembers [("finalAnswers", .array (p.finalAnswers.map (·.toJson float))),
    ("instance", p.variation.toJson float)]

end FormulaQuiz
