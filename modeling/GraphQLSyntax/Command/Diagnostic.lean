import GraphQLSyntax.Json
import GraphQLSyntax.SyntaxError

/-!
# Diagnostics as JSON
-/

namespace GraphQLSyntax

/-- The category of a syntax error as JSON: a name, or an object under that name if the
category carries one. -/
def Category.toJson : Category → Json
  | lexical => .text "LexerError"
  | unexpectedToken => .text "UnexpectedToken"
  | duplicateInputObjectField name =>
    .object [("DuplicateInputObjectField", .object [("name", .text name)])]
  | reservedName name => .object [("ReservedName", .object [("name", .text name)])]

/-- The JSON of a category tells which one it is, and the name it carries. -/
theorem Category.toJson_inj {category category' : Category} :
    category.toJson = category'.toJson ↔ category = category' := by
  cases category <;> cases category' <;> simp [toJson]

/-- A syntax error as JSON. -/
def SyntaxError.toJson (error : SyntaxError) : Json :=
  .object
    [("file", .text error.source.name), ("line", .number error.position.line),
      ("column", .number error.position.column), ("kind", error.category.toJson),
      ("description", .text error.description)]

/-- The JSON of an error tells its file, its place, its category and its wording, and nothing
else. -/
theorem SyntaxError.toJson_eq_iff {error error' : SyntaxError} :
    error.toJson = error'.toJson ↔
      error.source.name = error'.source.name ∧ error.position = error'.position ∧
        error.category = error'.category ∧ error.description = error'.description := by
  have hposition : error.position = error'.position ↔
      error.position.line = error'.position.line ∧
        error.position.column = error'.position.column := by
    cases error.position
    cases error'.position
    simp
  simp only [toJson, Json.object.injEq, List.cons.injEq, Prod.mk.injEq, Json.text.injEq,
    Json.number.injEq, Int.ofNat_inj, Category.toJson_inj, hposition, true_and, and_true, and_assoc]

end GraphQLSyntax
