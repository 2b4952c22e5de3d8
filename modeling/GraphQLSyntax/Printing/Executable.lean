import GraphQLSyntax.Printing.Value
import GraphQLSyntax.Tree.Executable

/-!
# Printing executable documents

A selection set is a block with one selection a line; definitions are separated
by an empty line, and the document ends with a line end.
-/

namespace GraphQLSyntax

variable {α : Type}

def FragmentSpread.print (x : FragmentSpread α) : String :=
  "..." ++ x.name.value ++ enclose " " (Directive.printList x.directives) ""

mutual

def SelectionSet.print : SelectionSet α → String
  | ⟨selections, _⟩ => block (Selection.printAll selections)
termination_by structural x => x

def Selection.printAll : List (Selection α) → List String
  | [] => []
  | x :: xs => x.print :: Selection.printAll xs
termination_by structural xs => xs

def Selection.print : Selection α → String
  | .field x => x.print
  | .spread x => x.print
  | .inline x => x.print
termination_by structural x => x

def Field.print : Field α → String
  | ⟨aliasName, name, arguments, directives, selectionSet, _⟩ =>
    joinParts
      [enclose "" ((aliasName.map Name.print).getD "") ": " ++ name.print ++
          Argument.printList arguments,
        Directive.printList directives, SelectionSet.printOption selectionSet]
      " "
termination_by structural x => x

def SelectionSet.printOption : Option (SelectionSet α) → String
  | none => ""
  | some x => x.print
termination_by structural x => x

def InlineFragment.print : InlineFragment α → String
  | ⟨typeCondition, directives, selectionSet, _⟩ =>
    joinParts
      ["... on " ++ typeCondition.print, Directive.printList directives, selectionSet.print]
      " "
termination_by structural x => x

end

@[simp] theorem Selection.printAll_eq_map (xs : List (Selection α)) :
    Selection.printAll xs = xs.map Selection.print := by
  induction xs with
  | nil => rfl
  | cons x xs ih => simp [Selection.printAll, ih]

def VariableDefinition.print (x : VariableDefinition α) : String :=
  x.var.print ++ ": " ++ x.type.print ++ Value.printDefault x.defaultValue

/-- Variable definitions in parentheses, or nothing if there are none. -/
def VariableDefinition.printList (xs : List (VariableDefinition α)) : String :=
  enclose "(" (joinParts (xs.map VariableDefinition.print) ", ") ")"

/-- An operation can be written as its selection set alone. -/
def OperationDefinition.isBare (x : OperationDefinition α) : Bool :=
  x.operation == .query && x.name.isNone && x.variableDefinitions.isEmpty &&
    x.directives.isEmpty

def OperationDefinition.print (x : OperationDefinition α) : String :=
  if x.isBare then x.selectionSet.print
  else
    joinParts
      [x.operation.keyword,
        ((x.name.map Name.print).getD "") ++ VariableDefinition.printList x.variableDefinitions,
        Directive.printList x.directives, x.selectionSet.print]
      " "

def FragmentDefinition.print (x : FragmentDefinition α) : String :=
  joinParts
    ["fragment " ++ x.name.value ++ " on " ++ x.typeCondition.print,
      Directive.printList x.directives, x.selectionSet.print]
    " "

def Definition.print : Definition α → String
  | .operation x => x.print
  | .fragment x => x.print

def Document.print (x : Document α) : String :=
  joinParts (x.definitions.map Definition.print) "\n\n" ++ "\n"

end GraphQLSyntax
