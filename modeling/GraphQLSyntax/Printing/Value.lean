import GraphQLSyntax.Text.Layout
import GraphQLSyntax.Tree.Value

/-!
# Printing names, types, values and directives

These are printed on one line.  List items are separated by a comma and a space;
tags do not matter.
-/

namespace GraphQLSyntax

variable {α : Type}

def Name.print (x : Name α) : String :=
  x.value

def NamedType.print (x : NamedType α) : String :=
  x.name.value

def Variable.print (x : Variable α) : String :=
  "$" ++ x.name.value

def BooleanValue.print (x : BooleanValue α) : String :=
  if x.value then "true" else "false"

mutual

def TypeRef.print : TypeRef α → String
  | .named x => x.print
  | .list x => x.print
  | .nonNull x => x.print
termination_by structural x => x

def ListType.print : ListType α → String
  | ⟨item, _⟩ => "[" ++ item.print ++ "]"
termination_by structural x => x

def NullableTypeRef.print : NullableTypeRef α → String
  | .named x => x.print
  | .list x => x.print
termination_by structural x => x

def NonNullType.print : NonNullType α → String
  | ⟨inner, _⟩ => inner.print ++ "!"
termination_by structural x => x

end

mutual

def Value.print : Value α → String
  | .var x => x.print
  | .int x => x.text
  | .float x => x.text
  | .string x => quote x.text
  | .boolean x => x.print
  | .enum x => x.text
  | .list x => x.print
  | .object x => x.print
termination_by structural x => x

def ListValue.print : ListValue α → String
  | ⟨values, _⟩ => "[" ++ joinParts (Value.printAll values) ", " ++ "]"
termination_by structural x => x

def Value.printAll : List (Value α) → List String
  | [] => []
  | x :: xs => x.print :: Value.printAll xs
termination_by structural xs => xs

def ObjectValue.print : ObjectValue α → String
  | ⟨fields, _⟩ => "\x7b" ++ joinParts (ObjectField.printAll fields) ", " ++ "\x7d"
termination_by structural x => x

def ObjectField.printAll : List (ObjectField α) → List String
  | [] => []
  | x :: xs => x.print :: ObjectField.printAll xs
termination_by structural xs => xs

def ObjectField.print : ObjectField α → String
  | ⟨name, value, _⟩ => name.value ++ ": " ++ value.print
termination_by structural x => x

end

@[simp] theorem Value.printAll_eq_map (xs : List (Value α)) :
    Value.printAll xs = xs.map Value.print := by
  induction xs with
  | nil => rfl
  | cons x xs ih => simp [Value.printAll, ih]

@[simp] theorem ObjectField.printAll_eq_map (xs : List (ObjectField α)) :
    ObjectField.printAll xs = xs.map ObjectField.print := by
  induction xs with
  | nil => rfl
  | cons x xs ih => simp [ObjectField.printAll, ih]

def Argument.print (x : Argument α) : String :=
  x.name.value ++ ": " ++ x.value.print

/-- Arguments in parentheses, or nothing if there are none. -/
def Argument.printList (xs : List (Argument α)) : String :=
  enclose "(" (joinParts (xs.map Argument.print) ", ") ")"

def Directive.print (x : Directive α) : String :=
  "@" ++ x.name.value ++ Argument.printList x.arguments

/-- Directives, separated by spaces. -/
def Directive.printList (xs : List (Directive α)) : String :=
  joinParts (xs.map Directive.print) " "

/-- A default value after an equals sign, or nothing if there is none. -/
def Value.printDefault (x : Option (Value α)) : String :=
  enclose " = " ((x.map Value.print).getD "") ""

end GraphQLSyntax
