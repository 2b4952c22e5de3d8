/-!
# Names, types and literals

The small parts that all documents are made of.  Every node of a tree carries a
tag of a type `α` that the tree does not look at: the range of bytes the node
was read from, an identity, or nothing at all.  `map` changes the tags and
nothing else, so erasing them is mapping to `Unit`.
-/

namespace GraphQLSyntax

variable {α β : Type}

/-- An identifier. -/
structure Name (α : Type) where
  value : String
  tag : α

/-- The name of a type in the place of a type. -/
structure NamedType (α : Type) where
  name : Name α
  tag : α

mutual

/-- A type as fields, arguments and variables refer to it. -/
inductive TypeRef (α : Type)
  | named (type : NamedType α)
  | list (type : ListType α)
  | nonNull (type : NonNullType α)

/-- A list type, written in brackets. -/
structure ListType (α : Type) where
  item : TypeRef α
  tag : α

/-- A type without an exclamation mark. -/
inductive NullableTypeRef (α : Type)
  | named (type : NamedType α)
  | list (type : ListType α)

/-- A type followed by an exclamation mark. -/
structure NonNullType (α : Type) where
  inner : NullableTypeRef α
  tag : α

end

/-- A use of a variable, written after a dollar sign. -/
structure Variable (α : Type) where
  name : Name α
  tag : α

/-- The text of an integer, a float, a string or an enum value: numbers and enum
values as they are spelled, strings decoded. -/
structure Literal (α : Type) where
  text : String
  tag : α

/-- One of the names `true` and `false` in the place of a value. -/
structure BooleanValue (α : Type) where
  value : Bool
  tag : α

/-! ## Changing tags -/

def Name.map (f : α → β) (x : Name α) : Name β :=
  ⟨x.value, f x.tag⟩

def NamedType.map (f : α → β) (x : NamedType α) : NamedType β :=
  ⟨x.name.map f, f x.tag⟩

def Variable.map (f : α → β) (x : Variable α) : Variable β :=
  ⟨x.name.map f, f x.tag⟩

def Literal.map (f : α → β) (x : Literal α) : Literal β :=
  ⟨x.text, f x.tag⟩

def BooleanValue.map (f : α → β) (x : BooleanValue α) : BooleanValue β :=
  ⟨x.value, f x.tag⟩

mutual

def TypeRef.map (f : α → β) : TypeRef α → TypeRef β
  | .named x => .named (x.map f)
  | .list x => .list (x.map f)
  | .nonNull x => .nonNull (x.map f)
termination_by structural x => x

def ListType.map (f : α → β) : ListType α → ListType β
  | ⟨item, tag⟩ => ⟨item.map f, f tag⟩
termination_by structural x => x

def NullableTypeRef.map (f : α → β) : NullableTypeRef α → NullableTypeRef β
  | .named x => .named (x.map f)
  | .list x => .list (x.map f)
termination_by structural x => x

def NonNullType.map (f : α → β) : NonNullType α → NonNullType β
  | ⟨inner, tag⟩ => ⟨inner.map f, f tag⟩
termination_by structural x => x

end

/-! ## Facts about types -/

/-- A nullable type in the place of any type. -/
def NullableTypeRef.toTypeRef : NullableTypeRef α → TypeRef α
  | .named x => .named x
  | .list x => .list x

mutual

/-- The name inside all brackets and before all exclamation marks. -/
def TypeRef.innermostName : TypeRef α → String
  | .named x => x.name.value
  | .list x => x.innermostName
  | .nonNull x => x.innermostName
termination_by structural x => x

/-- The name inside a list type. -/
def ListType.innermostName : ListType α → String
  | ⟨item, _⟩ => item.innermostName
termination_by structural x => x

/-- The name inside a nullable type. -/
def NullableTypeRef.innermostName : NullableTypeRef α → String
  | .named x => x.name.value
  | .list x => x.innermostName
termination_by structural x => x

/-- The name inside a non-null type. -/
def NonNullType.innermostName : NonNullType α → String
  | ⟨inner, _⟩ => inner.innermostName
termination_by structural x => x

end

/-- The type ends in an exclamation mark. -/
def TypeRef.isNonNull : TypeRef α → Bool
  | .nonNull _ => true
  | _ => false

end GraphQLSyntax
