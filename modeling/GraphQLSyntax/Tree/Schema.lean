import GraphQLSyntax.Tree.Value

/-!
# Schema documents

Definitions of types, interfaces, unions, scalars, enums and input objects.
-/

namespace GraphQLSyntax

variable {α β : Type}

/-- An argument that a field takes. -/
structure ArgumentDefinition (α : Type) where
  name : Name α
  type : TypeRef α
  defaultValue : Option (Value α)
  tag : α

/-- A field of a type or an interface. -/
structure FieldDefinition (α : Type) where
  name : Name α
  arguments : List (ArgumentDefinition α)
  type : TypeRef α
  tag : α

/-- A field of an input object. -/
structure InputFieldDefinition (α : Type) where
  name : Name α
  type : TypeRef α
  defaultValue : Option (Value α)
  tag : α

/-- A type with its fields and the interfaces it implements. -/
structure TypeDefinition (α : Type) where
  name : Name α
  interfaces : List (NamedType α)
  fields : List (FieldDefinition α)
  tag : α

/-- An interface. -/
structure InterfaceDefinition (α : Type) where
  name : Name α
  fields : List (FieldDefinition α)
  tag : α

/-- A union of types. -/
structure UnionDefinition (α : Type) where
  name : Name α
  types : List (NamedType α)
  tag : α

/-- A scalar type. -/
structure ScalarDefinition (α : Type) where
  name : Name α
  tag : α

/-- A value of an enum. -/
structure EnumValueDefinition (α : Type) where
  name : Name α
  tag : α

/-- An enum. -/
structure EnumDefinition (α : Type) where
  name : Name α
  values : List (EnumValueDefinition α)
  tag : α

/-- An input object. -/
structure InputObjectDefinition (α : Type) where
  name : Name α
  fields : List (InputFieldDefinition α)
  tag : α

/-- A definition of a schema document. -/
inductive SchemaDefinition (α : Type)
  | type (x : TypeDefinition α)
  | interface (x : InterfaceDefinition α)
  | union (x : UnionDefinition α)
  | scalar (x : ScalarDefinition α)
  | enum (x : EnumDefinition α)
  | inputObject (x : InputObjectDefinition α)

/-- A schema document. -/
structure SchemaDocument (α : Type) where
  definitions : List (SchemaDefinition α)
  tag : α

/-! ## Changing tags -/

def ArgumentDefinition.map (f : α → β) (x : ArgumentDefinition α) :
    ArgumentDefinition β :=
  ⟨x.name.map f, x.type.map f, x.defaultValue.map (Value.map f), f x.tag⟩

def FieldDefinition.map (f : α → β) (x : FieldDefinition α) : FieldDefinition β :=
  ⟨x.name.map f, x.arguments.map (ArgumentDefinition.map f), x.type.map f, f x.tag⟩

def InputFieldDefinition.map (f : α → β) (x : InputFieldDefinition α) :
    InputFieldDefinition β :=
  ⟨x.name.map f, x.type.map f, x.defaultValue.map (Value.map f), f x.tag⟩

def TypeDefinition.map (f : α → β) (x : TypeDefinition α) : TypeDefinition β :=
  ⟨x.name.map f, x.interfaces.map (NamedType.map f), x.fields.map (FieldDefinition.map f),
    f x.tag⟩

def InterfaceDefinition.map (f : α → β) (x : InterfaceDefinition α) :
    InterfaceDefinition β :=
  ⟨x.name.map f, x.fields.map (FieldDefinition.map f), f x.tag⟩

def UnionDefinition.map (f : α → β) (x : UnionDefinition α) : UnionDefinition β :=
  ⟨x.name.map f, x.types.map (NamedType.map f), f x.tag⟩

def ScalarDefinition.map (f : α → β) (x : ScalarDefinition α) : ScalarDefinition β :=
  ⟨x.name.map f, f x.tag⟩

def EnumValueDefinition.map (f : α → β) (x : EnumValueDefinition α) :
    EnumValueDefinition β :=
  ⟨x.name.map f, f x.tag⟩

def EnumDefinition.map (f : α → β) (x : EnumDefinition α) : EnumDefinition β :=
  ⟨x.name.map f, x.values.map (EnumValueDefinition.map f), f x.tag⟩

def InputObjectDefinition.map (f : α → β) (x : InputObjectDefinition α) :
    InputObjectDefinition β :=
  ⟨x.name.map f, x.fields.map (InputFieldDefinition.map f), f x.tag⟩

def SchemaDefinition.map (f : α → β) : SchemaDefinition α → SchemaDefinition β
  | .type x => .type (x.map f)
  | .interface x => .interface (x.map f)
  | .union x => .union (x.map f)
  | .scalar x => .scalar (x.map f)
  | .enum x => .enum (x.map f)
  | .inputObject x => .inputObject (x.map f)

def SchemaDocument.map (f : α → β) (x : SchemaDocument α) : SchemaDocument β :=
  ⟨x.definitions.map (SchemaDefinition.map f), f x.tag⟩

/-! ## Facts about definitions -/

/-- The name that a definition defines. -/
def SchemaDefinition.name : SchemaDefinition α → Name α
  | .type x => x.name
  | .interface x => x.name
  | .union x => x.name
  | .scalar x => x.name
  | .enum x => x.name
  | .inputObject x => x.name

end GraphQLSyntax
