import SchemaBridge.Schema

/-!
# Losses of a conversion

What a successful conversion leaves out. A `Loss` names the message, the field if there is one, and
the cause; causes fall into eight kinds.
-/

namespace SchemaBridge

inductive LossKind where
  | boundDiscarded
  | scalarWidened
  | nestingFlattened
  | enumFlattened
  | enumDropped
  | constantAsComment
  | defaultDropped
  | presenceDropped
deriving DecidableEq, Inhabited

def LossKind.text : LossKind → String
  | .boundDiscarded => "bound discarded"
  | .scalarWidened => "scalar widened"
  | .nestingFlattened => "nesting flattened"
  | .enumFlattened => "enum flattened"
  | .enumDropped => "enum dropped"
  | .constantAsComment => "constant as comment"
  | .defaultDropped => "default dropped"
  | .presenceDropped => "presence dropped"

/-- What is left out. -/
inductive LossCause where
  | bound (b : Bound)
  /-- The width or encoding of a scalar. -/
  | scalar (source target : Scalar)
  /-- A well-known type becomes a message that stands for another one too. -/
  | wellKnown (w : WellKnown)
  /-- The values of an enum need a wider scalar than the policy asks for. -/
  | enumWidth (name : String) (used : Scalar)
  | nesting (parent : TypeName)
  | enum (name : String) (used : Scalar)
  /-- An enum that no field refers to. -/
  | unusedEnum
  | constant (c : Constant)
  | default (value : String)
  /-- The difference between an absent value and the default one. -/
  | presence
deriving DecidableEq, Inhabited

def LossCause.kind : LossCause → LossKind
  | .bound _ => .boundDiscarded
  | .scalar _ _ | .wellKnown _ | .enumWidth _ _ => .scalarWidened
  | .nesting _ => .nestingFlattened
  | .enum _ _ => .enumFlattened
  | .unusedEnum => .enumDropped
  | .constant _ => .constantAsComment
  | .default _ => .defaultDropped
  | .presence => .presenceDropped

def LossCause.detail : LossCause → String
  | .bound b => b.text
  | .scalar source target => source.keyword ++ " → " ++ target.keyword
  | .wellKnown w => w.protoName ++ " → " ++ w.rosName
  | .enumWidth name used => "values of `" ++ name ++ "` do not fit uint8, used " ++ used.keyword
  | .nesting parent => "nested in `" ++ parent.dottedPath ++ "`, emitted as a sibling message"
  | .enum name used => "enum `" ++ name ++ "` became " ++ used.keyword ++ " constants"
  | .unusedEnum => "not referenced by any message field"
  | .constant c => c.type.keyword ++ " " ++ c.name ++ " = " ++ c.value
  | .default value => "default `" ++ value ++ "`"
  | .presence => "proto3 optional"

/-- Something left out, and where; an enum that is left out stands in the place of a message. -/
structure Loss where
  message : String
  field : Option String
  cause : LossCause
deriving DecidableEq, Inhabited

namespace Loss

def inField (message : Message) (field : Field) (cause : LossCause) : Loss :=
  ⟨message.name, some field.name, cause⟩

def inMessage (message : Message) (cause : LossCause) : Loss := ⟨message.name, none, cause⟩

/-- The place of a loss: message, and field if there is one. -/
def place (l : Loss) : String :=
  match l.field with
  | some field => l.message ++ "." ++ field
  | none => l.message

def text (l : Loss) : String := l.place ++ ": " ++ l.cause.kind.text ++ ": " ++ l.cause.detail

end Loss

/-- A converted schema and what the conversion left out. -/
structure Conversion where
  schema : Schema
  losses : List Loss
deriving Inhabited

end SchemaBridge
