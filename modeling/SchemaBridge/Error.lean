/-!
# Errors

A conversion of one file fails with a `ConversionError`: its text is malformed, it declares something
the other language cannot express, a reference means nothing or more than one thing, or two
declarations take the same name. A `GenerateError` is such an error or one of writing the result. A
`DecodeError` concerns a whole request and not one file. `message` words each error for the reader.
-/

namespace SchemaBridge

/-! ## ROS messages -/

/-- What is wrong with a line of a ROS message. -/
inductive LineFault where
  | noDeclaration
  /-- A value is given to a name whose type is not a plain scalar. -/
  | constantType
  | leftOver (text : String)
deriving DecidableEq, Inhabited

def LineFault.reason : LineFault → String
  | .noDeclaration => "expected `TYPE NAME` or `TYPE NAME=VALUE`"
  | .constantType => "constants must have a non-array scalar type"
  | .leftOver text => "unexpected `" ++ text ++ "`"

/-- A rejected line: the column, counted in bytes from one, and what is wrong there. -/
structure LineError where
  column : Nat
  fault : LineFault
deriving DecidableEq, Inhabited

/-- What is wrong with a ROS message. -/
inductive ParseFault where
  /-- The path has no part that could name a file. -/
  | emptyFileName
  | messageName (stem : String)
  | line (fault : LineFault)
  | declaredTwice (name : String)
deriving DecidableEq, Inhabited

def ParseFault.reason : ParseFault → String
  | .emptyFileName => "empty file name"
  | .messageName stem => "`" ++ stem ++ "` is not a valid message name"
  | .line fault => fault.reason
  | .declaredTwice name => "duplicate name `" ++ name ++ "`"

/-- A malformed ROS message: line and column are counted from one, and are zero if the file's name is
at fault; `text` is the whole line. -/
structure ParseError where
  file : String
  line : Nat
  column : Nat
  text : String
  fault : ParseFault
deriving DecidableEq, Inhabited

def ParseError.message (e : ParseError) : String :=
  e.file ++ ":" ++ toString e.line ++ ":" ++ toString e.column ++ ": " ++ e.fault.reason ++ ": `" ++
    e.text ++ "`"

/-! ## Conversions -/

/-- A construct that has no counterpart in the other language. -/
inductive Construct where
  | oneof
  | any
  | extension
  | option (name : String)
  | service
  /-- A file that is not written in proto3. -/
  | fileSyntax (name : String)
  /-- A type of `google.protobuf` without a counterpart. -/
  | wellKnown (name : String)
deriving DecidableEq, Inhabited

def Construct.text : Construct → String
  | .oneof => "oneof"
  | .any => "any"
  | .extension => "extension"
  | .option name => "option `" ++ name ++ "`"
  | .service => "service"
  | .fileSyntax name => "syntax \"" ++ name ++ "\""
  | .wellKnown name => "well-known type `" ++ name ++ "`"

/-- Where in a file a construct stands. -/
inductive Place where
  | file
  | message (name : String)
  | field (owner name : String)
deriving DecidableEq, Inhabited

/-- The wording of a place, to be read after the file's name. -/
def Place.text : Place → String
  | .file => ""
  | .message name => " (message `" ++ name ++ "`)"
  | .field owner name => " (field `" ++ owner ++ "." ++ name ++ "`)"

/-- An error that stops the conversion of one file and of no other. -/
inductive ConversionError where
  | parse (error : ParseError)
  | unsupported (construct : Construct) (file : String) (place : Place)
  | unresolved (name file message field : String)
  /-- A name that more than one type has; `candidates` tells them apart. -/
  | ambiguous (name file : String) (candidates : List String)
  /-- A name that a generated message would declare more than once, and what declares it. -/
  | duplicate (name file message : String) (sources : List String)
deriving DecidableEq, Inhabited

def ConversionError.message : ConversionError → String
  | .parse error => error.message
  | .unsupported construct file place =>
    "unsupported " ++ construct.text ++ " in '" ++ file ++ "'" ++ place.text
  | .unresolved name file message field =>
    "unresolved type '" ++ name ++ "' in '" ++ file ++ "' (field `" ++ message ++ "." ++ field ++ "`)"
  | .ambiguous name file candidates =>
    "ambiguous type '" ++ name ++ "' in '" ++ file ++ "': defined by " ++ ", ".intercalate candidates
  | .duplicate name file message sources =>
    "duplicate name `" ++ name ++ "` in '" ++ file ++ "' (message `" ++ message ++ "`): declared by " ++
      ", ".intercalate sources

instance : ToString ConversionError := ⟨ConversionError.message⟩

/-- Why nothing is generated for a file. -/
inductive GenerateError where
  | conversion (error : ConversionError)
  /-- The text of a generated file could not be written; the text says why. -/
  | render (text : String)
  | json (text : String)
deriving DecidableEq, Inhabited

def GenerateError.message : GenerateError → String
  | .conversion error => error.message
  | .render text => "failed to render output: " ++ text
  | .json text => "failed to serialize JSON: " ++ text

instance : ToString GenerateError := ⟨GenerateError.message⟩

/-! ## Requests -/

/-- What is wrong with an entry of a plugin's parameter. -/
inductive ParameterFault where
  /-- A switch is given a value that is no truth value. -/
  | truthValue (word : String)
  | enumRepr (word : String)
  | missingValue
  | unknownOption (key : String)
deriving DecidableEq, Inhabited

def unknownRepr (word : String) : String :=
  "unknown enum representation '" ++ word ++ "' (expected auto | uint8 | int32)"

def ParameterFault.reason : ParameterFault → String
  | .truthValue word => "expected true | false, got '" ++ word ++ "'"
  | .enumRepr word => unknownRepr word
  | .missingValue => "missing value"
  | .unknownOption key => "unknown option '" ++ key ++ "'"

/-- Why a request or a descriptor cannot be used at all. -/
inductive DecodeError where
  | empty
  /-- The bytes are not in the wire format. Why is for the reader of the format to say, and `message`
  tells it. -/
  | malformed
  /-- A file to generate is not among the files of the request. -/
  | missingFile (name : String)
  | parameter (entry : String) (fault : ParameterFault)
  /-- The bytes could not be read. -/
  | io (text : String)
deriving DecidableEq, Inhabited

/-- The wording of an error; `explanation` is what the reader of the wire format says of malformed bytes,
if it is to be told. -/
def DecodeError.message (e : DecodeError) (explanation : Option String := none) : String :=
  match e with
  | .empty => "empty code generator request"
  | .malformed => "malformed code generator request" ++ (explanation.map (": " ++ ·)).getD ""
  | .missingFile name => "file to generate '" ++ name ++ "' is missing from the request"
  | .parameter entry fault => "invalid plugin parameter '" ++ entry ++ "': " ++ fault.reason
  | .io text => text

end SchemaBridge
