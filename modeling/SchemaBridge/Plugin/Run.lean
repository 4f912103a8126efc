import SchemaBridge.Descriptor.ToSchema
import SchemaBridge.Plugin.Request
import SchemaBridge.Plugin.Target

/-!
# Runs of a plugin

A run reads one request and writes one response. It passes through the states

    awaitingRequest → decoding → generating → encoding → done

and from any of them to `failed`. A run that fails writes a response with nothing but the error. A file
that fails does not make the run fail unless the options are strict.
-/

namespace SchemaBridge

namespace Plugin

/-! ## States, errors and channels -/

/-- How far a run has come. -/
inductive RunState where
  | awaitingRequest
  | decoding
  | generating
  | encoding
  | done
  | failed
deriving DecidableEq, Inhabited

variable {ε α : Type}

/-- Why a run fails; the errors of files are of the type `ε`. -/
inductive RunError (ε : Type := ConversionError) where
  | decode (error : DecodeError)
  /-- A file fails under strict options. -/
  | strict (file : String) (error : ε)
  | io (text : String)
deriving DecidableEq, Inhabited

def RunError.message [ToString ε] (e : RunError ε) (explanation : Option String := none) : String :=
  match e with
  | .decode error => error.message explanation
  | .strict file error => file ++ ": " ++ toString error
  | .io text => "failed to write code generator response: " ++ text

/-- The input and output of a run: the bytes that can be read, or why they cannot, and why writing
fails, if it does. -/
structure Channels where
  input : Except String (List UInt8)
  writeError : Option String := none
  /-- How many bytes get through before writing fails. -/
  room : Nat := 0
  /-- How the reader of the wire format explains that the bytes are malformed, if they are. -/
  explanation : Option String := none

/-- The bytes of a response that get through. -/
def Channels.passed (channels : Channels) (response : Response) : List UInt8 :=
  match channels.writeError with
  | some _ => response.encode.take channels.room
  | none => response.encode

/-! ## Steps -/

/-- The state of a run and what it has written so far, one part for each response. -/
structure Session where
  state : RunState := .awaitingRequest
  written : List (List UInt8) := []
deriving DecidableEq, Inhabited

/-- A step of a run; what it does to the session lasts even if it fails. -/
abbrev Step (ε : Type) := ExceptT (RunError ε) (StateM Session)

namespace Step

def enter (state : RunState) : Step ε Unit := modify fun s => { s with state }

/-- Writes a response, or what gets through of it before writing fails. -/
def send (channels : Channels) (response : Response) : Step ε Unit := do
  modify fun s => { s with written := s.written ++ [channels.passed response] }
  match channels.writeError with
  | some text => throw (.io text)
  | none => pure ()

/-- Fails with an error, and says so in a response. -/
def fail [ToString ε] (channels : Channels) (error : RunError ε) : Step ε α := do
  enter .failed
  send channels (.ofError (error.message channels.explanation))
  throw error

/-- The value of a computation, or a failure. -/
def orFail [ToString ε] (channels : Channels) (value : Except DecodeError α) : Step ε α :=
  match value with
  | .ok a => pure a
  | .error e => fail channels (.decode e)

/-- Writes the last response; if that is impossible, the run fails without another response. -/
def sendLast (channels : Channels) (response : Response) : Step ε Unit :=
  tryCatch (send channels response) fun e => do
    enter .failed
    throw e

end Step

end Plugin

/-! ## Runs -/

/-- A plugin: a generator, and the options that hold unless the parameter of a request says
otherwise. -/
structure Plugin (ε : Type := ConversionError) where
  generator : Plugin.Generator ε
  options : Plugin.Options := {}

namespace Plugin

variable {ε ε' : Type}

/-- The plugin with the errors of its generator as errors of another type. -/
def mapError (f : ε → ε') (p : Plugin ε) : Plugin ε' :=
  { generator := fun context file => (p.generator context file).mapError f
    options := p.options }

/-- The request that some bytes are, and the options that hold for it. -/
def decode (p : Plugin ε) (bs : List UInt8) : Except DecodeError (Request × Options) := do
  let request ← Request.decode bs
  let options ← p.options.withParameter (request.parameter.getD "")
  pure (request, options)

def Request.context (request : Request) (options : Options) : Context :=
  ⟨.ofFiles (request.files.map FileDescriptor.skeleton), options⟩

/-- The steps of a run. -/
def steps [ToString ε] (p : Plugin ε) (channels : Channels) : Step ε Outcome := do
  let bytes ← Step.orFail channels (channels.input.mapError .io)
  Step.enter .decoding
  let (request, options) ← Step.orFail channels (p.decode bytes)
  Step.enter .generating
  let targets ← Step.orFail channels request.targets
  let results := generateTargets p.generator (request.context options) targets
  match if options.strict then firstFailure? results else none with
  | some (file, error) => Step.fail channels (.strict file error)
  | none =>
    Step.enter .encoding
    Step.sendLast channels (.ofResults results)
    Step.enter .done
    pure (.ofResults results)

/-- What a run gives: its result, the state it ends in, and what was written for each response. -/
structure Report (ε : Type := ConversionError) where
  result : Except (RunError ε) Outcome
  state : RunState
  written : List (List UInt8)

/-- A run that begins in the given state. -/
def run [ToString ε] (p : Plugin ε) (state : RunState) (channels : Channels) : Report ε :=
  let (result, session) := (p.steps channels).run.run { state }
  ⟨result, session.state, session.written⟩

/-- Runs one after the other, the first beginning in the given state and each other one in the state in
which the run before it ended. -/
def runs [ToString ε] (p : Plugin ε) (state : RunState) : List Channels → List (Report ε)
  | [] => []
  | channels :: rest =>
    let report := p.run state channels
    report :: p.runs report.state rest

end Plugin

end SchemaBridge
