import SchemaBridge.Plugin.RosMessages
import SchemaBridge.Proofs.PartByPart
import SchemaBridge.Proofs.PluginRun

/-!
# Files to generate do not disturb each other

The response of a lenient run is made of the entries of the files to generate, one file after the other
(`run_of_accepts`). The entries of a file are those that the generator makes of its descriptor, the
options and the names that all files declare; what else the other files declare, and whether they fail,
makes no difference to them (`run_isolates`).
-/

namespace SchemaBridge

/-! ## What the names of a file are taken from -/

/-- An enum with nothing but what its skeleton is made of. -/
def EnumDescriptor.bare (e : EnumDescriptor) : EnumDescriptor :=
  { name := e.name, values := e.values.map fun v => { name := v.name, number := v.number } }

mutual

/-- A message with nothing but what its skeleton is made of: its name and the types nested in it. -/
def MessageDescriptor.bare : MessageDescriptor → MessageDescriptor
  | ⟨name, _, nested, enums, _, _, _, _⟩ =>
    { name, nested := bareAll nested, enums := enums.map EnumDescriptor.bare }

def MessageDescriptor.bareAll : List MessageDescriptor → List MessageDescriptor
  | [] => []
  | m :: ms => bare m :: bareAll ms

end

/-- A file with nothing but what its skeleton is made of: no fields, oneofs, options, extensions,
services or comments, and no language. -/
def FileDescriptor.bare (f : FileDescriptor) : FileDescriptor :=
  { name := f.name
    package := f.package
    dependencies := f.dependencies
    messages := MessageDescriptor.bareAll f.messages
    enums := f.enums.map EnumDescriptor.bare }

theorem EnumDescriptor.skeleton_bare (e : EnumDescriptor) : e.bare.skeleton = e.skeleton := by
  simp [bare, skeleton, EnumValueDescriptor.value]

mutual

theorem MessageDescriptor.skeleton_bare : ∀ m : MessageDescriptor, m.bare.skeleton = m.skeleton
  | ⟨name, fields, nested, enums, ranges, extensions, options, oneofs⟩ => by
    simp only [bare, skeleton, skeletons_bareAll nested, List.map_map, Function.comp_def,
      EnumDescriptor.skeleton_bare]

theorem MessageDescriptor.skeletons_bareAll :
    ∀ ms : List MessageDescriptor, skeletons (bareAll ms) = skeletons ms
  | [] => rfl
  | m :: ms => by simp only [bareAll, skeletons, skeleton_bare m, skeletons_bareAll ms]

end

/-- The skeleton of a file depends on nothing but the names that it declares. -/
theorem FileDescriptor.skeleton_bare (f : FileDescriptor) : f.bare.skeleton = f.skeleton := by
  simp only [bare, skeleton, MessageDescriptor.skeletons_bareAll, List.map_map, Function.comp_def,
    EnumDescriptor.skeleton_bare]

namespace Plugin

variable {ε : Type} {p : Plugin ε} {bs : List UInt8} {request : Request} {options : Options}
  {name : String} {f : FileDescriptor} {names : List String} {targets : List FileDescriptor}

/-! ## The entries of a file to generate -/

/-- The bytes are a request that a lenient run generates all files for. -/
structure Accepts (p : Plugin ε) (bs : List UInt8) (request : Request) (options : Options) :
    Prop where
  decoded : Request.decode bs = .ok request
  chosen : p.options.withParameter (request.parameter.getD "") = .ok options
  lenient : options.strict = false
  present : ∀ name ∈ request.filesToGenerate, (request.file? name).isSome

/-- What the generator makes of the file `name` of a request. -/
def resultOf? (p : Plugin ε) (request : Request) (options : Options) (name : String) :
    Option (Except ε (List OutputFile)) :=
  (request.file? name).map (p.generator (request.context options))

/-- The output files that the file `name` of a request gives: those of the generator, or one that tells
why there are none. -/
def contribution [ToString ε] (p : Plugin ε) (request : Request) (options : Options)
    (name : String) : List OutputFile :=
  match p.resultOf? request options name with
  | some (.ok files) => files
  | some (.error e) => [⟨name ++ ".error", toString e ++ "\n"⟩]
  | none => []

/-- Whether the generator fails on the file `name` of a request. -/
def fails (p : Plugin ε) (request : Request) (options : Options) (name : String) : Bool :=
  match p.resultOf? request options name with
  | some (.error _) => true
  | _ => false

theorem name_of_file? (h : request.file? name = some f) : f.name.getD "" = name := by
  have hmem := List.mem_of_getLast? h
  simpa using (List.mem_filter.1 hmem).2

theorem targets_eq_ok_iff :
    request.targets = .ok targets ↔
      List.Forall₂ (fun name f => request.file? name = some f) request.filesToGenerate targets := by
  rw [Request.targets, mapM_eq_ok_iff]
  have hstep : ∀ name f, request.target name = .ok f ↔ request.file? name = some f := by
    intro name f
    rw [Request.target]
    cases request.file? name <;> simp
  simp only [hstep]

/-- The results of the files to generate, each beside the name of its file. -/
theorem forall₂_generateTargets [ToString ε] (p : Plugin ε) (options : Options)
    (h : List.Forall₂ (fun name f => request.file? name = some f) names targets) :
    List.Forall₂ (fun name (t : TargetResult ε) => t.files = p.contribution request options name ∧
        t.name = name ∧ t.error?.isSome = p.fails request options name)
      names (generateTargets p.generator (request.context options) targets) := by
  refine List.forall₂_map_right_iff.2 (h.imp fun name f hf => ?_)
  have hresult : p.resultOf? request options name =
      some (p.generator (request.context options) f) := by
    rw [resultOf?, hf]
    rfl
  rw [contribution, fails, hresult, name_of_file? hf]
  cases p.generator (request.context options) f <;> exact ⟨rfl, rfl, rfl⟩

theorem Accepts.exists_targets (h : p.Accepts bs request options) :
    ∃ targets, request.targets = .ok targets :=
  exists_mapM_of_forall fun name hname => by
    obtain ⟨f, hf⟩ := Option.isSome_iff_exists.1 (h.present name hname)
    exact ⟨f, by rw [Request.target, hf]⟩

/-- The report of a run that answers with the given files; `failed` are the files to generate that
failed. -/
def Report.ofFiles (files : List OutputFile) (failed : List String) : Report ε :=
  { result := .ok { generated := files.map (·.name), failed }
    state := .done
    written :=
      [Response.encode
        { supportedFeatures := some optionalFields
          files := files.map OutputFile.responseFile }] }

/-- A lenient run answers with what the files to generate contribute, in their order. -/
theorem run_of_accepts [ToString ε] (h : p.Accepts bs request options) (state : RunState)
    (explanation : Option String) :
    p.run state { input := .ok bs, explanation } =
      .ofFiles (request.filesToGenerate.flatMap (p.contribution request options))
        (request.filesToGenerate.filter (p.fails request options)) := by
  have hdecode : p.decode bs = .ok (request, options) := by
    rw [decode, h.decoded]
    simp only [bind, Except.bind, h.chosen]
    rfl
  obtain ⟨targets, htargets⟩ := h.exists_targets
  have hattempt : p.attempt (.ok bs) =
      .ok (generateTargets p.generator (request.context options) targets) := by
    simp only [attempt, hdecode, htargets, h.lenient]
    rfl
  have hresults := forall₂_generateTargets p options (targets_eq_ok_iff.1 htargets)
  have hfiles : (generateTargets p.generator (request.context options) targets).flatMap
      TargetResult.files = request.filesToGenerate.flatMap (p.contribution request options) := by
    rw [List.flatMap_def, List.flatMap_def, map_eq_of_forall₂ (hresults.imp fun _ _ ht => ht.1)]
  have hfailed : ((generateTargets p.generator (request.context options) targets).filter
      (·.error?.isSome)).map (·.name) = request.filesToGenerate.filter (p.fails request options) :=
    map_filter_of_forall₂ (hresults.imp fun _ _ ht => ht.2)
  simp only [run_eq, hattempt, Report.ofAttempt, Channels.passed, Response.ofAttempt,
    Outcome.ofResults, Response.ofResults, hfiles, hfailed, Report.ofFiles]

/-- A lenient run answers with what the files to generate contribute, in their order. What a file
contributes, and whether it fails, depends on its own descriptor, the options and the skeletons of all
files of the request; and a skeleton depends on nothing but the names that a file declares. -/
theorem run_isolates [ToString ε] (h : p.Accepts bs request options) (state : RunState)
    (explanation : Option String) :
    p.run state { input := .ok bs, explanation } =
        .ofFiles (request.filesToGenerate.flatMap (p.contribution request options))
          (request.filesToGenerate.filter (p.fails request options)) ∧
      (∀ request' : Request,
        List.Forall₂ (fun f f' => f'.skeleton = f.skeleton) request.files request'.files →
          ∀ name, request'.file? name = request.file? name →
            p.contribution request' options name = p.contribution request options name ∧
              p.fails request' options name = p.fails request options name) ∧
      ∀ f : FileDescriptor, f.bare.skeleton = f.skeleton := by
  refine ⟨run_of_accepts h state explanation, fun request' hskeletons name hsame => ?_,
    FileDescriptor.skeleton_bare⟩
  -- the table of the skeletons is all that a generator sees of the other files
  have hresult : p.resultOf? request' options name = p.resultOf? request options name := by
    rw [resultOf?, resultOf?, hsame, Request.context, Request.context,
      map_eq_of_forall₂ hskeletons]
  rw [contribution, contribution, fails, fails, hresult]
  exact ⟨rfl, rfl⟩

/-! ## A request with a sibling that changes -/

/-- A message of one integer field, which may be one of a oneof. -/
def oneField (message field : String) (oneof : Option Int32) : MessageDescriptor :=
  { name := some message
    fields :=
      [{ name := some field
         number := some 1
         label := some FieldLabel.optional.number
         type := some FieldTypeKind.int32.number
         oneofIndex := oneof }]
    oneofs := (oneof.map fun _ => some "choice").toList }

/-- A request for an arm and a hand, whose field may be one of a oneof. -/
def labRequest (oneof : Option Int32) : Request :=
  { filesToGenerate := ["arm.proto", "hand.proto"]
    files :=
      [{ name := some "arm.proto"
         package := some "lab"
         messages := [oneField "Arm" "angle" none]
         language := some "proto3" },
       { name := some "hand.proto"
         package := some "lab"
         messages := [oneField "Hand" "grip" oneof]
         language := some "proto3" }] }

def labBytes (oneof : Option Int32) : List UInt8 :=
  Wire.encode <| Wire.Record.ofTexts 1 (labRequest oneof).filesToGenerate ++
    Wire.Record.ofRecords 15 ((labRequest oneof).files.map FileDescriptor.toRecord)

set_option maxRecDepth 20000 in
theorem decode_labBytes :
    Request.decode (labBytes none) = .ok (labRequest none) ∧
      Request.decode (labBytes (some 0)) = .ok (labRequest (some 0)) := by
  constructor <;> with_unfolding_all rfl

/-- The hand fails if its field is one of a oneof, and the arm gives the same files as before. -/
theorem run_isolates_lab :
    let p : Plugin := { generator := rosMessages }
    p.Accepts (labBytes none) (labRequest none) {} ∧
      p.Accepts (labBytes (some 0)) (labRequest (some 0)) {} ∧
      (p.run .awaitingRequest { input := .ok (labBytes none) }).result =
        .ok { generated := ["lab/Arm.msg", "lab/Hand.msg"], failed := [] } ∧
      (p.run .awaitingRequest { input := .ok (labBytes (some 0)) }).result =
        .ok { generated := ["lab/Arm.msg", "hand.proto.error"], failed := ["hand.proto"] } ∧
      p.contribution (labRequest (some 0)) {} "arm.proto" =
        p.contribution (labRequest none) {} "arm.proto" := by
  intro p
  have haccepts : p.Accepts (labBytes none) (labRequest none) {} :=
    ⟨decode_labBytes.1, rfl, rfl, by decide⟩
  have haccepts' : p.Accepts (labBytes (some 0)) (labRequest (some 0)) {} :=
    ⟨decode_labBytes.2, rfl, rfl, by decide⟩
  obtain ⟨hrun, hsame, -⟩ := run_isolates haccepts .awaitingRequest none
  obtain ⟨hrun', -, -⟩ := run_isolates haccepts' .awaitingRequest none
  refine ⟨haccepts, haccepts', ?_, ?_, ?_⟩
  · rw [hrun]
    decide +kernel
  · rw [hrun']
    decide +kernel
  · exact (hsame (labRequest (some 0)) (.cons rfl (.cons rfl .nil)) "arm.proto" rfl).1

end Plugin

end SchemaBridge
