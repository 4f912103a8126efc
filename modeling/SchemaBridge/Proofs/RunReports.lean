import SchemaBridge.Proofs.DescriptorConforms
import SchemaBridge.Proofs.PartByPart
import SchemaBridge.Proofs.PluginRun

/-!
# What runs leave behind

A run ends done with an outcome or failed with an error, and tells which in the one response that it
writes (`settled_run`). The response can be read again from its bytes (`Response.decode?_encode`). Of
several runs one after the other each is as if it were the first (`runs_fresh`). All of this holds
whatever the errors of the generator are; errors that are made errors of another type and worded as
before leave the same report (`run_mapError`).
-/

namespace SchemaBridge.Plugin

open Wire Descriptor

/-! ## Responses are read as they are written -/

theorem ResponseFile.ofRecord_toRecord (f : ResponseFile) : ofRecord f.toRecord = f := by
  simp [ofRecord, toRecord, Record.text?, Record.getLast?_toList]

theorem Response.ofRecord_toRecord (r : Response) : ofRecord r.toRecord = r := by
  obtain ⟨error, features, files⟩ := r
  have htexts : Record.texts 1 (features.map (Item.varint 2)).toList = [] := by cases features <;> rfl
  have hvarints : Record.varints 2 (features.map (Item.varint 2)).toList = features.toList := by
    cases features <;> rfl
  have hrecords : Record.records 15 (features.map (Item.varint 2)).toList = [] := by
    cases features <;> rfl
  simp [ofRecord, toRecord, Record.text?, Record.varint?, htexts, hvarints, hrecords,
    Record.getLast?_toList, Function.comp_def, ResponseFile.ofRecord_toRecord]

theorem conforms_responseFile {budget : Nat} (f : ResponseFile) :
    Conforms fieldKind? budget .responseFile f.toRecord := by
  refine .append (.append ?_ ?_) ?_
  · exact conforms_ofText (by decide) rfl _
  · exact conforms_ofText (by decide) rfl _
  · exact conforms_ofText (by decide) rfl _

theorem conforms_response (r : Response) :
    Conforms fieldKind? nestingBudget .response r.toRecord := by
  refine .append (.append (conforms_ofText (by decide) rfl _) ?_) ?_
  · cases r.supportedFeatures with
    | none => exact .nil
    | some n => exact .varint (by decide) (.inl rfl) .nil
  · have hfile : fieldKind? .response 15 = some (.record .responseFile) := rfl
    refine conforms_ofRecords (by decide) hfile fun file hfile => ⟨99, rfl, ?_⟩
    obtain ⟨f, -, rfl⟩ := List.mem_map.1 hfile
    exact conforms_responseFile f

/-- A response is read again from its bytes, if their number can be written in 64 bits. -/
theorem Response.decode?_encode {r : Response} (h : r.encode.length < UInt64.size) :
    decode? r.encode = some r := by
  rw [decode?, decodeRecord?, encode, Wire.decode?_encode (conforms_response r) h, Option.map_some,
    ofRecord_toRecord]

/-! ## One run -/

variable {ε : Type} [ToString ε]

/-- The response tells what a run came to: the error and no files, or the generated files and no
error. An explanation of malformed bytes is told with the error. -/
def Response.Tells (explanation : Option String) (r : Response) :
    Except (RunError ε) Outcome → Prop
  | .ok outcome => r.error = none ∧ r.files.map (·.name) = outcome.generated.map some
  | .error e => r.error = some (e.message explanation) ∧ r.files = []

/-- What a run has to leave behind, whatever its channels do. -/
structure Report.Settled (channels : Channels) (r : Report ε) : Prop where
  done_iff : r.state = .done ↔ ∃ outcome, r.result = .ok outcome
  failed_iff : r.state = .failed ↔ ∃ e, r.result = .error e
  /-- One response is written, it tells what the run came to, and it can be read again. -/
  sent : channels.writeError = none → ∃ response : Response, r.written = [response.encode] ∧
    response.Tells channels.explanation r.result ∧
      (response.encode.length < UInt64.size → Response.decode? response.encode = some response)
  /-- If writing fails, so does the run, and nothing is written after the response that was cut off. -/
  cut : ∀ text, channels.writeError = some text → r.result = .error (.io text) ∧
    ∃ response : Response, r.written = [response.encode.take channels.room]

variable {state : RunState} {channels : Channels} {explanation : Option String}

theorem Response.tells_ofResults (results : List (TargetResult ε)) :
    (Response.ofResults results).Tells (ε := ε) explanation (.ok (.ofResults results)) := by
  refine ⟨rfl, ?_⟩
  simp [Response.ofResults, Outcome.ofResults, OutputFile.responseFile, Function.comp_def]

/-- A report that answers what a run found out leaves behind what it has to. -/
theorem settled_ofAttempt (attempt : Except (RunError ε) (List (TargetResult ε))) :
    (Report.ofAttempt channels attempt).Settled channels := by
  unfold Report.ofAttempt Channels.passed
  cases hwrite : channels.writeError with
  | some text =>
    exact ⟨by simp, by simp, by simp [hwrite], fun _ h => ⟨by simp_all, _, rfl⟩⟩
  | none =>
    cases attempt with
    | ok results =>
      refine ⟨by simp, by simp, fun _ => ⟨_, rfl, ?_, Response.decode?_encode⟩, by simp [hwrite]⟩
      exact Response.tells_ofResults results
    | error e =>
      exact ⟨by simp, by simp, fun _ => ⟨_, rfl, ⟨rfl, rfl⟩, Response.decode?_encode⟩,
        by simp [hwrite]⟩

theorem settled_run (p : Plugin ε) (state : RunState) (channels : Channels) :
    (p.run state channels).Settled channels := by
  rw [run_eq]
  exact settled_ofAttempt _

/-- A run does the same in whatever state it begins. -/
theorem run_fresh (p : Plugin ε) (state : RunState) (channels : Channels) :
    p.run state channels = p.run .awaitingRequest channels := by
  rw [run_eq, run_eq]

/-! ## Errors of another type -/

section

variable {ε' : Type} [ToString ε'] {f : ε → ε'}

def RunError.map {ε ε' : Type} (f : ε → ε') : RunError ε → RunError ε'
  | .decode error => .decode error
  | .strict file error => .strict file (f error)
  | .io text => .io text

def TargetResult.mapError {ε ε' : Type} (f : ε → ε') (t : TargetResult ε) : TargetResult ε' :=
  ⟨t.name, t.result.mapError f⟩

def Report.mapError {ε ε' : Type} (f : ε → ε') (r : Report ε) : Report ε' :=
  ⟨r.result.mapError (RunError.map f), r.state, r.written⟩

/-- What a run found out, with the errors of files as errors of another type. -/
def mapAttempt {ε ε' : Type} (f : ε → ε') :
    Except (RunError ε) (List (TargetResult ε)) → Except (RunError ε') (List (TargetResult ε'))
  | .ok results => .ok (results.map (TargetResult.mapError f))
  | .error e => .error (e.map f)

theorem message_map (hf : ∀ e, toString (f e) = toString e) (e : RunError ε)
    (explanation : Option String) : (e.map f).message explanation = e.message explanation := by
  cases e with
  | decode | io => rfl
  | strict file error => exact congrArg (file ++ ": " ++ ·) (hf error)

theorem TargetResult.files_mapError (hf : ∀ e, toString (f e) = toString e) (t : TargetResult ε) :
    (t.mapError f).files = t.files := by
  unfold files mapError
  cases t.result with
  | ok files => rfl
  | error e => simp only [Except.mapError, hf]

omit [ToString ε] [ToString ε'] in
theorem TargetResult.error?_mapError (t : TargetResult ε) :
    (t.mapError f).error? = t.error?.map f := by
  unfold error? mapError
  cases t.result <;> rfl

theorem files_map_mapError (hf : ∀ e, toString (f e) = toString e) (results : List (TargetResult ε)) :
    (results.map (TargetResult.mapError f)).flatMap TargetResult.files =
      results.flatMap TargetResult.files := by
  simp only [List.flatMap_map, TargetResult.files_mapError hf]

theorem outcome_map_mapError (hf : ∀ e, toString (f e) = toString e)
    (results : List (TargetResult ε)) :
    Outcome.ofResults (results.map (TargetResult.mapError f)) = Outcome.ofResults results := by
  have hfailed : ((results.map (TargetResult.mapError f)).filter (·.error?.isSome)).map (·.name) =
      (results.filter (·.error?.isSome)).map (·.name) := by
    simp only [List.filter_map, List.map_map, Function.comp_def, TargetResult.error?_mapError,
      Option.isSome_map]
    rfl
  rw [Outcome.ofResults, Outcome.ofResults, files_map_mapError hf, hfailed]

omit [ToString ε] [ToString ε'] in
theorem firstFailure?_mapError (results : List (TargetResult ε)) :
    firstFailure? (results.map (TargetResult.mapError f)) =
      (firstFailure? results).map fun failure => (failure.1, f failure.2) := by
  induction results with
  | nil => rfl
  | cons t results ih =>
    unfold firstFailure? at *
    rw [List.map_cons, List.findSome?_cons, List.findSome?_cons, ih, TargetResult.error?_mapError]
    cases t.error? <;> rfl

omit [ToString ε] [ToString ε'] in
theorem attempt_mapError (p : Plugin ε) (input : Except String (List UInt8)) :
    (p.mapError f).attempt input = mapAttempt f (p.attempt input) := by
  unfold attempt
  cases input with
  | error text => rfl
  | ok bytes =>
    have hdecode : (p.mapError f).decode bytes = p.decode bytes := rfl
    simp only [hdecode]
    cases p.decode bytes with
    | error e => rfl
    | ok decoded =>
      obtain ⟨request, options⟩ := decoded
      simp only
      cases request.targets with
      | error e => rfl
      | ok targets =>
        have hresults : generateTargets (p.mapError f).generator (request.context options) targets =
            (generateTargets p.generator (request.context options) targets).map
              (TargetResult.mapError f) := by
          rw [generateTargets, generateTargets, List.map_map]
          rfl
        simp only [hresults, firstFailure?_mapError]
        cases options.strict with
        | false => rfl
        | true => cases firstFailure? (generateTargets p.generator _ targets) <;> rfl

/-- The run with errors of another type, worded as before, leaves the report of the run. -/
theorem run_mapError (hf : ∀ e, toString (f e) = toString e) (p : Plugin ε) (state : RunState)
    (channels : Channels) :
    (p.mapError f).run state channels = (p.run state channels).mapError f := by
  rw [run_eq, run_eq, attempt_mapError]
  unfold Report.ofAttempt
  cases p.attempt channels.input with
  | error e =>
    simp only [mapAttempt, Response.ofAttempt, message_map hf]
    cases channels.writeError <;> rfl
  | ok results =>
    simp only [mapAttempt, Response.ofAttempt, Response.ofResults, files_map_mapError hf]
    cases channels.writeError with
    | some text => rfl
    | none => simp only [outcome_map_mapError hf]; rfl

/-- The command line runs its plugins with the errors of all generators. -/
example (p : Plugin) (state : RunState) (channels : Channels) :
    (p.mapError GenerateError.conversion).run state channels =
      (p.run state channels).mapError .conversion :=
  run_mapError (f := GenerateError.conversion) (fun _ => rfl) p state channels

end

/-! ## Runs one after the other -/

/-- Each of several runs gives the result, the state and the bytes of a run of its own, whatever was
read, written and reported before it, and leaves behind what it has to. -/
theorem runs_fresh (p : Plugin ε) (state : RunState) (inputs : List Channels) :
    List.Forall₂ (fun channels report =>
        report = p.run .awaitingRequest channels ∧ report.Settled channels)
      inputs (p.runs state inputs) := by
  induction inputs generalizing state with
  | nil => exact .nil
  | cons channels inputs ih =>
    exact .cons ⟨run_fresh p state channels, settled_run p state channels⟩ (ih _)

end SchemaBridge.Plugin
