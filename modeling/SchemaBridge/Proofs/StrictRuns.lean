import SchemaBridge.Plugin.TypeListing
import SchemaBridge.Proofs.OutputPaths
import SchemaBridge.Proofs.TargetIsolation

/-!
# Strict runs

Whether a run is strict makes no difference as long as no file to generate fails: the two runs leave
the same report. If a file fails, the strict run leaves an error in place of all files, and it is the
first one that the lenient run reports in a file of its own (`strict_agrees`).

Both generators are impartial (`impartial_rosMessages`, `impartial_typeListing`): they do not ask
whether the run is strict, and give no file that could be taken for the report of a failure. They stay
so with errors of another type (`Generator.Impartial.mapError`).
-/

namespace SchemaBridge.Plugin

variable {ε : Type} {p q : Plugin ε} {bs bs' : List UInt8} {request request' : Request}
  {options : Options} {targets : List FileDescriptor} {names : List String}
  {results : List (TargetResult ε)} {name : String} {error : ε} {file : OutputFile}

/-! ## Generators -/

/-- The name of the file that reports the failure of a target. -/
def reportName (target : String) : String := target ++ ".error"

theorem reportName_inj {target target' : String} :
    reportName target = reportName target' ↔ target = target' := by
  rw [reportName, reportName, ← String.toList_inj, String.toList_append, String.toList_append,
    List.append_left_inj, String.toList_inj]

/-- The generator does not ask whether the run is strict, and names no file like the report of a
failure. -/
structure Generator.Impartial (generator : Generator ε) : Prop where
  ignoresStrict : ∀ symbols options strict file,
    generator ⟨symbols, { options with strict }⟩ file = generator ⟨symbols, options⟩ file
  leavesReports : ∀ context file files, generator context file = .ok files →
    ∀ f ∈ files, ∀ target, f.name ≠ reportName target

/-- A file whose name ends in another letter is no report. -/
theorem ne_reportName {ending file : String} {letter : Char}
    (hending : ending.toList.getLast? = some letter) (hletter : letter ≠ 'r')
    (h : ending.toList <:+ file.toList) (target : String) : file ≠ reportName target := by
  rintro rfl
  obtain ⟨start, hstart⟩ := h
  have hlast : (reportName target).toList.getLast? = some 'r' := by
    simp [reportName, String.toList_append]
  rw [← hstart, List.getLast?_append, hending] at hlast
  exact hletter (Option.some.inj hlast)

theorem impartial_rosMessages : rosMessages.Impartial where
  ignoresStrict _ _ _ _ := rfl
  leavesReports context file files h f hf target := by
    obtain ⟨schema, -, h⟩ := bind_eq_ok_iff.1 h
    obtain ⟨conversion, -, h⟩ := bind_eq_ok_iff.1 h
    obtain rfl := Except.ok.inj h
    obtain ⟨m, -, rfl⟩ := List.mem_map.1 hf
    have hsuffix : ".msg".toList <:+ (m.name ++ ".msg").toList := by simp [String.toList_append]
    exact ne_reportName (show ".msg".toList.getLast? = some 'g' from rfl) (by decide)
      (hsuffix.trans (suffix_inPackage conversion.schema.package _)) target

theorem impartial_typeListing : typeListing.Impartial where
  ignoresStrict _ _ _ _ := rfl
  leavesReports context file files h f hf target := by
    obtain rfl := Except.ok.inj h
    obtain rfl := List.mem_singleton.1 hf
    exact ne_reportName (show ".json".toList.getLast? = some 'n' from rfl) (by decide)
      (by simp [String.toList_append]) target

/-- What the errors of a generator are makes no difference to this. -/
theorem Generator.Impartial.mapError {ε' : Type} (hp : p.generator.Impartial) (f : ε → ε') :
    (p.mapError f).generator.Impartial where
  ignoresStrict symbols options strict file :=
    congrArg (Except.mapError f) (hp.ignoresStrict symbols options strict file)
  leavesReports context file files h := by
    have hfiles : p.generator context file = .ok files := by
      have hmapped : (p.generator context file).mapError f = .ok files := h
      cases hresult : p.generator context file with
      | error e => rw [hresult] at hmapped; cases hmapped
      | ok files' => rw [hresult] at hmapped; exact congrArg Except.ok (Except.ok.inj hmapped)
    exact hp.leavesReports context file files hfiles

/-! ## The first failure -/

theorem firstFailure?_eq_none_iff [ToString ε] :
    firstFailure? results = none ↔ (Outcome.ofResults results).failed = [] := by
  rw [firstFailure?, List.findSome?_eq_none_iff, Outcome.ofResults, List.map_eq_nil_iff,
    List.filter_eq_nil_iff]
  simp

/-- The first failure is that of the first file that failed. -/
theorem head?_failed [ToString ε] (results : List (TargetResult ε)) :
    (Outcome.ofResults results).failed.head? = (firstFailure? results).map (·.1) := by
  induction results with
  | nil => rfl
  | cons t results ih =>
    rw [Outcome.ofResults, firstFailure?] at *
    cases herror : t.error? with
    | none => rw [List.filter_cons_of_neg (by simp [herror]), List.findSome?_cons, herror, ih]; rfl
    | some e => rw [List.filter_cons_of_pos (by simp [herror]), List.findSome?_cons, herror]; rfl

/-- The first of some names that is among those kept is the first one kept. -/
theorem find?_mem_filter (names : List String) (keep : String → Bool) :
    names.find? (· ∈ names.filter keep) = (names.filter keep).head? := by
  rw [← List.head?_filter]
  congr 1
  refine List.filter_congr fun name hname => ?_
  simp [hname]

/-- The file that fails first contributes a report of its error. -/
theorem contribution_of_firstFailure? [ToString ε]
    (h : List.Forall₂ (fun name (t : TargetResult ε) => t.files = p.contribution request options name ∧
      t.name = name ∧ t.error?.isSome = p.fails request options name) names results)
    (hfailure : firstFailure? results = some (name, error)) :
    name ∈ names ∧
      p.contribution request options name = [⟨reportName name, toString error ++ "\n"⟩] := by
  obtain ⟨t, ht, hsome⟩ := List.exists_of_findSome?_eq_some hfailure
  obtain ⟨e, he, hpair⟩ := Option.map_eq_some_iff.1 hsome
  obtain ⟨rfl, rfl⟩ := Prod.mk.inj hpair
  obtain ⟨name, hname, hfiles, rfl, -⟩ := exists_of_mem_left h.flip t ht
  refine ⟨hname, ?_⟩
  rw [← hfiles, TargetResult.files]
  unfold TargetResult.error? at he
  split at he
  · cases he
  · next hresult =>
    obtain rfl := Option.some.inj he
    rfl

/-- A file of a response with the name of a report is the contribution of the target. -/
theorem mem_contribution_of_reportName [ToString ε] (hp : p.generator.Impartial)
    (hfile : file ∈ names.flatMap (p.contribution request options))
    (hname : file.name = reportName name) : file ∈ p.contribution request options name := by
  obtain ⟨target, -, htarget⟩ := List.mem_flatMap.1 hfile
  have hsame : target = name := by
    unfold contribution at htarget
    split at htarget
    · next files hresult =>
      obtain ⟨f, -, hf⟩ := Option.map_eq_some_iff.1 hresult
      exact absurd hname (hp.leavesReports _ _ _ hf _ htarget name)
    · obtain rfl := List.mem_singleton.1 htarget
      exact reportName_inj.1 hname
    · cases htarget
  exact hsame ▸ htarget

/-! ## The same request under strict options -/

/-- Given `bs'`, the plugin `q` has the same to do as the request and the options say, but strictly:
generator, files and files to generate are the same, and of the options only `strict` is another. -/
structure Stricter (p : Plugin ε) (request : Request) (options : Options) (q : Plugin ε)
    (bs' : List UInt8) (request' : Request) : Prop where
  generator : q.generator = p.generator
  decoded : Request.decode bs' = .ok request'
  chosen : q.options.withParameter (request'.parameter.getD "") = .ok { options with strict := true }
  files : request'.files = request.files
  filesToGenerate : request'.filesToGenerate = request.filesToGenerate

theorem decode_eq_ok (hdecoded : Request.decode bs = .ok request)
    (hchosen : p.options.withParameter (request.parameter.getD "") = .ok options) :
    p.decode bs = .ok (request, options) := by
  rw [decode, hdecoded]
  simp only [bind, Except.bind, hchosen]
  rfl

theorem Accepts.attempt (h : p.Accepts bs request options) (htargets : request.targets = .ok targets) :
    p.attempt (.ok bs) = .ok (generateTargets p.generator (request.context options) targets) := by
  simp only [Plugin.attempt, decode_eq_ok h.decoded h.chosen, htargets, h.lenient]
  rfl

/-- The strict run finds out the same results, but gives them up for the first failure. -/
theorem Stricter.attempt (h : Stricter p request options q bs' request')
    (hp : p.generator.Impartial) (htargets : request.targets = .ok targets) :
    q.attempt (.ok bs') =
      (firstFailure? (generateTargets p.generator (request.context options) targets)).elim
        (.ok (generateTargets p.generator (request.context options) targets))
        fun failure => .error (.strict failure.1 failure.2) := by
  have htargets' : request'.targets = .ok targets := by
    have htarget : request'.target = request.target := by
      funext name
      simp only [Request.target, Request.file?, h.files]
    rw [← htargets, Request.targets, Request.targets, h.filesToGenerate, htarget]
  have hresults : generateTargets q.generator (request'.context { options with strict := true })
      targets = generateTargets p.generator (request.context options) targets := by
    simp only [generateTargets, Request.context, h.generator, h.files, hp.ignoresStrict]
  simp only [Plugin.attempt, decode_eq_ok h.decoded h.chosen, htargets', hresults, if_true]
  cases firstFailure? (generateTargets p.generator (request.context options) targets) <;> rfl

/-- The report of a run that writes an error and no files. -/
def Report.ofError (error : RunError ε) (text : String) : Report ε :=
  { result := .error error
    state := .failed
    written := [(Response.ofError text).encode] }

/-- With an impartial generator, which both are, and whatever the errors of the generator are, a strict
run leaves the report of the lenient run that has the same to do if no file fails in that one. If files
fail, the strict run writes no files but an error, which names the first file to generate of those that
failed and tells what the lenient run tells in the report of that file. -/
theorem strict_agrees :
    (rosMessages.Impartial ∧ typeListing.Impartial) ∧
      ∀ {ε : Type} [ToString ε] {p q : Plugin ε} {bs bs' : List UInt8} {request request' : Request}
        {options : Options},
        p.generator.Impartial → p.Accepts bs request options →
          Stricter p request options q bs' request' →
        ∀ state state', ∃ files failed,
          (∀ explanation, p.run state { input := .ok bs, explanation } = .ofFiles files failed) ∧
          (failed = [] → ∀ writeError room explanation explanation',
            q.run state' { input := .ok bs', writeError, room, explanation := explanation' } =
              p.run state { input := .ok bs, writeError, room, explanation }) ∧
          (failed ≠ [] → ∃ name error text,
            request.filesToGenerate.find? (· ∈ failed) = some name ∧
            (∀ explanation, q.run state' { input := .ok bs', explanation } =
              .ofError (.strict name error) (name ++ ": " ++ text)) ∧
            (∃ file ∈ files, file.name = reportName name) ∧
            ∀ file ∈ files, file.name = reportName name → file.content = text ++ "\n") := by
  refine ⟨⟨impartial_rosMessages, impartial_typeListing⟩, ?_⟩
  intro ε _ p q bs bs' request request' options himpartial haccepts hstricter state state'
  obtain ⟨targets, htargets⟩ := haccepts.exists_targets
  have hlenient := haccepts.attempt htargets
  have hstrict := hstricter.attempt himpartial htargets
  have hresults := forall₂_generateTargets p options (targets_eq_ok_iff.1 htargets)
  generalize generateTargets p.generator (request.context options) targets = results at *
  have hfailed : (Outcome.ofResults results).failed =
      request.filesToGenerate.filter (p.fails request options) :=
    map_filter_of_forall₂ (hresults.imp fun _ _ ht => ht.2)
  refine ⟨_, _, run_of_accepts haccepts state, ?_, ?_⟩
  · intro hnone writeError room explanation explanation'
    rw [← hfailed, ← firstFailure?_eq_none_iff] at hnone
    simp only [hnone] at hstrict
    rw [run_eq, run_eq, hstrict, hlenient]
    rfl
  · intro hsome
    cases hfailure : firstFailure? results with
    | none => exact absurd (hfailed ▸ firstFailure?_eq_none_iff.1 hfailure) hsome
    | some failure =>
      obtain ⟨name, error⟩ := failure
      obtain ⟨hname, hreport⟩ := contribution_of_firstFailure? hresults hfailure
      refine ⟨name, error, toString error, ?_, fun explanation => ?_,
        ⟨⟨reportName name, toString error ++ "\n"⟩, ?_, rfl⟩, fun file hfile hfileName => ?_⟩
      · rw [find?_mem_filter, ← hfailed, head?_failed, hfailure]
        rfl
      · simp only [hfailure] at hstrict
        rw [run_eq, hstrict]
        rfl
      · exact List.mem_flatMap.2 ⟨name, hname, by simp [hreport]⟩
      · have hmem := mem_contribution_of_reportName himpartial hfile hfileName
        rw [hreport, List.mem_singleton] at hmem
        rw [hmem]

/-- A strict run gives up the files of the arm for the failure of the hand. -/
theorem strict_agrees_lab :
    let lenient : Plugin := { generator := rosMessages }
    let strict : Plugin := { generator := rosMessages, options := { strict := true } }
    lenient.Accepts (labBytes (some 0)) (labRequest (some 0)) {} ∧
      Stricter lenient (labRequest (some 0)) {} strict (labBytes (some 0)) (labRequest (some 0)) ∧
      (lenient.run .awaitingRequest { input := .ok (labBytes (some 0)) }).result =
        .ok { generated := ["lab/Arm.msg", "hand.proto.error"], failed := ["hand.proto"] } ∧
      ∃ error text, strict.run .awaitingRequest { input := .ok (labBytes (some 0)) } =
        .ofError (.strict "hand.proto" error) ("hand.proto: " ++ text) := by
  intro lenient strict
  have haccepts : lenient.Accepts (labBytes (some 0)) (labRequest (some 0)) {} :=
    ⟨decode_labBytes.2, rfl, rfl, by decide⟩
  have hstricter : Stricter lenient (labRequest (some 0)) {} strict (labBytes (some 0))
      (labRequest (some 0)) := ⟨rfl, decode_labBytes.2, rfl, rfl, rfl⟩
  have hresult : (lenient.run .awaitingRequest { input := .ok (labBytes (some 0)) }).result =
      .ok { generated := ["lab/Arm.msg", "hand.proto.error"], failed := ["hand.proto"] } := by
    rw [run_of_accepts haccepts]
    decide +kernel
  refine ⟨haccepts, hstricter, hresult, ?_⟩
  obtain ⟨files, failed, hrun, -, hfails⟩ := strict_agrees.2 impartial_rosMessages haccepts hstricter
    .awaitingRequest .awaitingRequest
  rw [hrun] at hresult
  obtain rfl : failed = ["hand.proto"] := congrArg Outcome.failed (Except.ok.inj hresult)
  obtain ⟨name, error, text, hfirst, hstrict, -⟩ := hfails (by simp)
  obtain rfl : "hand.proto" = name := Option.some.inj (hfirst ▸ by decide)
  exact ⟨error, text, hstrict none⟩

end SchemaBridge.Plugin
