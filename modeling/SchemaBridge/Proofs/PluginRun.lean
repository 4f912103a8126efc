import SchemaBridge.Plugin.Run
import SchemaBridge.Proofs.PartByPart

/-!
# What a run comes to

A run of a plugin first finds out what to answer (`Plugin.attempt`): the results of the files to
generate, or an error. It then writes one response, or what gets through of it, and ends in a state
that tells whether it succeeded (`run_eq`). The state that it begins in makes no difference.
-/

namespace SchemaBridge.Plugin

variable {ε : Type}

/-! ## Steps -/

namespace Step

variable {α β : Type} {session : Session} {channels : Channels}

/-- What a step gives in a session, and the session after it. -/
def after (step : Step ε α) (session : Session) : Except (RunError ε) α × Session :=
  step.run.run session

@[simp] theorem after_pure (a : α) : (pure a : Step ε α).after session = (.ok a, session) := rfl

@[simp] theorem after_throw (e : RunError ε) :
    (throw e : Step ε α).after session = (.error e, session) := rfl

@[simp] theorem after_enter (state : RunState) :
    (enter state : Step ε Unit).after session = (.ok (), { session with state }) := rfl

theorem after_bind (step : Step ε α) (next : α → Step ε β) :
    (step >>= next).after session =
      match step.after session with
      | (.ok a, session) => (next a).after session
      | (.error e, session) => (.error e, session) := by
  simp only [after, ExceptT.run_bind, StateT.run_bind]
  generalize StateT.run (ExceptT.run step) session = given
  obtain ⟨_ | _, _⟩ := given <;> rfl

theorem after_send (response : Response) :
    (send channels response : Step ε Unit).after session =
      match channels.writeError with
      | some text =>
        (.error (.io text), { session with written := session.written ++ [channels.passed response] })
      | none => (.ok (), { session with written := session.written ++ [channels.passed response] }) := by
  unfold send
  cases channels.writeError <;> rfl

theorem after_sendLast (response : Response) :
    (sendLast channels response : Step ε Unit).after session =
      match channels.writeError with
      | some text =>
        (.error (.io text),
          { state := .failed, written := session.written ++ [channels.passed response] })
      | none => (.ok (), { session with written := session.written ++ [channels.passed response] }) := by
  unfold sendLast send
  cases channels.writeError <;> rfl

variable [ToString ε]

theorem after_fail (error : RunError ε) :
    (fail channels error : Step ε α).after session =
      (.error (match channels.writeError with
        | some text => .io text
        | none => error),
        { state := .failed
          written := session.written ++
            [channels.passed (.ofError (error.message channels.explanation))] }) := by
  simp only [fail, after_bind, after_enter, after_send, after_throw]
  cases channels.writeError <;> rfl

theorem after_orFail (value : Except DecodeError α) :
    (orFail channels value : Step ε α).after session =
      match value with
      | .ok a => (.ok a, session)
      | .error e => (fail channels (.decode e) : Step ε α).after session := by
  cases value <;> rfl

end Step

/-! ## Runs -/

/-- What a run finds out before it answers: the results of the files to generate, or the error that it
reports. -/
def attempt (p : Plugin ε) (input : Except String (List UInt8)) :
    Except (RunError ε) (List (TargetResult ε)) :=
  match input with
  | .error text => .error (.decode (.io text))
  | .ok bytes =>
    match p.decode bytes with
    | .error e => .error (.decode e)
    | .ok (request, options) =>
      match request.targets with
      | .error e => .error (.decode e)
      | .ok targets =>
        let results := generateTargets p.generator (request.context options) targets
        match if options.strict then firstFailure? results else none with
        | some (file, error) => .error (.strict file error)
        | none => .ok results

variable [ToString ε]

/-- The response that answers what a run found out. -/
def Response.ofAttempt (explanation : Option String) :
    Except (RunError ε) (List (TargetResult ε)) → Response
  | .ok results => .ofResults results
  | .error e => .ofError (e.message explanation)

/-- The report of a run that found out what to answer. -/
def Report.ofAttempt (channels : Channels) (attempt : Except (RunError ε) (List (TargetResult ε))) :
    Report ε :=
  let written := [channels.passed (.ofAttempt channels.explanation attempt)]
  match channels.writeError, attempt with
  | some text, _ => ⟨.error (.io text), .failed, written⟩
  | none, .ok results => ⟨.ok (.ofResults results), .done, written⟩
  | none, .error e => ⟨.error e, .failed, written⟩

/-- A run answers what it found out, as far as the answer gets through. -/
theorem run_eq (p : Plugin ε) (state : RunState) (channels : Channels) :
    p.run state channels = .ofAttempt channels (p.attempt channels.input) := by
  have hrun : p.run state channels =
      ⟨((p.steps channels).after { state }).1, ((p.steps channels).after { state }).2.state,
        ((p.steps channels).after { state }).2.written⟩ := rfl
  rw [hrun]
  simp only [steps, attempt, Report.ofAttempt, Step.after_bind, Step.after_orFail, Step.after_enter]
  -- one case for each step that can fail; whether the answer can be written is asked last in each
  cases channels.input with
  | error text =>
    simp only [Except.mapError, Step.after_fail]
    cases channels.writeError <;> rfl
  | ok bytes =>
    simp only [Except.mapError]
    cases p.decode bytes with
    | error e =>
      simp only [Step.after_fail]
      cases channels.writeError <;> rfl
    | ok decoded =>
      obtain ⟨request, options⟩ := decoded
      simp only
      cases request.targets with
      | error e =>
        simp only [Step.after_fail]
        cases channels.writeError <;> rfl
      | ok targets =>
        simp only
        generalize (if options.strict = true then _ else none) = failure
        cases failure with
        | some found =>
          simp only [Step.after_fail]
          cases channels.writeError <;> rfl
        | none =>
          simp only [Step.after_bind, Step.after_enter, Step.after_sendLast, Step.after_pure]
          cases channels.writeError <;> rfl

variable {p : Plugin ε} {input : Except String (List UInt8)} {results : List (TargetResult ε)}
  {state : RunState} {channels : Channels} {outcome : Outcome}

omit [ToString ε] in
/-- The results that a run finds out are those of the files that the request tells to generate. -/
theorem of_attempt_eq_ok (h : p.attempt input = .ok results) :
    ∃ bs request options targets, input = .ok bs ∧ Request.decode bs = .ok request ∧
      request.targets = .ok targets ∧
        results = generateTargets p.generator (request.context options) targets := by
  unfold attempt at h
  split at h
  · cases h
  · next bs =>
    split at h
    · cases h
    · next request options hdecode =>
      obtain ⟨request', hrequest, hrest⟩ := bind_eq_ok_iff.1 hdecode
      obtain ⟨options', -, hpair⟩ := bind_eq_ok_iff.1 hrest
      obtain ⟨rfl, rfl⟩ := Prod.mk.inj (Except.ok.inj hpair)
      split at h
      · cases h
      · next targets htargets =>
        simp only at h
        split at h
        · cases h
        · exact ⟨bs, _, _, targets, rfl, hrequest, htargets, (Except.ok.inj h).symm⟩

/-- A run that succeeds has found out results, and its outcome is theirs. -/
theorem exists_results_of_run (h : (p.run state channels).result = .ok outcome) :
    ∃ results, p.attempt channels.input = .ok results ∧ outcome = .ofResults results := by
  rw [run_eq] at h
  unfold Report.ofAttempt at h
  cases hattempt : p.attempt channels.input with
  | error e => cases hwrite : channels.writeError <;> simp [hattempt, hwrite] at h
  | ok results =>
    cases hwrite : channels.writeError with
    | some text => simp [hattempt, hwrite] at h
    | none => exact ⟨results, rfl, by simpa [hattempt, hwrite] using h.symm⟩

end SchemaBridge.Plugin
