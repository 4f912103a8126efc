import SchemaBridge.Proofs.Flattening
import SchemaBridge.Proofs.LineGrammar
import SchemaBridge.Proofs.OutputPaths
import SchemaBridge.Proofs.RunReports
import SchemaBridge.Proofs.Skeletons
import SchemaBridge.Proofs.TargetIsolation

/-!
# No generated ROS message overwrites another one

The response of a run that generates ROS messages has no two files of one name, as long as no two
messages of the request have one full name (`generated_nodup`). A file to generate gives one `.error`
file or a `.msg` file for each of its messages (`outputNames_cases`). Within a file the messages differ
in their innermost names, and files that share a package and an innermost name are all rejected: the
table of the skeletons finds their collision, and what a file declares is what its skeleton declares
(`FileDescriptor.Mirrors.names_flatten`).
-/

namespace SchemaBridge

open RosText

namespace Plugin

/-! ## What a file to generate gives -/

/-- The names that all files of a request declare. -/
def Request.skeletons (request : Request) : List Schema := request.files.map FileDescriptor.skeleton

/-- The files to generate are told apart by their names and all messages by their full names, which
are made of identifiers. -/
structure Request.NamesApart (request : Request) : Prop where
  targets : request.filesToGenerate.Nodup
  identifiers : ∀ p ∈ allMessages request.skeletons, ∀ segment ∈ p.1.package ++ p.1.path,
    IsIdentifier segment.toList
  messages : ((allMessages request.skeletons).map (·.1.qualified)).Nodup

/-- The names of the output files that a file to generate gives. -/
def outputNames (context : Context) (f : FileDescriptor) : List String :=
  (TargetResult.files ⟨f.name.getD "", rosMessages context f⟩).map (·.name)

variable {request : Request} {options : Options} {context : Context} {f f' : FileDescriptor}
  {s : Schema} {c : Conversion} {m : Message} {x : String}

/-- A file to generate gives one file that tells an error, or one for each of its ROS messages. -/
theorem outputNames_cases (context : Context) (f : FileDescriptor) :
    outputNames context f = [f.name.getD "" ++ ".error"] ∨
      ∃ s c, f.toSchema = .ok s ∧ s.toRos context.symbols context.options.enumRepr = .ok c ∧
        outputNames context f = c.schema.messages.map fun m => rosFileName c.schema.package m.name := by
  unfold outputNames TargetResult.files
  cases hresult : rosMessages context f with
  | error e => exact .inl rfl
  | ok files =>
    obtain ⟨s, hs, hrest⟩ := bind_eq_ok_iff.1 hresult
    obtain ⟨c, hc, hfiles⟩ := bind_eq_ok_iff.1 hrest
    obtain rfl := Except.ok.inj hfiles
    exact .inr ⟨s, c, hs, hc, by simp [msgFile, Function.comp_def]⟩

/-- A ROS message has package and innermost name of a message that the skeleton declares and that
collides with no other one. -/
theorem exists_skeleton_name {t : SymbolTable} {repr : EnumRepr} (hs : f.toSchema = .ok s)
    (hc : s.toRos t repr = .ok c) (hm : m ∈ c.schema.messages) :
    ∃ n ∈ f.skeleton.flatten.map (·.1), n.package = c.schema.package ∧ n.name = m.name ∧
      t.collisions n = none := by
  obtain ⟨r, hr, -, mapped, -, hschema⟩ := exists_mapped_of_toRos hc
  obtain ⟨p, hp, hflattens⟩ := exists_of_mem_left (flattensTo_of_schema hr hc).flip m hm
  have hname : p.1 ∈ r.flatten.map (·.1) := List.mem_map_of_mem hp
  refine ⟨p.1, ?_, ?_, hflattens.name.symm, collisions_eq_none_of_uses hr hc (.inl hname)⟩
  · rwa [← (FileDescriptor.mirrors_of_toSchema hs).names_flatten, ← Schema.names_resolve hr]
  · rw [(r.of_mem_flatten hp).1, hschema]

/-- An output file tells an error, or is the one of a declared message that collides with no other. -/
theorem mem_outputNames_cases (hx : x ∈ outputNames context f) :
    x = f.name.getD "" ++ ".error" ∨
      ∃ n ∈ f.skeleton.flatten.map (·.1), x = rosFileName n.package n.name ∧
        context.symbols.collisions n = none := by
  rcases outputNames_cases context f with hnames | ⟨s, c, hs, hc, hnames⟩
  · exact .inl (by simpa [hnames] using hx)
  · rw [hnames] at hx
    obtain ⟨m, hm, rfl⟩ := List.mem_map.1 hx
    obtain ⟨n, hn, hpackage, hname, hnone⟩ := exists_skeleton_name hs hc hm
    exact .inr ⟨n, hn, by rw [hpackage, hname], hnone⟩

/-! ## The names of one file and of two files -/

namespace Request.NamesApart

variable {n n' : TypeName}

theorem dotFree (h : request.NamesApart) : ∀ p ∈ allMessages request.skeletons, p.1.DotFree :=
  fun p hp segment hsegment hdot =>
    absurd ((h.identifiers p hp segment hsegment).forall _ hdot) (by decide)

theorem slash_not_mem (h : request.NamesApart) (hn : Declares request.skeletons n) :
    (∀ s ∈ n.package, '/' ∉ s.toList) ∧ '/' ∉ n.name.toList := by
  have hpath := hn.path_ne_nil
  obtain ⟨p, hp, rfl⟩ := List.mem_map.1 hn
  have hslash : ∀ s ∈ p.1.package ++ p.1.path, '/' ∉ s.toList := fun s hs hslash =>
    absurd ((h.identifiers p hp s hs).forall _ hslash) (by decide)
  have hname : p.1.name ∈ p.1.path := by
    rw [TypeName.name, List.getLastD_eq_getLast?, List.getLast?_eq_getLast_of_ne_nil hpath]
    exact List.getLast_mem _
  exact ⟨fun s hs => hslash s (List.mem_append_left _ hs), hslash _ (List.mem_append_right _ hname)⟩

/-- A file declares the only message of a package and an innermost name, if that does not collide. -/
theorem eq_of_shared (h : request.NamesApart) (hf : f ∈ request.files) (hf' : f' ∈ request.files)
    (hn : n ∈ f.skeleton.flatten.map (·.1)) (hn' : n' ∈ f'.skeleton.flatten.map (·.1))
    (hnone : (SymbolTable.ofFiles request.skeletons).collisions n = none)
    (hpackage : n'.package = n.package) (hname : n'.name = n.name) : f = f' := by
  have hdeclares : Declares request.skeletons n :=
    declares_of_mem_flatten (List.mem_map_of_mem hf) hn
  have hunshared := (collisions_eq_none_iff_unshared h.dotFree hdeclares).1 hnone
  have hmessages : (request.files.flatMap fun f => f.skeleton.flatten.map (·.1.qualified)).Nodup := by
    have hnodup := h.messages
    rwa [allMessages, List.map_flatMap, Request.skeletons, List.flatMap_map] at hnodup
  obtain ⟨p, hp, rfl⟩ := List.mem_map.1 hn
  obtain ⟨p', hp', rfl⟩ := List.mem_map.1 hn'
  have hqualified : p'.1.qualified = p.1.qualified :=
    hunshared p' (List.mem_flatMap.2 ⟨_, List.mem_map_of_mem hf', hp'⟩) hpackage hname
  refine eq_of_nodup_flatMap hmessages hf hf' (List.mem_map_of_mem hp) ?_
  rw [← hqualified]
  exact List.mem_map_of_mem (f := fun p : TypeName × Message => p.1.qualified) hp'

end Request.NamesApart

/-- A `.msg` file is not one that tells an error. -/
theorem rosFileName_ne_error (package : List String) (name file : String) :
    rosFileName package name ≠ file ++ ".error" := by
  intro heq
  have hmsg : ".msg".toList <:+ (rosFileName package name).toList :=
    (by simp : ".msg".toList <:+ (name ++ ".msg").toList).trans (suffix_inPackage ..)
  have herror : ".error".toList <:+ (rosFileName package name).toList := by simp [heq]
  exact absurd (List.suffix_of_suffix_length_le hmsg herror (by decide)) (by decide)

/-- The ROS messages of a file have names of their own, and so do their files. -/
theorem nodup_outputNames (h : request.NamesApart) (hf : f ∈ request.files) :
    (outputNames (request.context options) f).Nodup := by
  rcases outputNames_cases (request.context options) f with hnames | ⟨s, c, hs, hc, hnames⟩
  · simp [hnames]
  · obtain ⟨r, hr, -⟩ := exists_mapped_of_toRos hc
    have hslash : ∀ name ∈ c.schema.messages.map (·.name),
        (∀ s ∈ c.schema.package, '/' ∉ s.toList) ∧ '/' ∉ name.toList := by
      intro name hname
      obtain ⟨m, hm, rfl⟩ := List.mem_map.1 hname
      obtain ⟨n, hn, hpackage, hname, -⟩ := exists_skeleton_name hs hc hm
      rw [← hpackage, ← hname]
      exact h.slash_not_mem (declares_of_mem_flatten (List.mem_map_of_mem hf) hn)
    have hmap : outputNames (request.context options) f =
        (c.schema.messages.map (·.name)).map (rosFileName c.schema.package) := by
      rw [hnames, List.map_map]
      rfl
    rw [hmap]
    refine List.Nodup.map_on (fun name hname name' hname' heq => ?_) (nodup_flatNames hr hc)
    obtain ⟨hpackage, hfree⟩ := hslash name hname
    exact ((rosFileName_inj hpackage hfree hpackage (hslash name' hname').2).1 heq).2

/-- Two files that give an output file of one name have one name themselves. -/
theorem name_eq_of_mem_outputNames (h : request.NamesApart) (hf : f ∈ request.files)
    (hf' : f' ∈ request.files) (hx : x ∈ outputNames (request.context options) f)
    (hx' : x ∈ outputNames (request.context options) f') : f.name.getD "" = f'.name.getD "" := by
  rcases mem_outputNames_cases hx with hx | ⟨n, hn, hx, hnone⟩ <;>
    rcases mem_outputNames_cases hx' with hx' | ⟨n', hn', hx', -⟩ <;> rw [hx] at hx'
  · simpa using hx'
  · exact absurd hx'.symm (rosFileName_ne_error _ _ _)
  · exact absurd hx' (rosFileName_ne_error _ _ _)
  -- two messages of one path: the table would have found that they collide if they were not the same
  · obtain ⟨hslash, hname⟩ := h.slash_not_mem (declares_of_mem_flatten (List.mem_map_of_mem hf) hn)
    obtain ⟨hslash', hname'⟩ :=
      h.slash_not_mem (declares_of_mem_flatten (List.mem_map_of_mem hf') hn')
    obtain ⟨hpackages, hnames⟩ := (rosFileName_inj hslash hname hslash' hname').1 hx'
    rw [h.eq_of_shared hf hf' hn hn' hnone hpackages.symm hnames.symm]

/-! ## The names of a run -/

variable {targets : List FileDescriptor} {bs : List UInt8} {channels : Channels} {outcome : Outcome}

theorem generated_generateTargets :
    (Outcome.ofResults (generateTargets rosMessages context targets)).generated =
      targets.flatMap (outputNames context) := by
  simp only [Outcome.ofResults, generateTargets, List.map_flatMap, List.flatMap_map]
  rfl

/-- Files to generate with names of their own give output files with names of their own. -/
theorem nodup_targets (h : request.NamesApart) (htargets : request.targets = .ok targets) :
    (targets.flatMap (outputNames (request.context options))).Nodup := by
  have hfound := targets_eq_ok_iff.1 htargets
  have hmem : ∀ f ∈ targets, f ∈ request.files := by
    intro f hf
    obtain ⟨name, -, hname⟩ := exists_of_mem_left hfound.flip f hf
    exact (List.mem_filter.1 (List.mem_of_getLast? hname)).1
  have hnames : (targets.map (·.name.getD "")).Nodup := by
    have heq := map_eq_of_forall₂ (f := id) (hfound.imp fun name f hf => name_of_file? hf)
    rw [heq, List.map_id]
    exact h.targets
  refine List.nodup_flatMap.2 ⟨fun f hf => nodup_outputNames h (hmem f hf), ?_⟩
  refine (List.pairwise_map.1 hnames).imp_of_mem fun {f f'} hf hf' hne x hx hx' => ?_
  exact hne (name_eq_of_mem_outputNames h (hmem f hf) (hmem f' hf') hx hx')

/-- The files that a successful run generates ROS messages into have names of their own, under any
options, if all messages of the request have full names of their own. -/
theorem generated_nodup {p : Plugin} {state : RunState} (hgenerator : p.generator = rosMessages)
    (hinput : channels.input = .ok bs) (hdecode : Request.decode bs = .ok request)
    (h : request.NamesApart) (hrun : (p.run state channels).result = .ok outcome) :
    outcome.generated.Nodup ∧
      ∃ response : Response, (p.run state channels).written = [response.encode] ∧
        response.files.map (·.name) = outcome.generated.map some := by
  have hwrite : channels.writeError = none := by
    cases hwrite : channels.writeError with
    | none => rfl
    | some text => cases hrun.symm.trans ((settled_run p state channels).cut text hwrite).1
  obtain ⟨response, hwritten, htells, -⟩ := (settled_run p state channels).sent hwrite
  rw [hrun] at htells
  refine ⟨?_, response, hwritten, htells.2⟩
  obtain ⟨results, hattempt, rfl⟩ := exists_results_of_run hrun
  obtain ⟨bs', request', options, targets, hinput', hdecode', htargets, rfl⟩ :=
    of_attempt_eq_ok hattempt
  obtain rfl := Except.ok.inj (hinput.symm.trans hinput')
  obtain rfl := Except.ok.inj (hdecode.symm.trans hdecode')
  rw [hgenerator, generated_generateTargets]
  exact nodup_targets h htargets

/-! ## Nested messages of one innermost name -/

/-- A file of the package `lab` with a message that nests another one. -/
def nestingFile (file outer inner : String) : FileDescriptor :=
  { name := some file
    package := some "lab"
    messages := [{ name := some outer, nested := [{ name := some inner }] }]
    language := some "proto3" }

/-- A request in which an arm and a hand nest messages of one name. -/
def jointRequest : Request :=
  { filesToGenerate := ["hand.proto", "base.proto", "arm.proto"]
    files :=
      [nestingFile "arm.proto" "Arm" "Joint", nestingFile "hand.proto" "Hand" "Joint",
       nestingFile "base.proto" "Base" "Wheel"] }

def jointBytes : List UInt8 :=
  Wire.encode <| Wire.Record.ofTexts 1 jointRequest.filesToGenerate ++
    Wire.Record.ofRecords 15 (jointRequest.files.map FileDescriptor.toRecord)

set_option maxRecDepth 20000 in
theorem decode_jointBytes : Request.decode jointBytes = .ok jointRequest := by
  with_unfolding_all rfl

/-- Both joints would be `lab/Joint.msg`, and so both files are rejected. -/
theorem generated_nodup_joints :
    Request.decode jointBytes = .ok jointRequest ∧ jointRequest.NamesApart ∧
      ∃ outcome,
        (Plugin.run { generator := rosMessages } .awaitingRequest { input := .ok jointBytes }).result =
          .ok outcome ∧
        outcome.generated =
          ["hand.proto.error", "lab/Base.msg", "lab/Wheel.msg", "arm.proto.error"] ∧
        outcome.generated.Nodup := by
  have hnames : jointRequest.NamesApart := ⟨by decide, by decide +kernel, by decide +kernel⟩
  have haccepts : Accepts { generator := rosMessages } jointBytes jointRequest {} :=
    ⟨decode_jointBytes, rfl, rfl, by decide⟩
  have hresult := congrArg Report.result (run_of_accepts haccepts .awaitingRequest none)
  refine ⟨decode_jointBytes, hnames, _, hresult, by decide +kernel, ?_⟩
  exact (generated_nodup rfl rfl decode_jointBytes hnames hresult).1

end Plugin

end SchemaBridge
