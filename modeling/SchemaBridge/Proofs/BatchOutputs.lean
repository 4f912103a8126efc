import SchemaBridge.Proofs.BatchRoundTrip
import SchemaBridge.Proofs.OutputPaths
import SchemaBridge.Proofs.SnakeCase

/-!
# Which proto3 files of a batch overwrite each other

Every converted file of a batch is written to a path that its package and the snake case of its message
make up, and so two of them are written to one path exactly if they agree in both. Messages whose names
differ in more than letter case and underscores do not overwrite each other, nor do different messages
in camel case (`nodup_outputs_iff`).
-/

namespace SchemaBridge.Batch

open RosText

variable {sources : List Source} {source : Source} {package : Option String} {s : Schema} {m : Message}
  {t : SymbolTable} {o : Output} {n n' : TypeName}

/-! ## Files that can be read -/

/-- A file that can be read declares one message, and its package and the message make up a path. -/
structure Readable (s : Schema) (m : Message) : Prop where
  single : s.Single m
  name : '/' ∉ m.name.toList
  package : ∀ segment ∈ s.package, '/' ∉ segment.toList

theorem slash_not_mem_givenPackage {given segment : String} (h : segment ∈ givenPackage given) :
    '/' ∉ segment.toList := by
  intro hslash
  simpa using (of_mem_piecesBetween h).2 '/' hslash

/-- A source that can be read is a parsed file, in the given package if there is one. -/
theorem exists_parsed_source (h : source.schema package = .ok s) :
    ∃ s₀ m, Parsed s₀ m ∧ s = { s₀ with package := (package.map givenPackage).getD s₀.package } := by
  unfold Source.schema at h
  cases hparse : parse source.text source.path with
  | error e => simp [hparse] at h
  | ok s₀ =>
    obtain ⟨m, hm⟩ := exists_parsed hparse
    exact ⟨s₀, m, hm, by simpa [hparse, eq_comm] using h⟩

theorem exists_readable (h : source.schema package = .ok s) : ∃ m, Readable s m := by
  obtain ⟨s₀, m, hm, rfl⟩ := exists_parsed_source h
  refine ⟨m, ⟨hm.single.messages, hm.single.enums, hm.single.nested, hm.single.inner⟩, ?_, ?_⟩
  · intro hslash
    exact absurd (forall_isWordChar_of_isMessageName hm.name _ hslash) (by decide)
  · intro segment hsegment
    cases package with
    | none => exact (hm.parts segment hsegment).2.1
    | some given => exact slash_not_mem_givenPackage hsegment

theorem readable_of_mem_schemas (h : s ∈ schemas package sources) : ∃ m, Readable s m := by
  obtain ⟨source, -, hsource⟩ := List.mem_filterMap.1 h
  cases hschema : source.schema package with
  | error e => simp [hschema, Except.toOption] at hsource
  | ok read =>
    obtain rfl : read = s := by simpa [hschema, Except.toOption] using hsource
    exact exists_readable hschema

/-! ## Files that are converted -/

/-- The files of a batch that can be read and converted. -/
def converted (package : Option String) (sources : List Source) : List Schema :=
  (schemas package sources).filter fun s =>
    (output (.ofFiles (schemas package sources)) s).toOption.isSome

/-- The outputs of a batch are those of the files that can be read. -/
theorem outputs_convert :
    outputs (convert sources package) =
      (schemas package sources).filterMap fun s =>
        (output (.ofFiles (schemas package sources)) s).toOption := by
  unfold outputs convert
  generalize SymbolTable.ofFiles (schemas package sources) = table
  rw [schemas, List.filterMap_map, List.filterMap_filterMap]
  refine List.filterMap_congr fun source _ => ?_
  simp only [Function.comp_apply]
  cases source.schema package <;> rfl

/-- A file is written to the path of its message. -/
theorem path_of_output (h : s.Single m) (ho : output t s = .ok o) :
    o.path = protoFileName s.package m.name := by
  obtain ⟨c, hc, ho⟩ := bind_eq_ok_iff.1 ho
  obtain rfl := Except.ok.inj ho
  obtain ⟨r, hr, hc⟩ := bind_eq_ok_iff.1 hc
  obtain rfl := Except.ok.inj hc
  obtain ⟨fields, -, rfl⟩ := h.resolve_eq_ok_iff.1 hr
  rfl

/-- The path that the message of a full name is written to. -/
def pathOf (n : TypeName) : String := protoFileName n.package n.name

theorem paths_outputs {files : List Schema} (h : ∀ s ∈ files, ∃ m, Readable s m) :
    (files.filterMap fun s => (output t s).toOption).map (·.path) =
      (declaredMessages (files.filter fun s => (output t s).toOption.isSome)).map pathOf := by
  induction files with
  | nil => rfl
  | cons s files ih =>
    obtain ⟨⟨m, hm⟩, hfiles⟩ := List.forall_mem_cons.1 h
    cases ho : output t s with
    | error e =>
      rw [List.filterMap_cons_none (by simp [ho, Except.toOption]),
        List.filter_cons_of_neg (by simp [ho, Except.toOption]), ih hfiles]
    | ok o =>
      rw [List.filterMap_cons_some (b := o) (by simp [ho, Except.toOption]),
        List.filter_cons_of_pos (by simp [ho, Except.toOption]), List.map_cons, ih hfiles,
        path_of_output hm.single ho]
      simp [declaredMessages, hm.single.messageNames_eq, pathOf, TypeName.name]

/-- The outputs of a batch are written to the paths of the messages of the converted files. -/
theorem paths_convert (sources : List Source) (package : Option String) :
    (outputs (convert sources package)).map (·.path) =
      (declaredMessages (converted package sources)).map pathOf := by
  rw [outputs_convert]
  exact paths_outputs fun s hs => readable_of_mem_schemas hs

/-! ## Which paths are one -/

/-- What a path tells of a message: its package, and its name in snake case. -/
def pathKey (n : TypeName) : List String × String := (n.package, snakeCase n.name)

theorem of_mem_declaredMessages (h : n ∈ declaredMessages (schemas package sources)) :
    n.path = [n.name] ∧ (∀ segment ∈ n.package, '/' ∉ segment.toList) ∧ '/' ∉ n.name.toList := by
  obtain ⟨s, hs, hn⟩ := List.mem_flatMap.1 h
  obtain ⟨m, hm⟩ := readable_of_mem_schemas hs
  rw [hm.single.messageNames_eq, List.mem_singleton] at hn
  rw [hn]
  exact ⟨rfl, hm.package, hm.name⟩

/-- Two messages of a batch have one path exactly if they agree in what it tells of them. -/
theorem pathOf_eq_iff (h : n ∈ declaredMessages (schemas package sources))
    (h' : n' ∈ declaredMessages (schemas package sources)) :
    pathOf n = pathOf n' ↔ pathKey n = pathKey n' := by
  have hfile : ∀ {n : TypeName}, '/' ∉ n.name.toList → '/' ∉ (snakeCase n.name ++ ".proto").toList :=
    fun hname => by simpa using slash_not_mem_snakeCase hname
  obtain ⟨-, hpackage, hname⟩ := of_mem_declaredMessages h
  obtain ⟨-, hpackage', hname'⟩ := of_mem_declaredMessages h'
  rw [pathOf, pathOf, protoFileName, protoFileName,
    inPackage_inj hpackage (hfile hname) hpackage' (hfile hname')]
  simp [pathKey]

/-- Messages in camel case can be told by their paths. -/
theorem eq_of_pathOf_eq (h : n ∈ declaredMessages (schemas package sources))
    (h' : n' ∈ declaredMessages (schemas package sources)) (hcamel : CamelCase n.name)
    (hcamel' : CamelCase n'.name) (hpath : pathOf n = pathOf n') : n = n' := by
  obtain ⟨hpackage, hsnake⟩ := Prod.mk.inj ((pathOf_eq_iff h h').1 hpath)
  have hname : n.name = n'.name := (snakeCase_inj hcamel hcamel').1 hsnake
  have hpaths : n.path = n'.path := by
    rw [(of_mem_declaredMessages h).1, (of_mem_declaredMessages h').1, hname]
  cases n
  cases n'
  exact congrArg₂ TypeName.mk hpackage hpaths

theorem declaredMessages_converted :
    (declaredMessages (converted package sources)).Sublist
      (declaredMessages (schemas package sources)) :=
  List.filter_sublist.flatMap _

/-- Two outputs of a batch are written to one path exactly if they stand for messages of one package
that have one name in snake case; such messages differ in nothing but letter case and underscores. So
different messages whose names are in camel case never overwrite each other. -/
theorem nodup_outputs_iff (sources : List Source) (package : Option String) :
    (((outputs (convert sources package)).map (·.path)).Nodup ↔
        ((declaredMessages (converted package sources)).map pathKey).Nodup) ∧
      (∀ n ∈ declaredMessages (schemas package sources),
        ∀ n' ∈ declaredMessages (schemas package sources), pathOf n = pathOf n' →
          n.package = n'.package ∧ folded n.name = folded n'.name) ∧
      ((declaredMessages (schemas package sources)).Nodup →
        (∀ n ∈ declaredMessages (schemas package sources), CamelCase n.name) →
          ((outputs (convert sources package)).map (·.path)).Nodup) := by
  have hread : ∀ n ∈ declaredMessages (converted package sources),
      n ∈ declaredMessages (schemas package sources) := declaredMessages_converted.subset
  rw [paths_convert]
  refine ⟨nodup_map_iff fun n hn n' hn' => pathOf_eq_iff (hread n hn) (hread n' hn'), ?_, ?_⟩
  · intro n hn n' hn' hpath
    obtain ⟨hpackage, hsnake⟩ := Prod.mk.inj ((pathOf_eq_iff hn hn').1 hpath)
    exact ⟨hpackage, folded_eq_of_snakeCase_eq hsnake⟩
  · intro hnodup hcamel
    refine List.Nodup.map_on (fun n hn n' hn' hpath => ?_) (declaredMessages_converted.nodup hnodup)
    exact eq_of_pathOf_eq (hread n hn) (hread n' hn') (hcamel n (hread n hn)) (hcamel n' (hread n' hn'))
      hpath

/-! ## Names that differ in letter case -/

/-- Two files of one package, whose messages are told apart by the case of a letter. -/
def caseSources : List Source :=
  [{ path := "p/AB.msg", text := "int32 x\n" }, { path := "p/Ab.msg", text := "int32 y\n" }]

/-- The files declare different messages, and both are written to `p/ab.proto`. -/
theorem outputs_caseSources :
    (declaredMessages (schemas none caseSources)).Nodup ∧
      (outputs (convert caseSources none)).map (·.path) = ["p/ab.proto", "p/ab.proto"] := by
  constructor <;> decide +kernel

end SchemaBridge.Batch
