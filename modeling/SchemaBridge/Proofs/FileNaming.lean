import SchemaBridge.Naming
import SchemaBridge.Proofs.PlainNames
import SchemaBridge.Proofs.RenderReading

/-!
# Packages and the names of files

The directory that a `.msg` file lies in is its package (`isPathPart_of_namedByPath`). The path that is
generated for a message names the message again, and its package if that has no more than one part
(`namedByPath_rosFileName_eq_ok_iff`, `packageOf_eq_self`).
-/

namespace SchemaBridge.RosText

variable {package : List String} {name path : String}

/-- A segment of a path. -/
def IsPathPart (part : String) : Prop := part ≠ "" ∧ '/' ∉ part.toList ∧ '\\' ∉ part.toList

theorem isPathPart_of_mem_pathParts {part : String} (h : part ∈ pathParts path) :
    IsPathPart part := by
  obtain ⟨hne, hsep⟩ := of_mem_piecesBetween (List.mem_filter.1 h).1
  exact ⟨hne, fun hm => by simpa using hsep '/' hm, fun hm => by simpa using hsep '\\' hm⟩

theorem packageOf_length (directories : List String) : (packageOf directories).length ≤ 1 := by
  unfold packageOf
  cases (if directories.getLast? = some "msg" then directories.dropLast else directories).getLast? <;>
    simp

theorem packageOf_subset (directories : List String) : packageOf directories ⊆ directories := by
  intro part hpart
  have hmem := List.mem_of_getLast? (Option.mem_toList.1 hpart)
  split at hmem
  · exact List.dropLast_subset _ hmem
  · exact hmem

/-- The package of a file is at most one part of its path. -/
theorem isPathPart_of_namedByPath (h : namedByPath path = .ok (package, name)) :
    package.length ≤ 1 ∧ ∀ part ∈ package, IsPathPart part := by
  obtain ⟨file, -, -, -, rfl⟩ := namedByPath_eq_ok_iff.1 h
  refine ⟨packageOf_length _, fun part hpart => ?_⟩
  exact isPathPart_of_mem_pathParts (List.dropLast_subset _ (packageOf_subset _ hpart))

/-- The parts of a path that is put together of parts. -/
theorem piecesBetween_path {parts : List String} (h : ∀ part ∈ parts, IsPathPart part) :
    piecesBetween (fun c => c = '/' || c = '\\') ("/".intercalate parts) = parts := by
  have hpart : ∀ {part : String}, IsPathPart part →
      piecesBetween (fun c => c = '/' || c = '\\') part = [part] := by
    intro part hpart
    refine piecesBetween_eq_singleton hpart.1 fun c hc => ?_
    have hslash : c ≠ '/' := fun heq => hpart.2.1 (heq ▸ hc)
    have hback : c ≠ '\\' := fun heq => hpart.2.2 (heq ▸ hc)
    simp [hslash, hback]
  induction parts with
  | nil => decide
  | cons part parts ih =>
    obtain ⟨hfirst, hrest⟩ := List.forall_mem_cons.1 h
    cases parts with
    | nil => simpa using hpart hfirst
    | cons other parts =>
      have htext : ("/".intercalate (part :: other :: parts)).toList =
          part.toList ++ '/' :: ("/".intercalate (other :: parts)).toList := by
        simp [String.intercalate_cons_cons]
      rw [piecesBetween_append htext (by decide), hpart hfirst, ih hrest]
      rfl

theorem fileStem_append (name : String) : fileStem (name ++ ".msg") = name := by
  have hsuffix : ".msg".toList <:+ (name ++ ".msg").toList := by simp
  have htake : (name ++ ".msg").toList.take ((name ++ ".msg").toList.length - 4) = name.toList := by
    simp
  rw [fileStem, if_pos (List.isSuffixOf_iff_suffix.2 hsuffix), htake, String.ofList_toList]

/-- A package of one part, or of none, is the package of its directories; `msg` counts for nothing. -/
theorem packageOf_eq_self (hlength : package.length ≤ 1) (hmsg : package ≠ ["msg"]) :
    packageOf package = package := by
  match package, hlength with
  | [], _ => rfl
  | [part], _ =>
    have hpart : part ≠ "msg" := fun heq => hmsg (by rw [heq])
    simp [packageOf, hpart]
  | _ :: _ :: _, hlen => simp at hlen

/-- No other package is that of its directories. -/
theorem packageOf_eq_self_iff :
    packageOf package = package ↔ package.length ≤ 1 ∧ package ≠ ["msg"] := by
  constructor
  · intro h
    have hlength := packageOf_length package
    rw [h] at hlength
    refine ⟨hlength, ?_⟩
    rintro rfl
    exact absurd h (by decide)
  · exact fun h => packageOf_eq_self h.1 h.2

/-- The parts of the path that is generated for a message. -/
theorem pathParts_rosFileName (hparts : ∀ part ∈ package, IsPathPart part ∧ part ≠ ".")
    (hword : ∀ c ∈ name.toList, isWordChar c = true) :
    pathParts (rosFileName package name) = package ++ [name ++ ".msg"] := by
  have hfile : IsPathPart (name ++ ".msg") := by
    have hslash : '/' ∉ name.toList := fun hm => absurd (hword _ hm) (by decide)
    have hback : '\\' ∉ name.toList := fun hm => absurd (hword _ hm) (by decide)
    exact ⟨by simp, by simpa using hslash, by simpa using hback⟩
  have hall : ∀ part ∈ package ++ [name ++ ".msg"], IsPathPart part ∧ part ≠ "." := by
    intro part hpart
    rcases List.mem_append.1 hpart with hpart | hpart
    · exact hparts part hpart
    · obtain rfl := List.mem_singleton.1 hpart
      refine ⟨hfile, fun heq => ?_⟩
      have hlen := congrArg (fun s : String => s.toList.length) heq
      simp at hlen
  rw [pathParts, rosFileName, inPackage, piecesBetween_path fun part hpart => (hall part hpart).1]
  exact List.filter_eq_self.2 fun part hpart => by simpa using (hall part hpart).2

/-- The path that is generated for a message names the message, if its name begins with a letter, and
the package of the directories that the package of the message became. -/
theorem namedByPath_rosFileName_eq_ok_iff {directories : List String} {stem : String}
    (hparts : ∀ part ∈ package, IsPathPart part ∧ part ≠ ".")
    (hword : ∀ c ∈ name.toList, isWordChar c = true) :
    namedByPath (rosFileName package name) = .ok (directories, stem) ↔
      isMessageName name = true ∧ directories = packageOf package ∧ stem = name := by
  rw [namedByPath_eq_ok_iff, pathParts_rosFileName hparts hword, List.getLast?_concat,
    List.dropLast_concat]
  constructor
  · rintro ⟨file, hfile, rfl, hname, rfl⟩
    obtain rfl := Option.some.inj hfile
    rw [fileStem_append] at hname
    exact ⟨hname, rfl, fileStem_append name⟩
  · rintro ⟨hname, rfl, rfl⟩
    exact ⟨_, rfl, fileStem_append _, hname, rfl⟩

/-- The generated path of a message names the message and its package. -/
theorem namedByPath_rosFileName (hpackage : package.length ≤ 1)
    (hparts : ∀ part ∈ package, IsPathPart part ∧ '.' ∉ part.toList ∧ part ≠ "msg")
    (hname : isMessageName name = true) :
    namedByPath (rosFileName package name) = .ok (package, name) := by
  have hdot : ∀ part ∈ package, IsPathPart part ∧ part ≠ "." := fun part hpart =>
    ⟨(hparts part hpart).1, fun heq => (hparts part hpart).2.1 (by simp [heq])⟩
  have hmsg : package ≠ ["msg"] := fun heq => (hparts "msg" (by simp [heq])).2.2 rfl
  rw [namedByPath_rosFileName_eq_ok_iff hdot (forall_isWordChar_of_isMessageName hname),
    packageOf_eq_self hpackage hmsg]
  exact ⟨hname, rfl, rfl⟩

end SchemaBridge.RosText
