import SchemaBridge.Naming
import SchemaBridge.Proofs.FlatNames

/-!
# Paths of generated files

The path of a generated file tells the package and the file's own name, if there is no slash in either
(`inPackage_inj`), and ends as that name does (`suffix_inPackage`).
-/

namespace SchemaBridge

variable {package package' : List String} {file file' name name' : String}

theorem inPackage_inj (hpackage : ∀ s ∈ package, '/' ∉ s.toList) (hfile : '/' ∉ file.toList)
    (hpackage' : ∀ s ∈ package', '/' ∉ s.toList) (hfile' : '/' ∉ file'.toList) :
    inPackage package file = inPackage package' file' ↔ package = package' ∧ file = file' := by
  have hsegments : ∀ s ∈ package ++ [file], '/' ∉ s.toList := by
    simpa [or_imp, forall_and] using ⟨hpackage, hfile⟩
  have hsegments' : ∀ s ∈ package' ++ [file'], '/' ∉ s.toList := by
    simpa [or_imp, forall_and] using ⟨hpackage', hfile'⟩
  rw [inPackage, inPackage, intercalate_inj rfl hsegments hsegments' (by simp) (by simp)]
  constructor
  · intro heq
    obtain ⟨hpackages, hfiles⟩ := List.append_inj' heq rfl
    exact ⟨hpackages, by simpa using hfiles⟩
  · rintro ⟨rfl, rfl⟩
    rfl

/-- The paths of two `.msg` files are one only if package and message are. -/
theorem rosFileName_inj (hpackage : ∀ s ∈ package, '/' ∉ s.toList) (hname : '/' ∉ name.toList)
    (hpackage' : ∀ s ∈ package', '/' ∉ s.toList) (hname' : '/' ∉ name'.toList) :
    rosFileName package name = rosFileName package' name' ↔ package = package' ∧ name = name' := by
  rw [rosFileName, rosFileName, inPackage_inj hpackage (by simpa using hname) hpackage'
    (by simpa using hname')]
  simp

theorem suffix_inPackage (package : List String) (file : String) :
    file.toList <:+ (inPackage package file).toList := by
  induction package with
  | nil => simp [inPackage]
  | cons segment package ih =>
    have hpath : (inPackage (segment :: package) file).toList =
        (segment.toList ++ ['/']) ++ (inPackage package file).toList := by
      cases package <;> simp [inPackage, String.intercalate_cons_cons]
    rw [hpath]
    exact ih.trans (List.suffix_append ..)

end SchemaBridge
