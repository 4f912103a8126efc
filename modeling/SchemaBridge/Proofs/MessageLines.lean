import Mathlib.Data.List.Forall2
import Mathlib.Data.List.Perm.Basic
import SchemaBridge.RosText.Parser

/-!
# What the lines of a message declare

The lines of a message are read one by one, and no name may be declared twice (`readLines_eq_ok_iff`).
A draft takes them up one after the other; what it holds of them in the end does not depend on where
the comments stand (`fields_foldl`, `constants_foldl`), and no comment is lost on the way
(`allComments_foldl`).
-/

namespace SchemaBridge.RosText

/-! ## Reading the lines -/

/-- The names that some lines declare. -/
def declaredNames (found : List Line) : List String :=
  found.filterMap fun line => line.declared?.map (·.1)

/-- The name that a line declares, if it declares any. -/
def Line.names (line : Line) : List String := (line.declared?.map (·.1)).toList

theorem declaredNames_cons (line : Line) (found : List Line) :
    declaredNames (line :: found) = line.names ++ declaredNames found := by
  cases h : line.declared? <;> simp [declaredNames, Line.names, h]

theorem nodup_names (line : Line) : line.names.Nodup := by
  cases h : line.declared? <;> simp [Line.names, h]

section

variable {file : String} {number : Nat} {names : List String} {text : List Char}
  {texts : List (List Char)} {found : List Line}

theorem map_cons_eq_ok_iff {ε : Type} {line : Line} {read : Except ε (List Line)} :
    read.map (line :: ·) = .ok found ↔ ∃ more, found = line :: more ∧ read = .ok more := by
  cases read with
  | error e => simp [Except.map]
  | ok more => simp [Except.map, eq_comm]

/-- The first line is read, what it declares is new, and it counts as declared from there on. -/
theorem readLines_cons_eq_ok_iff :
    readLines file number names (text :: texts) = .ok found ↔
      ∃ line more, found = line :: more ∧ Line.read text = .ok line ∧
        (∀ name ∈ line.names, name ∉ names) ∧
        readLines file (number + 1) (line.names ++ names) texts = .ok more := by
  rw [readLines]
  cases hread : Line.read text with
  | error e => simp
  | ok line =>
    cases hd : line.declared? with
    | none =>
      have hnames : line.names = [] := by simp [Line.names, hd]
      simp [map_cons_eq_ok_iff, hd, hnames]
    | some declared =>
      obtain ⟨name, column⟩ := declared
      have hnames : line.names = [name] := by simp [Line.names, hd]
      by_cases hname : name ∈ names
      · simp [hd, hnames, hname]
      · simp [map_cons_eq_ok_iff, hd, hnames, hname]

/-- Lines are read if each can be read, and no name is declared twice or has been declared above. -/
theorem readLines_eq_ok_iff :
    readLines file number names texts = .ok found ↔
      List.Forall₂ (fun text line => Line.read text = .ok line) texts found ∧
        (declaredNames found).Nodup ∧ ∀ name ∈ declaredNames found, name ∉ names := by
  induction texts generalizing number names found with
  | nil =>
    rw [readLines]
    constructor
    · intro h
      obtain rfl := Except.ok.inj h
      simp [declaredNames]
    · rintro ⟨h, -⟩
      rw [List.forall₂_nil_left_iff.1 h]
  | cons text texts ih =>
    rw [readLines_cons_eq_ok_iff]
    constructor
    · rintro ⟨line, more, rfl, hread, hnew, hmore⟩
      obtain ⟨hall, hnodup, hfresh⟩ := ih.1 hmore
      rw [declaredNames_cons]
      refine ⟨.cons hread hall, List.nodup_append.2 ⟨nodup_names line, hnodup, ?_⟩, fun n hn => ?_⟩
      · rintro n hn _ hm rfl
        exact hfresh n hm (List.mem_append_left _ hn)
      · rcases List.mem_append.1 hn with hn | hn
        · exact hnew n hn
        · exact fun hm => hfresh n hn (List.mem_append_right _ hm)
    · rintro ⟨hall, hnodup, hfresh⟩
      cases hall with
      | @cons _ line _ more hread hall =>
        rw [declaredNames_cons] at hnodup hfresh
        obtain ⟨-, hnodup, hdisjoint⟩ := List.nodup_append.1 hnodup
        refine ⟨line, more, rfl, hread, fun n hn => hfresh n (List.mem_append_left _ hn),
          ih.2 ⟨hall, hnodup, fun n hn hm => ?_⟩⟩
        rcases List.mem_append.1 hm with hm | hm
        · exact hdisjoint n hm n hn rfl
        · exact hfresh n (List.mem_append_right _ hn) hm

end

/-! ## Declarations without their comments -/

/-- A field without its comments. -/
def bareField (f : Field) : Field := { f with comments := [] }

/-- A constant without its comments and its place among the fields. -/
def bareConstant (c : Constant) : Constant := { c with anchor := none, comments := [] }

/-- The field that a line declares. -/
def Line.field? : Line → Option Field
  | .field f => some (bareField (f.field []))
  | _ => none

/-- The constant that a line declares. -/
def Line.constant? : Line → Option Constant
  | .constant c => some (bareConstant (c.constant [] 0))
  | _ => none

/-- The comments on a line. -/
def Line.comments : Line → List String
  | .blank => []
  | .comment text => [text]
  | .constant c => c.comment.toList
  | .field f => f.comment.toList

/-- The names that are declared are those of fields and constants. -/
theorem declaredNames_perm (found : List Line) :
    (declaredNames found).Perm
      ((found.filterMap Line.field?).map (·.name) ++ (found.filterMap Line.constant?).map (·.name)) := by
  induction found with
  | nil => simp [declaredNames]
  | cons line found ih =>
    cases line with
    | blank => exact ih
    | comment text => exact ih
    | field f => exact ih.cons _
    | constant c => exact (ih.cons _).trans List.perm_middle.symm

/-! ## Drafts -/

/-- The comments of a draft: those of the message, of its fields and of its constants, and those
whose owner is not known yet. -/
def Draft.allComments (d : Draft) : List String :=
  d.comments ++ d.fields.flatMap (·.comments) ++ d.constants.flatMap (·.comments) ++ d.pending

theorem fields_add (d : Draft) (line : Line) :
    (d.add line).fields.map bareField = d.fields.map bareField ++ line.field?.toList := by
  cases line with
  | blank =>
    rw [Draft.add]
    split <;> simp [Line.field?]
  | comment text => simp [Draft.add, Line.field?]
  | constant c => simp [Draft.add, Line.field?]
  | field f => simp [Draft.add, Line.field?, bareField, FieldLine.field]

theorem constants_add (d : Draft) (line : Line) :
    (d.add line).constants.map bareConstant =
      d.constants.map bareConstant ++ line.constant?.toList := by
  cases line with
  | blank =>
    rw [Draft.add]
    split <;> simp [Line.constant?]
  | comment text => simp [Draft.add, Line.constant?]
  | constant c => simp [Draft.add, Line.constant?, bareConstant, ConstantLine.constant]
  | field f => simp [Draft.add, Line.constant?]

theorem fields_foldl (found : List Line) (d : Draft) :
    (found.foldl Draft.add d).fields.map bareField =
      d.fields.map bareField ++ found.filterMap Line.field? := by
  induction found generalizing d with
  | nil => simp
  | cons line found ih =>
    rw [List.foldl_cons, ih, fields_add, List.append_assoc]
    cases hf : line.field? with
    | none => simp [hf]
    | some f => simp [hf]

theorem constants_foldl (found : List Line) (d : Draft) :
    (found.foldl Draft.add d).constants.map bareConstant =
      d.constants.map bareConstant ++ found.filterMap Line.constant? := by
  induction found generalizing d with
  | nil => simp
  | cons line found ih =>
    rw [List.foldl_cons, ih, constants_add, List.append_assoc]
    cases hc : line.constant? with
    | none => simp [hc]
    | some c => simp [hc]

/-- A line adds its comments at the end, unless it is a field after a constant. -/
theorem allComments_add {d : Draft} {line : Line}
    (h : d.constants = [] ∨ line.field? = none) :
    (d.add line).allComments = d.allComments ++ line.comments := by
  cases line with
  | comment text => simp [Draft.add, Draft.allComments, Line.comments]
  | constant c => simp [Draft.add, Draft.allComments, Line.comments, ConstantLine.constant]
  | blank =>
    rw [Draft.add]
    split
    · next hu =>
      -- nothing stands between the comments of the message and the pending ones
      simp only [Draft.isUndeclared, Bool.and_eq_true, List.isEmpty_iff] at hu
      simp [Draft.allComments, Line.comments, hu.1, hu.2]
    · simp [Line.comments]
  | field f =>
    rcases h with h | h
    · simp [Draft.add, Draft.allComments, Line.comments, FieldLine.field, h]
    · cases h

/-- Lines add their comments in order, if no field comes after a constant. -/
theorem allComments_foldl {found : List Line} {d : Draft}
    (h : (d.constants = [] ∧ found.filterMap Line.constant? = []) ∨
      found.filterMap Line.field? = []) :
    (found.foldl Draft.add d).allComments = d.allComments ++ found.flatMap Line.comments := by
  induction found generalizing d with
  | nil => simp
  | cons line found ih =>
    rw [List.foldl_cons, List.flatMap_cons, ← List.append_assoc]
    rcases h with ⟨hd, h⟩ | h
    · have hline : line.constant? = none := List.filterMap_eq_nil_iff.1 h line (List.mem_cons_self ..)
      rw [List.filterMap_cons_none hline] at h
      have hconstants : (d.add line).constants = [] := by
        have := constants_add d line
        rw [hd, hline] at this
        simpa using this
      rw [ih (.inl ⟨hconstants, h⟩), allComments_add (.inl hd)]
    · have hline : line.field? = none := List.filterMap_eq_nil_iff.1 h line (List.mem_cons_self ..)
      rw [List.filterMap_cons_none hline] at h
      rw [ih (.inr h), allComments_add (.inr hline)]

/-- After a declaration no comment is pending. -/
theorem pending_add {d : Draft} {line : Line} (h : line.declared?.isSome) :
    (d.add line).pending = [] := by
  cases line with
  | blank => cases h
  | comment text => cases h
  | constant c => rfl
  | field f => rfl

end SchemaBridge.RosText
