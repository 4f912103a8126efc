import SchemaBridge.Proofs.RosRoundTrip

/-!
# When a message parses, and where it fails

A text parses exactly if its path ends in a message name, each of its lines can be read and no name is
declared twice (`parse_eq_ok_iff`). Otherwise the error is about the first line at fault
(`FirstFault`): it is malformed, or it declares a name that a line above it has declared.

Columns are found by subtraction. Nothing is ever subtracted from less, because a reader leaves an
ending of what it reads (`suffix_fieldLine`); so the columns that a line is asked for are places in it
(`ColumnsInside`, `BeginsAt`).
-/

namespace SchemaBridge.RosText

open Text

variable {line start rest text : List Char}

/-! ## Columns -/

/-- `rest` is an ending of the line, and begins at the column. -/
def BeginsAt (line rest : List Char) (column : Nat) : Prop :=
  ∃ before, line = before ++ rest ∧ column = byteLength before + 1

theorem beginsAt_columnOf (h : rest <:+ line) : BeginsAt line rest (columnOf line rest) := by
  obtain ⟨before, rfl⟩ := h
  exact ⟨before, rfl, columnOf_append before rest⟩

theorem BeginsAt.append {column : Nat} (h : BeginsAt line rest column) (ends : List Char) :
    BeginsAt (line ++ ends) (rest ++ ends) column := by
  obtain ⟨before, rfl, hcolumn⟩ := h
  exact ⟨before, List.append_assoc .., hcolumn⟩

theorem BeginsAt.le {column : Nat} (h : BeginsAt line rest column) :
    1 ≤ column ∧ column ≤ byteLength line + 1 := by
  obtain ⟨before, rfl, rfl⟩ := h
  rw [byteLength_append]
  omega

/-! ## What the readers leave -/

theorem suffix_trimStart (cs : List Char) : trimStart cs <:+ cs := List.dropWhile_suffix isBlank

theorem suffix_identifier? {cs word : List Char} (h : identifier? cs = some (word, rest)) :
    rest <:+ cs := by
  obtain ⟨-, rfl, -⟩ := identifier?_eq_some_iff.1 h
  exact List.suffix_append word rest

theorem suffix_gap? {cs : List Char} (h : gap? cs = some rest) : rest <:+ cs := by
  obtain ⟨gap, -, rfl, -⟩ := gap?_eq_some_iff.1 h
  exact List.suffix_append gap rest

theorem suffix_fieldType? {cs : List Char} {t : FieldType} (h : fieldType? cs = some (t, rest)) :
    rest <:+ cs := by
  obtain ⟨type, -, rfl⟩ := fieldType?_sound h
  exact List.suffix_append type rest

theorem suffix_default? (cs : List Char) : (optionally default? cs).2 <:+ cs := by
  cases h : default? cs with
  | none => simp [optionally, h]
  | some found =>
    obtain ⟨gap, value, -, hcs, -⟩ := default?_sound h
    simp only [optionally, h]
    exact ⟨gap ++ value, by rw [hcs, List.append_assoc]⟩

theorem suffix_lastComment (cs : List Char) : (lastComment cs).2 <:+ cs := by
  unfold lastComment
  split
  · exact List.nil_suffix
  · exact List.suffix_refl cs

/-- What stops the reading of a field, or is left of the line after it, is an ending of the text that
was read. -/
theorem suffix_fieldLine :
    (∀ rest, fieldLine line start = .error rest → rest <:+ start) ∧
      ∀ f rest, fieldLine line start = .ok (f, rest) → rest <:+ start := by
  constructor
  · intro rest h
    unfold fieldLine at h
    split at h
    · obtain rfl := Except.error.inj h
      exact List.suffix_refl start
    · next htype =>
      have hrest := suffix_fieldType? htype
      split at h
      · obtain rfl := Except.error.inj h
        exact hrest
      · next hgap =>
        split at h
        · obtain rfl := Except.error.inj h
          exact (suffix_gap? hgap).trans hrest
        · cases h
  · intro f left h
    obtain ⟨type, gap, name, rest, rfl, -, -, -, -, -, -, hend⟩ := fieldLine_eq_ok_iff.1 h
    have hleft : left = (lastComment (optionally default? rest).2).2 := by
      simp only [fieldEnd, Prod.ext_iff] at hend
      exact hend.2.2.symm
    have hrest : rest <:+ type ++ (gap ++ (name ++ rest)) :=
      ⟨type ++ (gap ++ name), by simp only [List.append_assoc]⟩
    rw [hleft]
    exact ((suffix_lastComment _).trans (suffix_default? rest)).trans hrest

/-- All texts whose columns in `line` are computed when its declaration is read from `start` on are
endings of the line: the text that is read, what follows the type of a constant or a field, the text at
which no field could be read on, and what is left of the line after a field. -/
structure ColumnsInside (line start : List Char) : Prop where
  read : start <:+ line
  constantName : ∀ word rest named, identifier? start = some (word, rest) → gap? rest = some named →
    named <:+ line
  fieldName : ∀ type rest named, fieldType? start = some (type, rest) → gap? rest = some named →
    named <:+ line
  noField : ∀ rest, fieldLine line start = .error rest → rest <:+ line
  leftOver : ∀ f rest, fieldLine line start = .ok (f, rest) → trimStart rest <:+ line

theorem columnsInside (line : List Char) : ColumnsInside line (trimStart line) where
  read := suffix_trimStart line
  constantName _ _ _ hword hgap :=
    ((suffix_gap? hgap).trans (suffix_identifier? hword)).trans (suffix_trimStart line)
  fieldName _ _ _ htype hgap :=
    ((suffix_gap? hgap).trans (suffix_fieldType? htype)).trans (suffix_trimStart line)
  noField rest h := (suffix_fieldLine.1 rest h).trans (suffix_trimStart line)
  leftOver f rest h :=
    ((suffix_trimStart rest).trans (suffix_fieldLine.2 f rest h)).trans (suffix_trimStart line)

/-! ## A malformed line -/

theorem beginsAt_of_declaration {e : LineError}
    (h : declaration line (trimStart line) = .error e) : ∃ rest, BeginsAt line rest e.column := by
  have hinside := columnsInside line
  unfold declaration at h
  split at h
  · cases h
  · split at h
    · next rest hrest =>
      obtain rfl := Except.error.inj h
      exact ⟨rest, beginsAt_columnOf (hinside.noField rest hrest)⟩
    · next f rest hf =>
      split at h
      · cases h
      · obtain rfl := Except.error.inj h
        exact ⟨_, beginsAt_columnOf (hinside.leftOver f rest hf)⟩

/-- A line that cannot be read is at fault at one of its characters, or at its end. -/
theorem beginsAt_of_read {e : LineError} (h : Line.read text = .error e) :
    ∃ rest, BeginsAt text rest e.column := by
  obtain ⟨ends, htext, -⟩ := exists_dropEndWhile isLineEnd text
  unfold Line.read at h
  dsimp only at h
  split at h
  · cases h
  · split at h
    · cases h
    · obtain ⟨rest, hrest⟩ := beginsAt_of_declaration h
      rw [htext]
      exact ⟨rest ++ ends, hrest.append ends⟩

/-! ## A name that is declared twice -/

/-- The line is blank up to a type, which the name follows after a gap; the name begins at the
column. -/
def NameAt (line : List Char) (name : String) (column : Nat) : Prop :=
  ∃ indent type gap rest t, line = indent ++ (type ++ (gap ++ (name.toList ++ rest))) ∧
    AllBlank indent ∧ TypeSpelling type t ∧ IsGap gap ∧ StopsAt isWordChar rest ∧
    column = byteLength (indent ++ (type ++ gap)) + 1

theorem NameAt.beginsAt {name : String} {column : Nat} (h : NameAt line name column) :
    ∃ rest, BeginsAt line (name.toList ++ rest) column := by
  obtain ⟨indent, type, gap, rest, t, rfl, -, -, -, -, hcolumn⟩ := h
  exact ⟨rest, indent ++ (type ++ gap), by simp only [List.append_assoc], hcolumn⟩

theorem nameAt_of_read {found : Line} {name : String} {column : Nat}
    (h : Line.read text = .ok found) (hname : found.declared? = some (name, column)) :
    NameAt text name column := by
  have hsays := says_of_read h
  cases found with
  | blank => cases hname
  | comment comment => cases hname
  | constant c =>
    obtain ⟨rfl, rfl⟩ := Prod.mk.inj (Option.some.inj hname)
    obtain ⟨indent, keyword, gap, word, space, literal, rfl, hi, hs, hg, -, hspace, -, hword, hcol⟩ :=
      hsays
    have hstop := stopsAt_equals hspace literal
    rw [hcol]
    refine ⟨indent, keyword, gap, _, _, ?_, hi, keyword_typeSpelling hs, hg, hstop, rfl⟩
    rw [hword, String.toList_ofList]
  | field f =>
    obtain ⟨rfl, rfl⟩ := Prod.mk.inj (Option.some.inj hname)
    obtain ⟨indent, type, gap, word, rest, rfl, hi, ht, hg, -, hend, hword, hcol⟩ := hsays
    rw [hcol]
    refine ⟨indent, type, gap, rest, f.type, ?_, hi, ht, hg, hend.stopsAt, rfl⟩
    rw [hword, String.toList_ofList]

/-! ## The first line at fault -/

section

variable {file path : String} {number : Nat} {names : List String} {texts : List (List Char)}
  {found : List Line} {e : ParseError}

/-- The lines of a message: those of its text, without the byte order mark. -/
def linesOf (text : String) : List (List Char) := lines (withoutMark text.toList)

/-- The name of the file that a path leads to, without the ending `.msg`. -/
def stem? (path : String) : Option String := (pathParts path).getLast?.map fileStem

/-- The lines can be read as `found`, and no name is declared twice in them. -/
structure ReadAs (texts : List (List Char)) (found : List Line) : Prop where
  lines : List.Forall₂ (fun text line => Line.read text = .ok line) texts found
  distinct : (declaredNames found).Nodup

theorem readLines_eq_ok_iff_readAs :
    readLines file number [] texts = .ok found ↔ ReadAs texts found := by
  rw [readLines_eq_ok_iff]
  exact ⟨fun h => ⟨h.1, h.2.1⟩, fun h => ⟨h.lines, h.distinct, by simp⟩⟩

/-- What is wrong with a line below which `names` have been declared, and at which column: it cannot be
read, for the reason and at the column that reading it gives; or it declares one of the names again, at
the column where that name begins. -/
inductive FaultOn (names : List String) (text : List Char) : Nat → ParseFault → Prop
  | malformed {error : LineError} (h : Line.read text = .error error) :
      FaultOn names text error.column (.line error.fault)
  | declaredTwice {found : Line} {name : String} {column : Nat} (h : Line.read text = .ok found)
      (hname : found.declared? = some (name, column)) (hagain : name ∈ names)
      (hcolumn : NameAt text name column) : FaultOn names text column (.declaredTwice name)

theorem FaultOn.mono {names' : List String} {column : Nat} {fault : ParseFault}
    (h : FaultOn names text column fault) (hnames : names ⊆ names') :
    FaultOn names' text column fault := by
  cases h with
  | malformed h => exact .malformed h
  | declaredTwice h hname hagain hcolumn => exact .declaredTwice h hname (hnames hagain) hcolumn

theorem FaultOn.beginsAt {column : Nat} {fault : ParseFault} (h : FaultOn names text column fault) :
    ∃ rest, BeginsAt text rest column := by
  cases h with
  | malformed h => exact beginsAt_of_read h
  | declaredTwice _ _ _ hcolumn =>
    obtain ⟨rest, hrest⟩ := hcolumn.beginsAt
    exact ⟨_, hrest⟩

/-- The error is about the first line at fault: those above it can be read and declare no name twice.
It carries the number of the line, counted from one, its text, and a column at which one of its
characters begins or the line ends. -/
def FirstFault (texts : List (List Char)) (e : ParseError) : Prop :=
  ∃ above text below found, texts = above ++ text :: below ∧ ReadAs above found ∧
    e.line = above.length + 1 ∧ e.text = String.ofList text ∧
    FaultOn (declaredNames found) text e.column e.fault ∧
    (∃ rest, BeginsAt text rest e.column) ∧ 1 ≤ e.column ∧ e.column ≤ byteLength text + 1

theorem map_cons_eq_error_iff {ε : Type} {error : ε} {line : Line} {read : Except ε (List Line)} :
    read.map (line :: ·) = .error error ↔ read = .error error := by
  cases read <;> simp [Except.map]

/-- If lines cannot be read, the first of them is at fault, or those below it cannot be read. -/
theorem readLines_cons_eq_error (h : readLines file number names (text :: texts) = .error e) :
    (∃ column fault, FaultOn names text column fault ∧
        e = ⟨file, number, column, String.ofList text, fault⟩) ∨
      ∃ line, Line.read text = .ok line ∧ (∀ name ∈ line.names, name ∉ names) ∧
        readLines file (number + 1) (line.names ++ names) texts = .error e := by
  rw [readLines] at h
  split at h
  · next error hread =>
    obtain rfl := Except.error.inj h
    exact .inl ⟨_, _, .malformed hread, rfl⟩
  · next line hread =>
    split at h
    · next hd =>
      have hnames : line.names = [] := by simp [Line.names, hd]
      exact .inr ⟨line, hread, by simp [hnames], by simpa [hnames, map_cons_eq_error_iff] using h⟩
    · next name column hd =>
      have hnames : line.names = [name] := by simp [Line.names, hd]
      split at h
      · next hagain =>
        obtain rfl := Except.error.inj h
        exact .inl ⟨column, _, .declaredTwice hread hd hagain (nameAt_of_read hread hd), rfl⟩
      · next hnew =>
        refine .inr ⟨line, hread, by simpa [hnames] using hnew, ?_⟩
        simpa [hnames, map_cons_eq_error_iff] using h

/-- If lines cannot be read, one of them is at fault and those above it can be read. -/
theorem exists_fault_of_readLines (h : readLines file number names texts = .error e) :
    ∃ above text below found column fault, texts = above ++ text :: below ∧
      readLines file number names above = .ok found ∧
      FaultOn (declaredNames found ++ names) text column fault ∧
      e = ⟨file, number + above.length, column, String.ofList text, fault⟩ := by
  induction texts generalizing number names with
  | nil => cases h
  | cons text texts ih =>
    rcases readLines_cons_eq_error h with ⟨column, fault, hfault, rfl⟩ | ⟨line, hread, hnew, hbelow⟩
    · exact ⟨[], text, texts, [], column, fault, rfl, rfl, hfault, rfl⟩
    · obtain ⟨above, at_fault, below, found, column, fault, rfl, habove, hfault, rfl⟩ := ih hbelow
      refine ⟨text :: above, at_fault, below, line :: found, column, fault, rfl,
        readLines_cons_eq_ok_iff.2 ⟨line, found, rfl, hread, hnew, habove⟩, ?_, ?_⟩
      · refine hfault.mono fun name hname => ?_
        rw [declaredNames_cons]
        simp only [List.mem_append] at hname ⊢
        tauto
      · rw [List.length_cons, Nat.add_right_comm, Nat.add_assoc]

theorem firstFault_of_readLines (h : readLines file 1 [] texts = .error e) :
    e.file = file ∧ FirstFault texts e := by
  obtain ⟨above, text, below, found, column, fault, htexts, habove, hfault, rfl⟩ :=
    exists_fault_of_readLines h
  rw [List.append_nil] at hfault
  obtain ⟨rest, hrest⟩ := hfault.beginsAt
  exact ⟨rfl, above, text, below, found, htexts, readLines_eq_ok_iff_readAs.1 habove,
    Nat.add_comm .., rfl, hfault, ⟨rest, hrest⟩, hrest.le⟩

/-! ## Parsing -/

/-- The path leads to a file that can hold a message. -/
def NamesMessage (path : String) : Prop := ∃ stem, stem? path = some stem ∧ isMessageName stem = true

theorem namesMessage_iff :
    NamesMessage path ↔ ∃ package name, namedByPath path = .ok (package, name) := by
  simp only [namedByPath_eq_ok_iff]
  constructor
  · rintro ⟨stem, hstem, hname⟩
    obtain ⟨file, hfile, rfl⟩ := Option.map_eq_some_iff.1 hstem
    exact ⟨_, _, file, hfile, rfl, hname, rfl⟩
  · rintro ⟨package, name, file, hfile, rfl, hname, -⟩
    exact ⟨_, Option.map_eq_some_iff.2 ⟨file, hfile, rfl⟩, hname⟩

theorem stem?_of_namedByPath {package : List String} {name : String}
    (h : namedByPath path = .ok (package, name)) : stem? path = some name := by
  obtain ⟨file, hfile, hstem, -⟩ := namedByPath_eq_ok_iff.1 h
  exact Option.map_eq_some_iff.2 ⟨file, hfile, hstem⟩

theorem parse_eq_ok_iff {text : String} {s : Schema} :
    parse text path = .ok s ↔ ∃ package name found, namedByPath path = .ok (package, name) ∧
      ReadAs (linesOf text) found ∧
      s = { name := path, dialect := .ros, package, messages := [messageOfLines name found] } := by
  constructor
  · intro h
    unfold parse at h
    split at h
    · cases h
    · next package name hpath =>
      split at h
      · cases h
      · next found hfound =>
        exact ⟨package, name, found, hpath, readLines_eq_ok_iff_readAs.1 hfound,
          (Except.ok.inj h).symm⟩
  · rintro ⟨package, name, found, hpath, hfound, rfl⟩
    have hread : readLines path 1 [] (lines (withoutMark text.toList)) = .ok found :=
      readLines_eq_ok_iff_readAs.2 hfound
    simp only [parse, hpath, hread]

theorem firstFault_of_parse {text : String} (hpath : NamesMessage path)
    (h : parse text path = .error e) : e.file = path ∧ FirstFault (linesOf text) e := by
  obtain ⟨package, name, hpath⟩ := namesMessage_iff.1 hpath
  simp only [parse, hpath] at h
  split at h
  · next error hread =>
    obtain rfl := Except.error.inj h
    exact firstFault_of_readLines hread
  · cases h

/-- A text parses exactly if the file that its path leads to can hold a message, each line can be read
and no name is declared twice; the fields and constants are then those that the lines declare, in their
order. Otherwise, if the file can hold a message, the error is about the first line at fault. And no
line is asked for the column of a text that is not an ending of it, so that no column goes below
zero. -/
theorem parse_exact (text path : String) :
    ((∃ s, parse text path = .ok s) ↔
        NamesMessage path ∧ ∃ found, ReadAs (linesOf text) found) ∧
      (∀ s, parse text path = .ok s → ∃ found m, ReadAs (linesOf text) found ∧ s.messages = [m] ∧
        stem? path = some m.name ∧ m.fields.map bareField = found.filterMap Line.field? ∧
        m.constants.map bareConstant = found.filterMap Line.constant?) ∧
      (NamesMessage path → ∀ e, parse text path = .error e →
        e.file = path ∧ FirstFault (linesOf text) e) ∧
      ∀ line, ColumnsInside line (trimStart line) := by
  refine ⟨?_, fun s h => ?_, fun hpath e h => firstFault_of_parse hpath h, columnsInside⟩
  · rw [namesMessage_iff]
    constructor
    · rintro ⟨s, h⟩
      obtain ⟨package, name, found, hpath, hfound, -⟩ := parse_eq_ok_iff.1 h
      exact ⟨⟨package, name, hpath⟩, found, hfound⟩
    · rintro ⟨⟨package, name, hpath⟩, found, hfound⟩
      exact ⟨_, parse_eq_ok_iff.2 ⟨package, name, found, hpath, hfound, rfl⟩⟩
  · obtain ⟨package, name, found, hpath, hfound, rfl⟩ := parse_eq_ok_iff.1 h
    exact ⟨found, _, hfound, rfl, stem?_of_namedByPath hpath, fields_messageOfLines name found,
      constants_messageOfLines name found⟩

/-- The column of a name that is declared twice is where the name begins, not its declaration. -/
example : parse "int32 a\n  uint8 a=2" "lab/Twice.msg" =
    .error ⟨"lab/Twice.msg", 2, 9, "  uint8 a=2", .declaredTwice "a"⟩ := by rfl

end

end SchemaBridge.RosText
