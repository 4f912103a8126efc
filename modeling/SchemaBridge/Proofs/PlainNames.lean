import SchemaBridge.Proofs.DescriptorRoundTrip
import SchemaBridge.Resolve

/-!
# Messages of plain names in a symbol table

A name is plain (`TypeName.IsPlain`) if it is the name of an outermost message in a package of at most
one segment, and no segment has a dot. Dots then separate the segments of the qualified name and
nothing else (`qualified_inj`), and no plain name lies in `google.protobuf`. In a table of such messages
a name is found if it is listed once (`exists_named_iff`), and no two messages collide once nesting
is flattened, whatever their packages are (`Outermost.collisions_eq_none`).
-/

namespace SchemaBridge

/-! ## Plain names -/

/-- A segment of a qualified name. -/
def IsSegment (s : String) : Prop := s ≠ "" ∧ '.' ∉ s.toList

/-- An outermost message in a package of at most one segment. -/
structure TypeName.IsPlain (n : TypeName) : Prop where
  package : n.package.length ≤ 1
  path : n.path.length = 1
  segments : ∀ s ∈ n.package ++ n.path, IsSegment s

variable {n n' : TypeName} {name : String} {segments : List String}

/-- The pieces of a text are not empty, and no separator is in them. -/
theorem of_mem_piecesBetween {sep : Char → Bool} {text piece : String}
    (h : piece ∈ piecesBetween sep text) : piece ≠ "" ∧ ∀ c ∈ piece.toList, sep c = false := by
  obtain ⟨chars, hchars, rfl⟩ := List.mem_map.1 h
  obtain ⟨hchars, hne⟩ := List.mem_filter.1 hchars
  refine ⟨by simpa using hne, fun c hc => ?_⟩
  exact Text.of_mem_splitOnP hchars c (by simpa using hc)

theorem piecesBetween_eq_singleton {sep : Char → Bool} {text : String} (hne : text ≠ "")
    (h : ∀ c ∈ text.toList, sep c = false) : piecesBetween sep text = [text] := by
  have hsplit : text.toList.splitOnP sep = [text.toList] :=
    List.splitOnP_eq_singleton fun c hc => by simp [h c hc]
  have hempty : (!text.toList.isEmpty) = true := by simpa using hne
  rw [piecesBetween, hsplit]
  simp only [Bool.not_eq_true, Bool.decide_eq_false, hempty, List.filter_cons_of_pos,
    List.filter_nil, List.map_cons, String.ofList_toList, List.map_nil]

theorem packageSegments_of_isSegment {s : String} (h : IsSegment s) : packageSegments s = [s] := by
  refine piecesBetween_eq_singleton h.1 fun c hc => ?_
  have hne : c ≠ '.' := fun heq => h.2 (heq ▸ hc)
  simpa using hne

theorem flatMap_packageSegments (h : ∀ s ∈ segments, IsSegment s) :
    segments.flatMap packageSegments = segments := by
  induction segments with
  | nil => rfl
  | cons s segments ih =>
    obtain ⟨hs, hsegments⟩ := List.forall_mem_cons.1 h
    rw [List.flatMap_cons, packageSegments_of_isSegment hs, ih hsegments, List.singleton_append]

namespace TypeName

theorem IsPlain.exists_path (h : n.IsPlain) : ∃ name, n.path = [name] :=
  List.length_eq_one_iff.1 h.path

theorem IsPlain.flat_eq (h : n.IsPlain) : n.flat = n := by
  obtain ⟨name, hname⟩ := h.exists_path
  rw [flat, TypeName.name, hname]
  cases n
  simpa using hname.symm

theorem IsPlain.packageSegments_qualified (h : n.IsPlain) :
    packageSegments n.qualified = n.package ++ n.path := by
  rw [qualified, packageSegments_intercalate, flatMap_packageSegments h.segments]

/-- Plain names can be told apart by their qualified forms. -/
theorem IsPlain.qualified_inj (h : n.IsPlain) (h' : n'.IsPlain) :
    n.qualified = n'.qualified ↔ n = n' := by
  constructor
  · intro heq
    have hsegments : n.package ++ n.path = n'.package ++ n'.path := by
      rw [← h.packageSegments_qualified, heq, h'.packageSegments_qualified]
    have hlen : n.path.length = n'.path.length := by rw [h.path, h'.path]
    obtain ⟨hpackage, hpath⟩ := List.append_inj' hsegments hlen
    cases n
    cases n'
    simp_all
  · intro heq
    rw [heq]

/-- A plain name has one dot, or none. -/
theorem IsPlain.count_dot (h : n.IsPlain) : n.qualified.toList.count '.' ≤ 1 := by
  obtain ⟨name, hname⟩ := h.exists_path
  have hdot : ∀ s ∈ n.package ++ n.path, s.toList.count '.' = 0 := fun s hs =>
    List.count_eq_zero.2 (h.segments s hs).2
  match hpackage : n.package, h.package with
  | [], _ =>
    have := hdot name (by simp [hname])
    simp [qualified, hpackage, hname, this]
  | [p], _ =>
    have hp := hdot p (by simp [hpackage])
    have hname' := hdot name (by simp [hname])
    simp [qualified, hpackage, hname, String.intercalate_cons_cons, hp, hname']
  | _ :: _ :: _, hlen => simp at hlen

end TypeName

theorem count_dot_protoName (w : WellKnown) : w.protoName.toList.count '.' = 2 := by
  cases w <;> decide

theorem not_isGoogleName (h : name.toList.count '.' ≤ 1) : isGoogleName name = false := by
  cases hgoogle : isGoogleName name with
  | false => rfl
  | true =>
    have hprefix : "google.protobuf.".toList <+: name.toList := List.isPrefixOf_iff_prefix.1 hgoogle
    have hle : "google.protobuf.".toList.count '.' ≤ name.toList.count '.' :=
      hprefix.sublist.count_le _
    have htwo : "google.protobuf.".toList.count '.' = 2 := by decide
    omega

/-- A name with fewer dots than those of `google.protobuf` means no well-known type. -/
theorem ofProtoName?_absolute (h : name.toList.count '.' ≤ 1) :
    WellKnown.ofProtoName? ("." ++ name) = none := by
  rw [WellKnown.ofProtoName?, List.find?_eq_none]
  intro w _
  have hcount := count_dot_protoName w
  have hstart : w.protoName.toList.head? ≠ some '.' := by cases w <;> decide
  have hplain : w.protoName ≠ "." ++ name := by
    intro heq
    rw [heq] at hstart
    simp at hstart
  have habsolute : "." ++ w.protoName ≠ "." ++ name := by
    intro heq
    have hlist := congrArg (fun s : String => s.toList.count '.') heq
    simp [hcount] at hlist
    omega
  simp [hplain, habsolute]

theorem ofProtoName?_relative (h : name.toList.count '.' ≤ 1) : WellKnown.ofProtoName? name = none := by
  rw [WellKnown.ofProtoName?, List.find?_eq_none]
  intro w _
  have hcount := count_dot_protoName w
  have hplain : w.protoName ≠ name := by
    rintro rfl
    omega
  have habsolute : "." ++ w.protoName ≠ name := by
    rintro rfl
    rw [String.toList_append, List.count_append, hcount] at h
    omega
  simp [hplain, habsolute]

/-- A plain name does not begin with a dot. -/
theorem TypeName.IsPlain.exists_cons (h : n.IsPlain) :
    ∃ c cs, n.qualified.toList = c :: cs ∧ c ≠ '.' := by
  obtain ⟨name, hname⟩ := h.exists_path
  have hcons : ∀ s ∈ n.package ++ n.path, ∃ c cs, s.toList = c :: cs ∧ c ≠ '.' := by
    intro s hs
    obtain ⟨hne, hdot⟩ := h.segments s hs
    obtain ⟨c, cs, hcs⟩ := List.exists_cons_of_ne_nil (show s.toList ≠ [] by simpa using hne)
    exact ⟨c, cs, hcs, fun heq => hdot (by simp [hcs, heq])⟩
  match hpackage : n.package, h.package with
  | [], _ =>
    obtain ⟨c, cs, hcs, hc⟩ := hcons name (by simp [hname])
    exact ⟨c, cs, by simp [TypeName.qualified, hpackage, hname, hcs], hc⟩
  | [p], _ =>
    obtain ⟨c, cs, hcs, hc⟩ := hcons p (by simp [hpackage])
    exact ⟨c, cs ++ '.' :: name.toList,
      by simp [TypeName.qualified, hpackage, hname, String.intercalate_cons_cons, hcs], hc⟩
  | _ :: _ :: _, hlen => simp at hlen

theorem withoutDots_absolute (h : n.IsPlain) : withoutDots ("." ++ n.qualified) = n.qualified := by
  obtain ⟨c, cs, hcs, hc⟩ := h.exists_cons
  have hdrop : ("." ++ n.qualified).toList.dropWhile (· = '.') = n.qualified.toList := by
    simp [hcs, hc]
  rw [withoutDots, hdrop, String.ofList_toList]

/-! ## Tables of outermost messages -/

/-- A table that holds outermost messages only, in whatever packages. -/
def SymbolTable.Outermost (t : SymbolTable) : Prop :=
  ∀ s ∈ t.symbols, s.kind = .message ∧ s.name.flat = s.name

/-- Nesting is flat already. -/
theorem SymbolTable.Outermost.collisions_eq_none {t : SymbolTable} (h : t.Outermost)
    (hn : n.flat = n) : t.collisions n = none := by
  have hall : ∀ x ∈ t.flattenedTo n, x = n.qualified := by
    intro x hx
    obtain ⟨s, hs, -, hflat, rfl⟩ := mem_flattenedTo.1 hx
    rwa [(h s hs).2, hn] at hflat
  refine collisions_eq_none_iff.2 fun x hx y hy => ?_
  rw [hall x hx, hall y hy]

/-- A table has as many types of a name as it lists the name times. -/
theorem length_filter_name (t : SymbolTable) (n : TypeName) :
    (t.symbols.filter (·.name = n)).length = (t.symbols.map (·.name)).count n := by
  rw [List.count, List.countP_map, ← List.countP_eq_length_filter]
  rfl

/-! ## Tables of plain names -/

/-- A table that holds messages of the given names, all of them plain. -/
structure SymbolTable.Lists (t : SymbolTable) (names : List TypeName) : Prop where
  listed : t.symbols.map (·.name) = names
  messages : ∀ s ∈ t.symbols, s.kind = .message
  plain : ∀ n ∈ names, n.IsPlain

namespace SymbolTable.Lists

variable {t : SymbolTable} {names : List TypeName} {file : String} {s : Symbol}

theorem plain_name (h : t.Lists names) (hs : s ∈ t.symbols) : s.name.IsPlain :=
  h.plain _ (h.listed ▸ List.mem_map_of_mem hs)

/-- As many symbols have a name as it is listed times. -/
theorem length_named (h : t.Lists names) (hn : n.IsPlain) :
    (t.named n.qualified).length = names.count n := by
  have hfilter : t.named n.qualified = t.symbols.filter (·.name = n) := by
    refine List.filter_congr fun s hs => ?_
    have hname := (h.plain_name hs).qualified_inj hn
    simp only [hname]
  rw [hfilter, length_filter_name, h.listed]

theorem typeRef_of_named (h : t.Lists names) (hn : n.IsPlain) (hnamed : t.named n.qualified = [s]) :
    s.typeRef = .message n := by
  obtain ⟨hs, hname⟩ := mem_named.1 (hnamed ▸ List.mem_singleton_self s)
  rw [Symbol.typeRef, h.messages s hs, ((h.plain_name hs).qualified_inj hn).1 hname]

/-- A message that is found has a plain name. -/
theorem isPlain_of_named {qualified : String} (h : t.Lists names) (hnamed : t.named qualified = [s])
    (htype : s.typeRef = .message n) : n.IsPlain := by
  obtain ⟨hs, -⟩ := mem_named.1 (hnamed ▸ List.mem_singleton_self s)
  rw [Symbol.typeRef, h.messages s hs] at htype
  exact TypeRef.message.inj htype ▸ h.plain_name hs

/-- A name is found if it is listed once: otherwise it is either missing or ambiguous. -/
theorem exists_named_iff (h : t.Lists names) (hn : n.IsPlain) :
    (∃ s, t.named n.qualified = [s]) ↔ names.count n = 1 := by
  rw [← h.length_named hn, List.length_eq_one_iff]

theorem named_eq_nil_iff (h : t.Lists names) (hn : n.IsPlain) :
    t.named n.qualified = [] ↔ names.count n = 0 := by
  rw [← h.length_named hn, List.length_eq_zero_iff]

theorem outermost (h : t.Lists names) : t.Outermost := fun s hs =>
  ⟨h.messages s hs, (h.plain_name hs).flat_eq⟩

end SymbolTable.Lists

/-! ## Files of one message -/

/-- The names of the outermost messages of a file. -/
def Schema.messageNames (s : Schema) : List TypeName :=
  s.messages.map fun m => (TypeName.root s.package).child m.name

/-- A file that declares one message, and nothing in it but fields and constants. -/
structure Schema.Single (s : Schema) (m : Message) : Prop where
  messages : s.messages = [m]
  enums : s.enums = []
  nested : m.nested = []
  inner : m.enums = []

variable {s : Schema} {m : Message}

theorem Schema.Single.flatten_eq (h : s.Single m) : s.flatten = [(⟨s.package, [m.name]⟩, m)] := by
  obtain ⟨name, fields, nested, enums, constants, comments⟩ := m
  obtain rfl : nested = [] := h.nested
  rw [Schema.flatten, h.messages]
  rfl

theorem Schema.Single.messageNames_eq (h : s.Single m) : s.messageNames = [⟨s.package, [m.name]⟩] := by
  rw [messageNames, h.messages]
  rfl

theorem Schema.Single.namedEnums_eq (h : s.Single m) : s.namedEnums = [] := by
  simp [namedEnums, h.flatten_eq, h.enums, Message.namedEnums, h.inner]

theorem Schema.Single.symbols_eq (h : s.Single m) :
    s.symbols = [⟨⟨s.package, [m.name]⟩, s.name, .message⟩] := by
  simp [symbols, h.namedEnums_eq, h.flatten_eq]

theorem outermost_ofFiles {files : List Schema} (hsingle : ∀ s ∈ files, ∃ m, s.Single m) :
    (SymbolTable.ofFiles files).Outermost := by
  rw [SymbolTable.ofFiles_eq]
  intro symbol hsymbol
  obtain ⟨s, hs, hsymbol⟩ := List.mem_flatMap.1 hsymbol
  obtain ⟨m, h⟩ := hsingle s hs
  rw [h.symbols_eq] at hsymbol
  rw [List.mem_singleton.1 hsymbol]
  exact ⟨rfl, rfl⟩

theorem names_ofFiles {files : List Schema} (hsingle : ∀ s ∈ files, ∃ m, s.Single m) :
    (SymbolTable.ofFiles files).symbols.map (·.name) = files.flatMap Schema.messageNames := by
  rw [SymbolTable.ofFiles_eq, List.map_flatMap]
  refine List.flatMap_congr fun s hs => ?_
  obtain ⟨m, h⟩ := hsingle s hs
  rw [h.symbols_eq, h.messageNames_eq]
  rfl

/-- The table of files of one message lists the names of the messages. -/
theorem lists_ofFiles {files : List Schema} (hsingle : ∀ s ∈ files, ∃ m, s.Single m)
    (hplain : ∀ n ∈ files.flatMap Schema.messageNames, n.IsPlain) :
    (SymbolTable.ofFiles files).Lists (files.flatMap Schema.messageNames) where
  listed := names_ofFiles hsingle
  messages symbol hsymbol := (outermost_ofFiles hsingle symbol hsymbol).1
  plain := hplain

end SchemaBridge
