import SchemaBridge.Descriptor.OfSchema
import SchemaBridge.Proofs.PartByPart
import SchemaBridge.Proofs.TextLines

/-!
# Comments are found where they were put

A comment crosses over to a descriptor as a location with the path of its declaration. The paths of
all declarations of a schema are distinct (`nodup_schemaEntries`), so that every declaration finds its
own comment again (`commentsAt_of_mem`), in normal form: cut at line feeds, and without blanks at the
ends of its lines and without empty lines at its end (`normalComments`).
-/

namespace SchemaBridge

open Text

/-! ## The text of a comment -/

/-- The lines of one comment in normal form: only the first line keeps the space in front of it. -/
def normalComment (comment : String) : List String :=
  match comment.toList.splitOn '\n' with
  | [] => []
  | first :: rest =>
    String.ofList (trimEnd first) :: rest.map fun line => String.ofList (commentLineText line)

/-- The lines of some comments in normal form. -/
def normalComments (comments : List String) : List String :=
  dropEmptyEnd (comments.flatMap normalComment)

theorem commentLineText_cons (line : List Char) : commentLineText (' ' :: line) = trimEnd line := rfl

theorem trimEnd_append_returns {line ends : List Char} (h : ∀ c ∈ ends, c = '\r') :
    trimEnd (line ++ ends) = trimEnd line := by
  refine trimEnd_append fun c hc => ?_
  rw [h c hc]
  decide

theorem commentLineText_dropReturn (line : List Char) :
    commentLineText (dropReturn line) = commentLineText line := by
  obtain ⟨ends, hends, hreturn⟩ := exists_dropReturn line
  generalize dropReturn line = text at hends
  subst hends
  cases text with
  | nil =>
    have hnil : trimEnd ([] ++ ends) = trimEnd [] := trimEnd_append_returns hreturn
    have hline : commentLineText ends = trimEnd ends := by
      unfold commentLineText
      split
      · next rest => exact absurd (hreturn ' ' (List.mem_cons_self ..)) (by decide)
      · rfl
    rw [List.nil_append] at hnil ⊢
    rw [hline, hnil]
    rfl
  | cons c text =>
    by_cases hc : c = ' '
    · subst hc
      rw [List.cons_append, commentLineText_cons, commentLineText_cons,
        trimEnd_append_returns hreturn]
    · have hline : ∀ rest, commentLineText (c :: rest) = trimEnd (c :: rest) := by
        intro rest
        unfold commentLineText
        split
        · next h => exact absurd (List.cons.inj h).1 hc
        · rfl
      rw [List.cons_append, hline, hline, ← List.cons_append, trimEnd_append_returns hreturn]

theorem splitOn_space (comment : String) :
    ((" " ++ comment).toList.splitOn '\n').map (fun line => String.ofList (commentLineText line)) =
      normalComment comment := by
  have hcs : (" " ++ comment).toList = ' ' :: comment.toList := by simp
  rw [hcs, List.splitOn_cons_eq_if_modifyHead, if_neg (by decide), normalComment]
  obtain ⟨first, rest, hsplit⟩ := List.exists_cons_of_ne_nil (List.splitOn_ne_nil '\n' comment.toList)
  rw [hsplit]
  rfl

/-- The text that is written for some comments holds their lines in normal form. -/
theorem commentTextLines_unlines (comments : List String) :
    commentTextLines (unlines (comments.map (" " ++ ·))) = normalComments comments := by
  rw [commentTextLines, lines_unlines_eq, List.flatMap_map, List.map_flatMap, normalComments]
  congr 1
  refine List.flatMap_congr fun comment _ => ?_
  rw [List.map_map, ← splitOn_space]
  refine List.map_congr_left fun line _ => ?_
  rw [Function.comp_apply, commentLineText_dropReturn]

theorem dropEmptyEnd_subset (ls : List String) : dropEmptyEnd ls ⊆ ls := by
  intro l hl
  have := (List.dropWhile_suffix _).subset (List.mem_reverse.1 hl)
  exact List.mem_reverse.1 this

theorem commentLineText_subset (line : List Char) : commentLineText line ⊆ line := by
  unfold commentLineText
  split
  · exact fun c hc => List.mem_cons_of_mem _ ((prefix_dropEndWhile isBlank _).subset hc)
  · exact (prefix_dropEndWhile isBlank _).subset

theorem newline_not_mem_commentTextLines {text line : String} (h : line ∈ commentTextLines text) :
    '\n' ∉ line.toList := by
  obtain ⟨piece, hpiece, rfl⟩ := List.mem_map.1 (dropEmptyEnd_subset _ h)
  rw [String.toList_ofList]
  exact fun hm => newline_not_mem_lines hpiece (commentLineText_subset piece hm)

/-- The comments that are found at a path are lines. -/
theorem newline_not_mem_commentsAt {locations : List Location} {path : List Int32} {line : String}
    (h : line ∈ commentsAt locations path) : '\n' ∉ line.toList := by
  rw [commentsAt, List.getLastD_eq_getLast?] at h
  cases hlast : (((locations.filter (·.path = path)).map Location.comments).filter
      (¬ ·.isEmpty)).getLast? with
  | none =>
    rw [hlast] at h
    cases h
  | some found =>
    rw [hlast, Option.getD_some] at h
    obtain ⟨l, -, rfl⟩ := List.mem_map.1 (List.mem_filter.1 (List.mem_of_getLast? hlast)).1
    obtain ⟨text, -, hline⟩ := List.mem_flatMap.1 h
    exact newline_not_mem_commentTextLines hline

/-! ## Locations -/

/-- The path of a declaration with its comments. -/
abbrev CommentEntry := List Int32 × List String

/-- The locations of some declarations. -/
def entryLocations (entries : List CommentEntry) : List Location :=
  entries.flatMap fun e => commentLocations e.1 e.2

theorem comments_commentLocation (path : List Int32) (comments : List String) :
    (commentLocation path comments).comments = normalComments comments := by
  simp [commentLocation, Location.comments, commentTextLines_unlines]

theorem path_of_mem_commentLocations {path : List Int32} {comments : List String} {l : Location}
    (h : l ∈ commentLocations path comments) : l.path = path := by
  unfold commentLocations at h
  split at h
  · cases h
  · rw [List.mem_singleton.1 h]
    rfl

theorem entryLocations_cons (e : CommentEntry) (entries : List CommentEntry) :
    entryLocations (e :: entries) = commentLocations e.1 e.2 ++ entryLocations entries :=
  List.flatMap_cons

theorem entryLocations_append (entries entries' : List CommentEntry) :
    entryLocations (entries ++ entries') = entryLocations entries ++ entryLocations entries' :=
  List.flatMap_append

theorem filter_entryLocations (path : List Int32) (entries : List CommentEntry) :
    (entryLocations entries).filter (·.path = path) =
      entryLocations (entries.filter (·.1 = path)) := by
  induction entries with
  | nil => rfl
  | cons e entries ih =>
    rw [entryLocations_cons, List.filter_append, ih]
    by_cases h : e.1 = path
    · have hall : (commentLocations e.1 e.2).filter (·.path = path) = commentLocations e.1 e.2 := by
        refine List.filter_eq_self.2 fun l hl => ?_
        simpa [path_of_mem_commentLocations hl] using h
      rw [hall, List.filter_cons_of_pos (by simpa using h), entryLocations_cons]
    · have hnone : (commentLocations e.1 e.2).filter (·.path = path) = [] := by
        refine List.filter_eq_nil_iff.2 fun l hl => ?_
        simpa [path_of_mem_commentLocations hl] using h
      rw [hnone, List.filter_cons_of_neg (by simpa using h), List.nil_append]

/-- Where paths are distinct, every declaration finds its own comments. -/
theorem commentsAt_of_mem {entries : List CommentEntry} (h : (entries.map (·.1)).Nodup)
    {e : CommentEntry} (he : e ∈ entries) :
    commentsAt (entryLocations entries) e.1 = normalComments e.2 := by
  rw [commentsAt, filter_entryLocations, filter_key h he, entryLocations, List.flatMap_singleton]
  unfold commentLocations
  split
  · next hempty =>
    rw [List.isEmpty_iff.1 hempty]
    rfl
  · rw [List.map_singleton, comments_commentLocation]
    by_cases hnone : normalComments e.2 = []
    · rw [hnone]
      rfl
    · rw [List.filter_cons_of_pos (by simpa using hnone)]
      rfl

/-! ## Paths -/

theorem prefix_childPath (path : List Int32) (kind : PathKind) (index : Nat) :
    path <+: childPath path kind index := List.prefix_append ..

/-- A path lies under at most one part of a declaration. -/
theorem eq_of_prefix_childPath {path p : List Int32} {kind kind' : PathKind} {i j : Nat}
    (h : childPath path kind i <+: p) (h' : childPath path kind' j <+: p) :
    kind.number = kind'.number ∧ Int32.ofNat i = Int32.ofNat j := by
  have hlen : (childPath path kind i).length = (childPath path kind' j).length := by
    simp [childPath]
  have heq := (List.prefix_of_prefix_length_le h h' hlen.le).eq_of_length hlen
  simpa [childPath] using heq

/-- The number of positions that a path tells apart. -/
def positionLimit : Nat := 2147483648

theorem ofNat_inj_of_lt {i j : Nat} (hi : i < positionLimit) (hj : j < positionLimit)
    (h : Int32.ofNat i = Int32.ofNat j) : i = j := by
  have := congrArg Int32.toInt h
  rw [Int32.toInt_ofNat_of_lt hi, Int32.toInt_ofNat_of_lt hj] at this
  omega

/-- Entries that lie under the parts of one kind of a declaration, with distinct paths. -/
structure Group (path : List Int32) (kind : PathKind) (entries : List CommentEntry) : Prop where
  under : ∀ e ∈ entries, ∃ i, childPath path kind i <+: e.1
  nodup : (entries.map (·.1)).Nodup

theorem Group.ne_self {path : List Int32} {kind : PathKind} {entries : List CommentEntry}
    (h : Group path kind entries) {e : CommentEntry} (he : e ∈ entries) : e.1 ≠ path := by
  obtain ⟨i, hi⟩ := h.under e he
  intro heq
  have := hi.length_le
  rw [heq, childPath, List.length_append, List.length_cons] at this
  omega

theorem Group.ne {path : List Int32} {kind kind' : PathKind} {entries entries' : List CommentEntry}
    (h : Group path kind entries) (h' : Group path kind' entries')
    (hk : kind.number ≠ kind'.number) {e e' : CommentEntry} (he : e ∈ entries)
    (he' : e' ∈ entries') : e.1 ≠ e'.1 := by
  obtain ⟨i, hi⟩ := h.under e he
  obtain ⟨j, hj⟩ := h'.under e' he'
  intro heq
  rw [← heq] at hj
  exact hk (eq_of_prefix_childPath hi hj).1

/-- The entries of a declaration: they lie under its path, whatever that is, and are distinct. -/
structure Rooted (entries : List Int32 → List CommentEntry) : Prop where
  under : ∀ path, ∀ e ∈ entries path, path <+: e.1
  nodup : ∀ path, ((entries path).map (·.1)).Nodup

/-- The entries of the declarations at the paths `childPath path kind index`, …. -/
def childEntries {α : Type} (entries : List Int32 → α → List CommentEntry) (path : List Int32)
    (kind : PathKind) : Nat → List α → List CommentEntry
  | _, [] => []
  | index, a :: as =>
    entries (childPath path kind index) a ++ childEntries entries path kind (index + 1) as

section

variable {α : Type} {entries : List Int32 → α → List CommentEntry} {path : List Int32}
  {kind : PathKind}

theorem under_childEntries {as : List α} (h : ∀ a ∈ as, Rooted (entries · a)) {index : Nat} :
    ∀ e ∈ childEntries entries path kind index as,
      ∃ i, index ≤ i ∧ i < index + as.length ∧ childPath path kind i <+: e.1 := by
  induction as generalizing index with
  | nil => simp [childEntries]
  | cons a as ih =>
    obtain ⟨ha, has⟩ := List.forall_mem_cons.1 h
    intro e he
    rw [List.length_cons]
    rcases List.mem_append.1 he with he | he
    · exact ⟨index, by omega, by omega, ha.under _ e he⟩
    · obtain ⟨i, h1, h2, hi⟩ := ih has e he
      exact ⟨i, by omega, by omega, hi⟩

theorem nodup_childEntries {as : List α} (h : ∀ a ∈ as, Rooted (entries · a)) {index : Nat}
    (hlen : index + as.length ≤ positionLimit) :
    ((childEntries entries path kind index as).map (·.1)).Nodup := by
  induction as generalizing index with
  | nil => simp [childEntries]
  | cons a as ih =>
    obtain ⟨ha, has⟩ := List.forall_mem_cons.1 h
    rw [List.length_cons] at hlen
    rw [childEntries, List.map_append]
    refine List.nodup_append.2 ⟨ha.nodup _, ih has (by omega), fun p hp p' hp' heq => ?_⟩
    obtain ⟨e, he, rfl⟩ := List.mem_map.1 hp
    obtain ⟨e', he', rfl⟩ := List.mem_map.1 hp'
    obtain ⟨i, h1, h2, hi⟩ := under_childEntries has e' he'
    rw [← heq] at hi
    have := ofNat_inj_of_lt (by omega) (by omega) (eq_of_prefix_childPath (ha.under _ e he) hi).2
    omega

theorem group_childEntries {as : List α} (h : ∀ a ∈ as, Rooted (entries · a))
    (hlen : as.length ≤ positionLimit) : Group path kind (childEntries entries path kind 0 as) where
  under e he := by
    obtain ⟨i, -, -, hi⟩ := under_childEntries h e he
    exact ⟨i, hi⟩
  nodup := nodup_childEntries h (by omega)

theorem entryLocations_childEntries (as : List α) (index : Nat) :
    entryLocations (childEntries entries path kind index as) =
      (as.mapIdx fun i a => entryLocations (entries (childPath path kind (index + i)) a)).flatten := by
  induction as generalizing index with
  | nil => rfl
  | cons a as ih =>
    rw [childEntries, entryLocations_append, ih, List.mapIdx_cons, List.flatten_cons]
    simp only [Nat.add_zero, Nat.add_assoc, Nat.add_comm 1]

end

/-! ## The declarations of a schema -/

/-- The entry of a declaration without parts. -/
def leafEntries (comments : List String) (path : List Int32) : List CommentEntry := [(path, comments)]

/-- The entries of an enum and of its values. -/
def enumEntries (path : List Int32) (e : EnumDef) : List CommentEntry :=
  (path, e.comments) ::
    childEntries (fun path v => leafEntries v.comments path) path .enumValue 0 e.zeroFirst.values

mutual

/-- The entries of a message and of all its parts. -/
def messageEntries (path : List Int32) : Message → List CommentEntry
  | ⟨_, fields, nested, enums, _, comments⟩ =>
    (path, comments) ::
      (childEntries (fun path f => leafEntries f.comments path) path .messageField 0 fields ++
        messagesEntries path .messageNested 0 nested ++
        childEntries enumEntries path .messageEnum 0 enums)

/-- The entries of the messages at the paths `childPath path kind index`, …. -/
def messagesEntries (path : List Int32) (kind : PathKind) (index : Nat) :
    List Message → List CommentEntry
  | [] => []
  | m :: ms =>
    messageEntries (childPath path kind index) m ++ messagesEntries path kind (index + 1) ms

end

/-- The entries of a schema. -/
def schemaEntries (s : Schema) : List CommentEntry :=
  messagesEntries [] .fileMessage 0 s.messages ++ childEntries enumEntries [] .fileEnum 0 s.enums

theorem messagesEntries_eq (path : List Int32) (kind : PathKind) (index : Nat) (ms : List Message) :
    messagesEntries path kind index ms = childEntries messageEntries path kind index ms := by
  induction ms generalizing index with
  | nil => rfl
  | cons m ms ih => rw [messagesEntries, childEntries, ih]

theorem entryLocations_enumEntries (path : List Int32) (e : EnumDef) :
    entryLocations (enumEntries path e) = e.locations path := by
  rw [enumEntries, entryLocations_cons, entryLocations_childEntries, EnumDef.locations]
  simp [leafEntries, entryLocations]

theorem entryLocations_enums (path : List Int32) (kind : PathKind) (es : List EnumDef) :
    entryLocations (childEntries enumEntries path kind 0 es) = EnumDef.allLocations path kind es := by
  simp only [entryLocations_childEntries, entryLocations_enumEntries, EnumDef.allLocations,
    Nat.zero_add]

mutual

theorem entryLocations_messageEntries : ∀ (m : Message) (path : List Int32),
    entryLocations (messageEntries path m) = m.locations path
  | ⟨name, fields, nested, enums, constants, comments⟩, path => by
    have hfields : entryLocations
        (childEntries (fun path f => leafEntries f.comments path) path .messageField 0 fields) =
          Message.fieldLocations path fields := by
      rw [entryLocations_childEntries, Message.fieldLocations]
      simp [leafEntries, entryLocations]
    rw [messageEntries, entryLocations_cons, entryLocations_append, entryLocations_append, hfields,
      entryLocations_messagesEntries nested, entryLocations_enums, Message.locations]
    simp only [List.append_assoc]

theorem entryLocations_messagesEntries : ∀ (ms : List Message) (path : List Int32)
    (kind : PathKind) (index : Nat),
    entryLocations (messagesEntries path kind index ms) = Message.allLocations path kind index ms
  | [], _, _, _ => rfl
  | m :: ms, path, kind, index => by
    rw [messagesEntries, entryLocations_append, entryLocations_messageEntries m,
      entryLocations_messagesEntries ms, Message.allLocations]

end

theorem entryLocations_schemaEntries (s : Schema) :
    entryLocations (schemaEntries s) = s.locations := by
  rw [schemaEntries, entryLocations_append, entryLocations_messagesEntries, entryLocations_enums,
    Schema.locations]

/-! ## The paths of a schema are distinct -/

mutual

/-- All lists of a message have positions that fit in 31 bits. -/
def Message.Short : Message → Prop
  | ⟨_, fields, nested, enums, _, _⟩ =>
    fields.length < positionLimit ∧ nested.length < positionLimit ∧ enums.length < positionLimit ∧
      (∀ e ∈ enums, e.values.length < positionLimit) ∧ AllShort nested

/-- All lists of some messages have positions that fit in 31 bits. -/
def Message.AllShort : List Message → Prop
  | [] => True
  | m :: ms => Short m ∧ AllShort ms

end

/-- All lists of a schema have positions that fit in 31 bits. -/
def Schema.Short (s : Schema) : Prop :=
  s.messages.length < positionLimit ∧ s.enums.length < positionLimit ∧
    (∀ e ∈ s.enums, e.values.length < positionLimit) ∧ Message.AllShort s.messages

theorem rooted_leafEntries (comments : List String) : Rooted (leafEntries comments) where
  under path e he := by
    obtain rfl := List.mem_singleton.1 he
    exact List.prefix_rfl
  nodup path := by simp [leafEntries]

theorem length_zeroFirst (e : EnumDef) : e.zeroFirst.values.length ≤ e.values.length + 1 := by
  simp only [EnumDef.zeroFirst, List.length_cons]
  have := (List.eraseP_sublist (p := fun v : EnumValue => decide (v.number = 0))
    (l := e.values)).length_le
  omega

theorem rooted_enumEntries {e : EnumDef} (h : e.values.length < positionLimit) :
    Rooted (enumEntries · e) := by
  have hgroup : ∀ path, Group path .enumValue
      (childEntries (fun path v => leafEntries v.comments path) path .enumValue 0
        e.zeroFirst.values) := by
    intro path
    have := length_zeroFirst e
    exact group_childEntries (fun v _ => rooted_leafEntries v.comments) (by omega)
  refine ⟨fun path entry he => ?_, fun path => ?_⟩
  · rcases List.mem_cons.1 he with rfl | he
    · exact List.prefix_rfl
    · obtain ⟨i, hi⟩ := (hgroup path).under entry he
      exact (prefix_childPath path _ i).trans hi
  · rw [enumEntries, List.map_cons, List.nodup_cons]
    refine ⟨fun hm => ?_, (hgroup path).nodup⟩
    obtain ⟨entry, he, heq⟩ := List.mem_map.1 hm
    exact (hgroup path).ne_self he heq

mutual

theorem rooted_messageEntries : ∀ m : Message, m.Short → Rooted (messageEntries · m)
  | ⟨name, fields, nested, enums, constants, comments⟩, h => by
    obtain ⟨hfields, hnested, henums, hvalues, hall⟩ := h
    have gfields : ∀ path, Group path .messageField
        (childEntries (fun path f => leafEntries f.comments path) path .messageField 0 fields) :=
      fun path => group_childEntries (fun f _ => rooted_leafEntries f.comments) hfields.le
    have gnested : ∀ path, Group path .messageNested
        (messagesEntries path .messageNested 0 nested) := by
      intro path
      rw [messagesEntries_eq]
      exact group_childEntries (rooted_messagesEntries nested hall) hnested.le
    have genums : ∀ path, Group path .messageEnum
        (childEntries enumEntries path .messageEnum 0 enums) :=
      fun path => group_childEntries (fun e he => rooted_enumEntries (hvalues e he)) henums.le
    refine ⟨fun path entry he => ?_, fun path => ?_⟩
    · have hchild : entry = (path, comments) ∨ ∃ kind i, childPath path kind i <+: entry.1 := by
        rcases List.mem_cons.1 he with rfl | he
        · exact .inl rfl
        · rcases List.mem_append.1 he with he | he
          · rcases List.mem_append.1 he with he | he
            · exact .inr ⟨_, (gfields path).under entry he⟩
            · exact .inr ⟨_, (gnested path).under entry he⟩
          · exact .inr ⟨_, (genums path).under entry he⟩
      rcases hchild with rfl | ⟨kind, i, hi⟩
      · exact List.prefix_rfl
      · exact (prefix_childPath path kind i).trans hi
    · rw [messageEntries, List.map_cons, List.map_append, List.map_append, List.nodup_cons]
      refine ⟨fun hm => ?_, ?_⟩
      · rcases List.mem_append.1 hm with hm | hm
        · rcases List.mem_append.1 hm with hm | hm
          · obtain ⟨entry, he, heq⟩ := List.mem_map.1 hm
            exact (gfields path).ne_self he heq
          · obtain ⟨entry, he, heq⟩ := List.mem_map.1 hm
            exact (gnested path).ne_self he heq
        · obtain ⟨entry, he, heq⟩ := List.mem_map.1 hm
          exact (genums path).ne_self he heq
      · refine List.nodup_append.2 ⟨List.nodup_append.2 ⟨(gfields path).nodup, (gnested path).nodup,
          fun p hp p' hp' => ?_⟩, (genums path).nodup, fun p hp p' hp' => ?_⟩
        · obtain ⟨entry, he, rfl⟩ := List.mem_map.1 hp
          obtain ⟨entry', he', rfl⟩ := List.mem_map.1 hp'
          exact (gfields path).ne (gnested path) (by decide) he he'
        · obtain ⟨entry', he', rfl⟩ := List.mem_map.1 hp'
          rcases List.mem_append.1 hp with hp | hp
          · obtain ⟨entry, he, rfl⟩ := List.mem_map.1 hp
            exact (gfields path).ne (genums path) (by decide) he he'
          · obtain ⟨entry, he, rfl⟩ := List.mem_map.1 hp
            exact (gnested path).ne (genums path) (by decide) he he'

theorem rooted_messagesEntries : ∀ ms : List Message, Message.AllShort ms →
    ∀ m ∈ ms, Rooted (messageEntries · m)
  | [], _ => by simp
  | m :: ms, h => by
    obtain ⟨hm, hms⟩ := h
    exact List.forall_mem_cons.2 ⟨rooted_messageEntries m hm, rooted_messagesEntries ms hms⟩

end

/-- No two declarations of a schema have the same path. -/
theorem nodup_schemaEntries {s : Schema} (h : s.Short) : ((schemaEntries s).map (·.1)).Nodup := by
  obtain ⟨hmessages, henums, hvalues, hall⟩ := h
  have gmessages : Group [] .fileMessage (messagesEntries [] .fileMessage 0 s.messages) := by
    rw [messagesEntries_eq]
    exact group_childEntries (rooted_messagesEntries s.messages hall) hmessages.le
  have genums : Group [] .fileEnum (childEntries enumEntries [] .fileEnum 0 s.enums) :=
    group_childEntries (fun e he => rooted_enumEntries (hvalues e he)) henums.le
  rw [schemaEntries, List.map_append]
  refine List.nodup_append.2 ⟨gmessages.nodup, genums.nodup, fun p hp p' hp' => ?_⟩
  obtain ⟨e, he, rfl⟩ := List.mem_map.1 hp
  obtain ⟨e', he', rfl⟩ := List.mem_map.1 hp'
  exact gmessages.ne genums (by decide) he he'

/-- Every declaration of a schema finds its comments among the schema's locations. -/
theorem commentsAt_locations {s : Schema} (h : s.Short) {e : CommentEntry}
    (he : e ∈ schemaEntries s) : commentsAt s.locations e.1 = normalComments e.2 := by
  rw [← entryLocations_schemaEntries]
  exact commentsAt_of_mem (nodup_schemaEntries h) he

end SchemaBridge
