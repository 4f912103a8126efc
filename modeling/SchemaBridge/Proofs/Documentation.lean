import SchemaBridge.Proofs.ImportClosure
import SchemaBridge.Proofs.ParseFaults

/-!
# Documentation is kept from the text to proto3

The comments of a parsed text are those of its declarations, in the order of the lines, and before and
after them those of the message (`Documents`). Mapped to proto3, each field has in addition the lines of
the constants that stand just before it, and its bounds; the message has the lines of the constants that
no field follows (`Carries`). So nothing is lost and nothing is written twice (`Carries.perm`).

The lines are followed by a draft; what it holds is said for one line more (`Draft.Holds.add`) and then
for all of them (`Draft.holds_foldl`).
-/

namespace SchemaBridge

namespace RosText

/-! ## Declarations in the order of their lines -/

inductive Declaration where
  | field (f : Field)
  | constant (c : Constant)

namespace Declaration

def field? : Declaration → Option Field
  | field f => some f
  | constant _ => none

def constant? : Declaration → Option Constant
  | field _ => none
  | constant c => some c

def comments : Declaration → List String
  | field f => f.comments
  | constant c => c.comments

/-- A declaration without its comments, and a constant without its place among the fields. -/
def bare : Declaration → Declaration
  | field f => field (bareField f)
  | constant c => constant (bareConstant c)

end Declaration

def fieldsIn (declared : List Declaration) : List Field := declared.filterMap Declaration.field?

def constantsIn (declared : List Declaration) : List Constant :=
  declared.filterMap Declaration.constant?

/-- The declaration on a line, without comments. -/
def Line.declaration? : Line → Option Declaration
  | .field f => some (.field (bareField (f.field [])))
  | .constant c => some (.constant (bareConstant (c.constant [] 0)))
  | _ => none

/-- The draft holds what the lines say: `declared` are its fields and constants in the order of the
lines, each constant placed before the field that is declared next. -/
structure Draft.Holds (d : Draft) (found : List Line) (declared : List Declaration) : Prop where
  fields : fieldsIn declared = d.fields
  constants : constantsIn declared = d.constants
  order : declared.map Declaration.bare = found.filterMap Line.declaration?
  comments : found.flatMap Line.comments =
    d.comments ++ declared.flatMap Declaration.comments ++ d.pending
  anchors : ∀ before c after, declared = before ++ .constant c :: after →
    c.anchor = some (fieldsIn before).length

variable {d : Draft} {found : List Line} {declared : List Declaration} {line : Line}

theorem append_singleton_eq_append_cons {α : Type} {l before after : List α} {x a : α}
    (h : l ++ [x] = before ++ a :: after) :
    (l = before ∧ x = a) ∨ ∃ rest, l = before ++ a :: rest := by
  rcases List.eq_nil_or_concat' after with rfl | ⟨rest, y, rfl⟩
  · obtain ⟨rfl, hx⟩ := List.append_inj' h rfl
    exact .inl ⟨rfl, by simpa using hx⟩
  · have h' : l ++ [x] = (before ++ a :: rest) ++ [y] := by simpa using h
    exact .inr ⟨rest, (List.append_inj' h' rfl).1⟩

theorem fieldsIn_append (xs ys : List Declaration) :
    fieldsIn (xs ++ ys) = fieldsIn xs ++ fieldsIn ys := List.filterMap_append

theorem constantsIn_append (xs ys : List Declaration) :
    constantsIn (xs ++ ys) = constantsIn xs ++ constantsIn ys := List.filterMap_append

theorem declared_eq_nil (hfields : fieldsIn declared = []) (hconstants : constantsIn declared = []) :
    declared = [] := by
  cases declared with
  | nil => rfl
  | cons x declared =>
    cases x with
    | field f => cases hfields
    | constant c => cases hconstants

/-- A line that declares nothing leaves the declarations as they are. -/
theorem Draft.Holds.add_note {d' : Draft} (h : d.Holds found declared) (hline : line.declaration? = none)
    (hfields : d'.fields = d.fields) (hconstants : d'.constants = d.constants)
    (hcomments : (found ++ [line]).flatMap Line.comments =
      d'.comments ++ declared.flatMap Declaration.comments ++ d'.pending) :
    d'.Holds (found ++ [line]) declared where
  fields := by rw [h.fields, hfields]
  constants := by rw [h.constants, hconstants]
  order := by rw [List.filterMap_append, List.filterMap_cons_none hline, List.filterMap_nil,
    List.append_nil, h.order]
  comments := hcomments
  anchors := h.anchors

/-- A line that declares something adds one declaration with all comments that were pending. -/
theorem Draft.Holds.add_declaration {d' : Draft} {x : Declaration} (h : d.Holds found declared)
    (hline : line.declaration? = some x.bare)
    (hfields : d'.fields = d.fields ++ fieldsIn [x])
    (hconstants : d'.constants = d.constants ++ constantsIn [x])
    (hown : d'.comments = d.comments) (hpending : d'.pending = [])
    (hcomments : x.comments = d.pending ++ line.comments)
    (hanchor : ∀ c, x = .constant c → c.anchor = some d.fields.length) :
    d'.Holds (found ++ [line]) (declared ++ [x]) where
  fields := by rw [fieldsIn_append, h.fields, hfields]
  constants := by rw [constantsIn_append, h.constants, hconstants]
  order := by
    rw [List.filterMap_append, List.filterMap_cons_some hline, List.filterMap_nil, List.map_append,
      h.order, List.map_singleton]
  comments := by simp [h.comments, hown, hpending, hcomments]
  anchors := by
    intro before c after hsplit
    rcases append_singleton_eq_append_cons hsplit with ⟨rfl, rfl⟩ | ⟨rest, hrest⟩
    · rw [h.fields]
      exact hanchor c rfl
    · exact h.anchors before c rest hrest

/-- A draft that holds some lines holds one line more once it is added. -/
theorem Draft.Holds.add (h : d.Holds found declared) (line : Line) :
    ∃ more, (d.add line).Holds (found ++ [line]) more := by
  cases line with
  | blank =>
    refine ⟨declared, ?_⟩
    rw [Draft.add]
    split
    · next hundeclared =>
      simp only [Draft.isUndeclared, Bool.and_eq_true, List.isEmpty_iff] at hundeclared
      -- nothing stands between the comments of the message and the pending ones
      have hnone : declared = [] :=
        declared_eq_nil (h.fields.trans hundeclared.1) (h.constants.trans hundeclared.2)
      have hcomments := h.comments
      subst hnone
      exact h.add_note rfl rfl rfl (by simpa [Line.comments] using hcomments)
    · exact h.add_note rfl rfl rfl (by simpa [Line.comments] using h.comments)
  | comment text =>
    exact ⟨declared, h.add_note rfl rfl rfl (by simp [Draft.add, Line.comments, h.comments])⟩
  | constant c =>
    refine ⟨_, h.add_declaration (x := .constant (c.constant d.pending d.fields.length)) rfl ?_ rfl rfl
      rfl rfl fun c' hc => ?_⟩
    · exact (List.append_nil _).symm
    · obtain rfl := Declaration.constant.inj hc
      rfl
  | field f =>
    refine ⟨_, h.add_declaration (x := .field (f.field d.pending)) rfl rfl ?_ rfl rfl rfl ?_⟩
    · exact (List.append_nil _).symm
    · rintro c' ⟨⟩

/-- A draft holds all lines that have been added to it. -/
theorem Draft.holds_foldl {lines : List Line} (h : d.Holds found declared) :
    ∃ more, (lines.foldl Draft.add d).Holds (found ++ lines) more := by
  induction lines generalizing d found declared with
  | nil => exact ⟨declared, by simpa using h⟩
  | cons line lines ih =>
    obtain ⟨more, hmore⟩ := h.add line
    obtain ⟨all, hall⟩ := ih hmore
    exact ⟨all, by simpa using hall⟩

/-! ## Messages -/

/-- `declared` are the fields and constants of the message, in the order of the lines that declare
them. The comments on the lines are those of the declarations in that order, and before and after them
those of the message. A constant is placed before the first field that is declared after it. -/
structure Documents (found : List Line) (m : Message) (declared : List Declaration) : Prop where
  fields : fieldsIn declared = m.fields
  constants : constantsIn declared = m.constants
  order : declared.map Declaration.bare = found.filterMap Line.declaration?
  comments : ∃ above below, m.comments = above ++ below ∧
    found.flatMap Line.comments = above ++ declared.flatMap Declaration.comments ++ below
  anchors : ∀ before c after, declared = before ++ .constant c :: after →
    c.anchor = if fieldsIn after = [] then none else some (fieldsIn before).length

/-- A declaration with the place of a constant left out if it is none of `count` fields. -/
def Declaration.anchoredBelow (count : Nat) : Declaration → Declaration
  | field f => field f
  | constant c => constant (RosText.anchoredBelow count c)

theorem fieldsIn_anchoredBelow (count : Nat) (declared : List Declaration) :
    fieldsIn (declared.map (Declaration.anchoredBelow count)) = fieldsIn declared := by
  rw [fieldsIn, List.filterMap_map]
  exact List.filterMap_congr fun x _ => by cases x <;> rfl

theorem constantsIn_anchoredBelow (count : Nat) (declared : List Declaration) :
    constantsIn (declared.map (Declaration.anchoredBelow count)) =
      (constantsIn declared).map (anchoredBelow count) := by
  rw [constantsIn, constantsIn, List.filterMap_map, List.map_filterMap]
  exact List.filterMap_congr fun x _ => by cases x <;> rfl

theorem Draft.Holds.documents (h : d.Holds found declared) (name : String) :
    Documents found (d.message name)
      (declared.map (Declaration.anchoredBelow d.fields.length)) where
  fields := by rw [fieldsIn_anchoredBelow, h.fields]; rfl
  constants := by rw [constantsIn_anchoredBelow, h.constants]; rfl
  order := by
    rw [← h.order, List.map_map]
    exact List.map_congr_left fun x _ => by cases x <;> rfl
  comments := by
    refine ⟨d.comments, d.pending, rfl, ?_⟩
    have hsame : ∀ x : Declaration, (x.anchoredBelow d.fields.length).comments = x.comments :=
      fun x => by cases x <;> rfl
    simp only [h.comments, List.flatMap_map, hsame]
  anchors := by
    intro before c after hsplit
    obtain ⟨before, tail, rfl, rfl, htail⟩ := List.map_eq_append_iff.1 hsplit
    obtain ⟨x, after, rfl, hx, rfl⟩ := List.map_eq_cons_iff.1 htail
    cases x with
    | field f => cases hx
    | constant c =>
      obtain rfl := Declaration.constant.inj hx
      have hlength : d.fields.length = (fieldsIn before).length + (fieldsIn after).length := by
        rw [← h.fields, fieldsIn_append, List.length_append]
        rfl
      rw [fieldsIn_anchoredBelow, fieldsIn_anchoredBelow, anchoredBelow, h.anchors before c after rfl,
        hlength]
      by_cases hafter : fieldsIn after = []
      · simp [hafter]
      · have := List.length_pos_of_ne_nil hafter
        simp [hafter, this]

/-- Every message that is read has its declarations in some lines' order. -/
theorem exists_documents (name : String) (found : List Line) :
    ∃ declared, Documents found (messageOfLines name found) declared := by
  have hempty : ({} : Draft).Holds [] [] := ⟨rfl, rfl, rfl, rfl, by simp⟩
  have hall : ∃ declared, (found.foldl Draft.add {}).Holds ([] ++ found) declared :=
    Draft.holds_foldl hempty
  obtain ⟨declared, h⟩ := hall
  exact ⟨_, h.documents name⟩

/-- The comments of declarations are those of the fields and those of the constants. -/
theorem comments_perm (declared : List Declaration) :
    (declared.flatMap Declaration.comments).Perm
      ((fieldsIn declared).flatMap (·.comments) ++ (constantsIn declared).flatMap (·.comments)) := by
  induction declared with
  | nil => exact .refl _
  | cons x declared ih =>
    cases x with
    | field f =>
      rw [List.flatMap_cons, show fieldsIn (.field f :: declared) = f :: fieldsIn declared from rfl,
        List.flatMap_cons, List.append_assoc]
      exact ih.append_left _
    | constant c =>
      rw [List.flatMap_cons,
        show constantsIn (.constant c :: declared) = c :: constantsIn declared from rfl,
        List.flatMap_cons]
      exact (ih.append_left _).trans (List.perm_append_comm_assoc ..)

/-- The comments of a message and of its declarations are those on its lines. -/
theorem Documents.perm {m : Message} (h : Documents found m declared) :
    (m.comments ++ (m.fields.flatMap (·.comments) ++ m.constants.flatMap (·.comments))).Perm
      (found.flatMap Line.comments) := by
  obtain ⟨above, below, hown, hall⟩ := h.comments
  rw [hown, hall, ← h.fields, ← h.constants]
  have hdeclared := (comments_perm declared).symm.append_left (above ++ below)
  have hbelow : (above ++ (below ++ declared.flatMap Declaration.comments)).Perm
      (above ++ (declared.flatMap Declaration.comments ++ below)) :=
    List.perm_append_comm.append_left above
  simp only [List.append_assoc] at hdeclared ⊢
  exact hdeclared.trans hbelow

end RosText

open RosText

/-! ## Comments of a mapped message -/

/-- The proto3 message carries all that documents the message: the lines of the constants just before a
field and then the field's own comments and its bounds; and the lines of the constants that no field
follows after the message's own comments. It has no constants and bounds of its own. -/
structure Carries (m p : Message) : Prop where
  names : p.fields.map (·.name) = m.fields.map (·.name)
  fields : p.fields.map (·.comments) = m.fields.mapIdx fun i f =>
    (m.constants.filter (·.anchor = some i)).flatMap Constant.commentLines ++
      (f.comments ++ f.bounds.map Bound.text)
  message : p.comments =
    m.comments ++ (m.constants.filter (·.anchor = none)).flatMap Constant.commentLines
  rest : p.constants = [] ∧ p.nested = [] ∧ p.enums = m.enums ∧ ∀ f ∈ p.fields, f.bounds = []

/-- The line that a constant leaves in proto3. -/
def Constant.valueLine (c : Constant) : String := c.name ++ " = " ++ c.value

section

variable {m p : Message} {found : List Line} {declared : List Declaration}

/-- The constants that stand before none of the first fields stand before the next one, or not. -/
theorem linesAfter_perm (constants : List Constant) (count : Nat) :
    (linesBefore constants count ++ linesAfter constants (count + 1)).Perm
      (linesAfter constants count) := by
  have hparts := List.filter_append_perm (fun c : Constant => decide (c.anchor = some count))
    (constants.filter fun c => ¬ c.anchor.any (· < count))
  rw [List.filter_filter, List.filter_filter] at hparts
  have hbefore : ∀ c : Constant, decide (c.anchor = some count) =
      (decide (c.anchor = some count) && decide ¬ c.anchor.any (· < count)) := by
    intro c
    rw [Bool.eq_iff_iff]
    cases c.anchor <;> simp
    omega
  have hafter : ∀ c : Constant, (decide ¬ c.anchor.any (· < count + 1)) =
      (!decide (c.anchor = some count) && decide ¬ c.anchor.any (· < count)) := by
    intro c
    rw [Bool.eq_iff_iff]
    cases c.anchor <;> simp
    omega
  rw [linesBefore, linesAfter, List.filter_congr fun c _ => hbefore c,
    List.filter_congr fun c _ => hafter c, ← List.flatMap_append]
  exact hparts.flatMap_right _

/-- Each constant leaves its lines before one of the fields, or after all of them. -/
theorem constantLines_perm (constants : List Constant) (count : Nat) :
    ((List.range count).flatMap (linesBefore constants) ++ linesAfter constants count).Perm
      (constants.flatMap Constant.commentLines) := by
  induction count with
  | zero => simp [linesAfter]
  | succ count ih =>
    rw [List.range_succ, List.flatMap_append, List.append_assoc, List.flatMap_singleton]
    exact ((linesAfter_perm constants count).append_left _).trans ih

theorem flatten_mapIdx_perm {α β : Type} (own : Nat → List β) (other : α → List β) (as : List α) :
    (as.mapIdx fun i a => own i ++ other a).flatten.Perm
      ((List.range as.length).flatMap own ++ as.flatMap other) := by
  have hcounted : as.zipIdx.map Prod.snd = List.range as.length := by
    rw [List.zipIdx_map_snd, List.range_eq_range']
  have htaken : as.zipIdx.map Prod.fst = as := List.zipIdx_map_fst ..
  have hsplit := (List.flatMap_append_perm as.zipIdx (fun x => own x.2) (fun x => other x.1)).symm
  rw [← List.flatMap_map Prod.snd, ← List.flatMap_map Prod.fst, hcounted, htaken] at hsplit
  rw [List.mapIdx_eq_zipIdx_map, ← List.flatMap_def]
  exact hsplit

/-- The comments and the values of constants are their lines. -/
theorem commentLines_perm (constants : List Constant) :
    (constants.flatMap Constant.commentLines).Perm
      (constants.flatMap (·.comments) ++ constants.map Constant.valueLine) := by
  have hsplit := (List.flatMap_append_perm constants (·.comments) fun c => [c.valueLine]).symm
  rwa [← List.map_eq_flatMap] at hsplit

/-- What documents a message is in the comments of its proto3 message and fields, each of it once. -/
theorem Carries.perm (h : Carries m p)
    (hanchors : linesAfter m.constants m.fields.length =
      (m.constants.filter (·.anchor = none)).flatMap Constant.commentLines) :
    (p.comments ++ p.fields.flatMap (·.comments)).Perm
      (m.comments ++ (m.fields.flatMap (·.comments) ++ m.constants.flatMap (·.comments)) ++
        (m.constants.map Constant.valueLine ++ m.fields.flatMap (·.bounds.map Bound.text))) := by
  rw [h.message, ← hanchors, List.flatMap_def (l := p.fields), h.fields]
  -- the parts are rearranged, so that each line is counted
  refine List.perm_iff_count.2 fun line => ?_
  have hfields := (flatten_mapIdx_perm (linesBefore m.constants)
    (fun f : Field => f.comments ++ f.bounds.map Bound.text) m.fields).count_eq line
  have hown := (List.flatMap_append_perm m.fields (·.comments) (·.bounds.map Bound.text)).count_eq line
  have hconstants := (constantLines_perm m.constants m.fields.length).count_eq line
  have hlines := (commentLines_perm m.constants).count_eq line
  simp only [linesBefore, List.count_append] at hfields hown hconstants hlines ⊢
  omega

/-! ## What is parsed -/

/-- A constant that is none of the fields' stands after all of them. -/
theorem RosText.Documents.linesAfter_eq (h : Documents found m declared) :
    linesAfter m.constants m.fields.length =
      (m.constants.filter (·.anchor = none)).flatMap Constant.commentLines := by
  rw [linesAfter]
  congr 1
  refine List.filter_congr fun c hc => ?_
  rw [← h.constants] at hc
  obtain ⟨x, hx, hconstant⟩ := List.mem_filterMap.1 hc
  cases x with
  | field f => cases hconstant
  | constant c' =>
    obtain rfl := Option.some.inj hconstant
    obtain ⟨before, after, hsplit⟩ := List.append_of_mem hx
    rw [h.anchors before c' after hsplit, ← h.fields, hsplit, fieldsIn_append, List.length_append]
    have hafter : fieldsIn (.constant c' :: after) = fieldsIn after := rfl
    by_cases hnone : fieldsIn after = []
    · simp [hnone]
    · have := List.length_pos_of_ne_nil hnone
      simp [hnone, hafter, this]

/-- A message whose references have been resolved is mapped with all that documents it. -/
theorem carries_toProto {table : SymbolTable} {dialect : Dialect} {file : String} {enclosing : TypeName}
    {fields : List Field}
    (hfields : m.fields.mapM (Field.resolve table dialect file enclosing) = .ok fields)
    (hafter : linesAfter m.constants m.fields.length =
      (m.constants.filter (·.anchor = none)).flatMap Constant.commentLines) :
    Carries m (Message.toProto { m with fields := fields }) := by
  have hresolved := (mapM_eq_ok_iff.1 hfields).imp fun _ _ => exists_type_of_resolve
  refine ⟨?_, ?_, ?_, rfl, rfl, rfl, fun f hf => ?_⟩
  · rw [← names_resolved hfields]
    exact map_eq_of_forall₂ (forall₂_mapIdx fun _ _ _ => rfl)
  · refine List.ext_getElem (by simp [Message.toProto, hresolved.length_eq]) fun i hi hi' => ?_
    rw [List.length_mapIdx] at hi'
    obtain ⟨type, htype⟩ := hresolved.get hi' (hresolved.length_eq ▸ hi')
    rw [List.get_eq_getElem, List.get_eq_getElem] at htype
    simp only [Message.toProto, List.getElem_map, List.getElem_mapIdx, htype]
    rfl
  · rw [← hafter, hresolved.length_eq]
    rfl
  · obtain ⟨i, hi, rfl⟩ := List.mem_mapIdx.1 hf
    rfl

/-- The schema has the documentation of the text, and so does the proto3 message that it is mapped to:
every comment, every constant and every bound is in one place. -/
def KeepsDocumentation (text : String) (s : Schema) : Prop :=
  ∃ found m declared, ReadAs (linesOf text) found ∧ s.messages = [m] ∧ Documents found m declared ∧
    ∀ package table c, Schema.toProto table { s with package := package } = .ok c →
      ∃ p, c.schema.messages = [p] ∧ Carries m p ∧
        (p.comments ++ p.fields.flatMap (·.comments)).Perm
          (found.flatMap Line.comments ++
            (m.constants.map Constant.valueLine ++ m.fields.flatMap (·.bounds.map Bound.text)))

/-- Nothing that documents a text is lost on its way to proto3, or written twice. -/
theorem documentation_kept {text path : String} {s : Schema} (h : parse text path = .ok s) :
    KeepsDocumentation text s := by
  obtain ⟨package, name, found, -, hfound, rfl⟩ := parse_eq_ok_iff.1 h
  obtain ⟨declared, hdocuments⟩ := exists_documents name found
  refine ⟨found, messageOfLines name found, declared, hfound, rfl, hdocuments, ?_⟩
  intro package table c hc
  have hsingle : Schema.Single { name := path, dialect := .ros, package, messages :=
    [messageOfLines name found] } (messageOfLines name found) := ⟨rfl, rfl, rfl, rfl⟩
  obtain ⟨fields, hfields, hwritten⟩ := hsingle.exists_of_toProto hc
  have hcarries := carries_toProto hfields hdocuments.linesAfter_eq
  refine ⟨_, congrArg Schema.messages hwritten, hcarries, ?_⟩
  exact (hcarries.perm hdocuments.linesAfter_eq).trans (hdocuments.perm.append_right _)

/-- A lamp post, which has one constant before its only field and one after it. -/
def postSchema : Schema :=
  { name := "home/Post.msg"
    package := ["home"]
    messages :=
      [{ name := "Post"
         fields :=
           [{ name := "modes", type := .scalar .uint8, repeated := true, bounds := [.boundedArray 4],
              comments := ["of its lamps"] }]
         constants :=
           [{ name := "OFF", type := .uint8, value := "0", anchor := some 0, comments := ["off"] },
            { name := "ON", type := .uint8, value := "1", comments := ["the last", "on"] }]
         comments := ["a post"] }] }

theorem documentation_kept_post :
    parse "# a post\n\n# off\nuint8 OFF=0\nuint8[<=4] modes # of its lamps\n# the last\nuint8 ON=1 # on"
        "home/Post.msg" = .ok postSchema ∧
      (∃ c, Schema.toProto {} postSchema = .ok c) ∧
      KeepsDocumentation
        "# a post\n\n# off\nuint8 OFF=0\nuint8[<=4] modes # of its lamps\n# the last\nuint8 ON=1 # on"
        postSchema := by
  have h : parse
      "# a post\n\n# off\nuint8 OFF=0\nuint8[<=4] modes # of its lamps\n# the last\nuint8 ON=1 # on"
      "home/Post.msg" = .ok postSchema := by rfl
  exact ⟨h, ⟨_, rfl⟩, documentation_kept h⟩

end

end SchemaBridge
