import SchemaBridge.Plugin.Run
import SchemaBridge.Proofs.PartByPart
import SchemaBridge.Proofs.Trim

/-!
# Parameters

What a parameter says is told by its entries (`HasEntries`): between two commas stands an entry with
blanks around it, or nothing but blanks. An entry sets an option or is refused, whatever the options are
(`Entry.sets_or_refused`).

* `hasEntries_iff`: the entries that are read are those of the parameter, which has no others.
* `withParameter_append`: one parameter after the other, with a comma between them.
* `foldlM_apply_eq_ok_iff`: if no entry is refused, each option is as the last of its entries sets it
  (`Options.ChosenBy`).
* `foldlM_apply_eq_error_iff`: if entries are refused, the error is that of the first one
  (`FirstRefused`).
* `sameButName_foldlM`: entries with the same keys and values do the same, but for how an error names
  the entry that is refused.

`parameters_compose` puts them together.
-/

namespace SchemaBridge

/-! ## Words -/

/-- The word for a representation of enums. -/
def EnumRepr.word : EnumRepr → String
  | .auto => "auto"
  | .uint8 => "uint8"
  | .int32 => "int32"

theorem EnumRepr.ofWord?_word (r : EnumRepr) : EnumRepr.ofWord? r.word = some r := by
  cases r <;> rfl

theorem EnumRepr.ofWord?_eq_none {word : String} (h : ∀ r : EnumRepr, word ≠ r.word) :
    EnumRepr.ofWord? word = none := by
  unfold EnumRepr.ofWord?
  split
  · exact absurd rfl (h .auto)
  · exact absurd rfl (h .uint8)
  · exact absurd rfl (h .int32)
  · rfl

namespace Plugin

open Text

theorem truthValue?_toString (b : Bool) : truthValue? (toString b) = some b := by
  cases b <;> rfl

theorem truthValue?_eq_none {word : String} (h : ∀ b : Bool, word ≠ toString b) :
    truthValue? word = none := by
  unfold truthValue?
  split
  · exact absurd rfl (h true)
  · exact absurd rfl (h false)
  · rfl

variable {α : Type} {o o' : Options} {p : String} {e e' : Entry} {es es' : List Entry}
  {fault fault' : ParameterFault} {error : DecodeError} {b : Bool} {r : EnumRepr}

/-! ## The entries of a parameter -/

/-- The text spells the entry: a key and nothing else, or a key and a value around the first equals
sign, each with blanks around it. -/
inductive Entry.SpelledBy : Entry → List Char → Prop
  | key {text : List Char} (hsign : '=' ∉ text) :
      SpelledBy ⟨String.ofList text, String.ofList text, none⟩ text
  | keyAndValue {left right key value : List Char} (hsign : '=' ∉ left) (hkey : Padded key left)
      (hvalue : Padded value right) :
      SpelledBy
        ⟨String.ofList (left ++ '=' :: right), String.ofList key, some (String.ofList value)⟩
        (left ++ '=' :: right)

/-- The parameter has these entries: between two commas stands one, with blanks around it, or nothing
but blanks, which is no entry. -/
inductive HasEntries : String → List Entry → Prop
  | blank {p : String} (hblank : AllBlank p.toList) : HasEntries p []
  | entry {p : String} {e : Entry} {text : List Char} (hcomma : ',' ∉ p.toList)
      (hpadded : Padded text p.toList) (hne : text ≠ []) (hspelled : e.SpelledBy text) :
      HasEntries p [e]
  | append {p q : String} {es fs : List Entry} (hleft : HasEntries p es)
      (hright : HasEntries q fs) : HasEntries (p ++ "," ++ q) (es ++ fs)

theorem spelledBy_ofText (text : List Char) : (Entry.ofText text).SpelledBy text := by
  have hsign : '=' ∉ text.takeWhile (· ≠ '=') :=
    fun h => by simpa using takeWhile_forall (fun c => decide (c ≠ '=')) text '=' h
  have htext := List.takeWhile_append_dropWhile (p := fun c => decide (c ≠ '=')) (l := text)
  unfold Entry.ofText
  cases hrest : text.dropWhile (· ≠ '=') with
  | nil =>
    rw [hrest, List.append_nil] at htext
    exact .key (htext ▸ hsign)
  | cons sign right =>
    have hstop := stopsAt_dropWhile (fun c => decide (c ≠ '=')) text
    rw [hrest] at hstop htext
    obtain rfl : sign = '=' := by simpa using stopsAt_cons.1 hstop
    have hspelled := Entry.SpelledBy.keyAndValue hsign (padded_trim _) (padded_trim right)
    rwa [htext] at hspelled

theorem ofText_of_spelledBy {text : List Char} (h : e.SpelledBy text) : Entry.ofText text = e := by
  cases h with
  | key hsign =>
    have hrest : text.dropWhile (· ≠ '=') = [] :=
      List.dropWhile_eq_nil_iff.2 fun c hc => by simpa using ne_of_mem_of_not_mem hc hsign
    simp only [Entry.ofText, hrest]
  | @keyAndValue left right key value hsign hkey hvalue =>
    have hleft : ∀ c ∈ left, decide (c ≠ '=') = true :=
      fun c hc => by simpa using ne_of_mem_of_not_mem hc hsign
    have hstop : StopsAt (fun c => decide (c ≠ '=')) ('=' :: right) := by simp
    simp only [Entry.ofText, dropWhile_run hleft hstop, takeWhile_run hleft hstop,
      padded_iff.1 hkey, padded_iff.1 hvalue]

theorem entries_append (p q : String) : entries (p ++ "," ++ q) = entries p ++ entries q := by
  have hsplit : (p ++ "," ++ q).toList.splitOn ',' =
      p.toList.splitOn ',' ++ q.toList.splitOn ',' := by
    rw [← List.splitOn_append_cons_self]
    simp
  simp only [entries, hsplit, List.map_append, List.filter_append]

theorem entries_of_allBlank (h : AllBlank p.toList) : entries p = [] := by
  have hcomma : ',' ∉ p.toList := fun hc => absurd (h ',' hc) (by decide)
  rw [entries, List.splitOn_eq_singleton hcomma, List.map_singleton, trim_of_allBlank h]
  rfl

theorem entries_of_not_mem (hcomma : ',' ∉ p.toList) (h : ¬ AllBlank p.toList) :
    entries p = [Entry.ofText (trim p.toList)] := by
  have hne : trim p.toList ≠ [] := fun hnil => h (trim_eq_nil_iff.1 hnil)
  rw [entries, List.splitOn_eq_singleton hcomma, List.map_singleton,
    List.filter_cons_of_pos (by simpa using hne), List.filter_nil, List.map_singleton]

theorem entries_of_hasEntries (h : HasEntries p es) : entries p = es := by
  induction h with
  | blank hblank => exact entries_of_allBlank hblank
  | entry hcomma hpadded hne hspelled =>
    have htrim := padded_iff.1 hpadded
    have hblank : ¬ AllBlank _ := fun hblank => hne (htrim ▸ trim_of_allBlank hblank)
    rw [entries_of_not_mem hcomma hblank, htrim, ofText_of_spelledBy hspelled]
  | append _ _ ihleft ihright => rw [entries_append, ihleft, ihright]

/-- By recursion on the text, which is cut at one of its commas as long as it has one. -/
theorem hasEntries_ofList (cs : List Char) :
    HasEntries (String.ofList cs) (entries (String.ofList cs)) := by
  by_cases hcomma : ',' ∈ cs
  · obtain ⟨left, right, hcs⟩ := List.append_of_mem hcomma
    have hcut : String.ofList cs = String.ofList left ++ "," ++ String.ofList right := by
      rw [← String.toList_inj]
      simp [hcs]
    rw [hcut, entries_append]
    exact .append (hasEntries_ofList left) (hasEntries_ofList right)
  · have hcomma' : ',' ∉ (String.ofList cs).toList := by simpa using hcomma
    by_cases hblank : AllBlank (String.ofList cs).toList
    · rw [entries_of_allBlank hblank]
      exact .blank hblank
    · rw [entries_of_not_mem hcomma' hblank]
      exact .entry hcomma' (padded_trim _) (fun hnil => hblank (trim_eq_nil_iff.1 hnil))
        (spelledBy_ofText _)
termination_by cs.length
decreasing_by all_goals (rw [hcs, List.length_append, List.length_cons]; omega)

theorem hasEntries_iff : HasEntries p es ↔ entries p = es := by
  refine ⟨entries_of_hasEntries, fun h => ?_⟩
  have hread := hasEntries_ofList p.toList
  rw [String.ofList_toList, h] at hread
  exact hread

/-! ## What an entry does -/

/-- The entry sets whether a run is strict; the key alone says that it is. -/
structure Entry.SetsStrict (e : Entry) (b : Bool) : Prop where
  key : e.key = "strict"
  value : e.value = some (toString b) ∨ e.value = none ∧ b = true

/-- The entry sets the representation of enums. -/
structure Entry.SetsEnumRepr (e : Entry) (r : EnumRepr) : Prop where
  key : e.key = "enum_repr"
  value : e.value = some r.word

/-- The entry is refused, for the given fault. -/
inductive Entry.Refused (e : Entry) : ParameterFault → Prop
  | truthValue {word : String} (hkey : e.key = "strict") (hvalue : e.value = some word)
      (hword : ∀ b : Bool, word ≠ toString b) : Refused e (.truthValue word)
  | enumRepr {word : String} (hkey : e.key = "enum_repr") (hvalue : e.value = some word)
      (hword : ∀ r : EnumRepr, word ≠ r.word) : Refused e (.enumRepr word)
  | missingValue (hkey : e.key = "enum_repr") (hvalue : e.value = none) : Refused e .missingValue
  | unknownOption (hstrict : e.key ≠ "strict") (hrepr : e.key ≠ "enum_repr") :
      Refused e (.unknownOption e.key)

theorem Entry.sets_or_refused (e : Entry) :
    (∃ b, e.SetsStrict b) ∨ (∃ r, e.SetsEnumRepr r) ∨ ∃ fault, e.Refused fault := by
  by_cases hstrict : e.key = "strict"
  · cases hvalue : e.value with
    | none => exact .inl ⟨true, hstrict, .inr ⟨hvalue, rfl⟩⟩
    | some word =>
      by_cases hword : ∃ b : Bool, word = toString b
      · obtain ⟨b, rfl⟩ := hword
        exact .inl ⟨b, hstrict, .inl hvalue⟩
      · exact .inr (.inr ⟨_, .truthValue hstrict hvalue (not_exists.1 hword)⟩)
  · by_cases hrepr : e.key = "enum_repr"
    · cases hvalue : e.value with
      | none => exact .inr (.inr ⟨_, .missingValue hrepr hvalue⟩)
      | some word =>
        by_cases hword : ∃ r : EnumRepr, word = r.word
        · obtain ⟨r, rfl⟩ := hword
          exact .inr (.inl ⟨r, hrepr, hvalue⟩)
        · exact .inr (.inr ⟨_, .enumRepr hrepr hvalue (not_exists.1 hword)⟩)
    · exact .inr (.inr ⟨_, .unknownOption hstrict hrepr⟩)

theorem apply_of_setsStrict (h : e.SetsStrict b) (o : Options) :
    o.apply e = .ok { o with strict := b } := by
  obtain ⟨hkey, hvalue | ⟨hvalue, rfl⟩⟩ := h
  · simp only [Options.apply, hkey, hvalue, Options.set, truthValue?_toString]
    rfl
  · simp only [Options.apply, hkey, hvalue, Options.set]
    rfl

theorem apply_of_setsEnumRepr (h : e.SetsEnumRepr r) (o : Options) :
    o.apply e = .ok { o with enumRepr := r } := by
  simp only [Options.apply, h.key, h.value, Options.set, EnumRepr.ofWord?_word]
  rfl

theorem apply_of_refused (h : e.Refused fault) (o : Options) :
    o.apply e = .error (.parameter e.text fault) := by
  cases h with
  | truthValue hkey hvalue hword =>
    simp only [Options.apply, hkey, hvalue, Options.set, truthValue?_eq_none hword]
    rfl
  | enumRepr hkey hvalue hword =>
    simp only [Options.apply, hkey, hvalue, Options.set, EnumRepr.ofWord?_eq_none hword]
    rfl
  | missingValue hkey hvalue =>
    simp only [Options.apply, hkey, hvalue, Options.set]
    rfl
  | unknownOption hstrict hrepr =>
    -- every other branch is for a key that this one is not
    have hset : o.set e.key e.value = .error (.unknownOption e.key) := by
      unfold Options.set
      split <;> first | contradiction | rfl
    rw [Options.apply, hset]
    rfl

/-! That an entry does only one of the three follows from what it does to some options. -/

theorem not_refused_of_apply (h : o.apply e = .ok o') (fault : ParameterFault) :
    ¬ e.Refused fault := by
  intro hrefused
  rw [apply_of_refused hrefused] at h
  cases h

theorem Entry.SetsStrict.not_refused (h : e.SetsStrict b) : ∀ fault, ¬ e.Refused fault :=
  not_refused_of_apply (apply_of_setsStrict h {})

theorem Entry.SetsEnumRepr.not_refused (h : e.SetsEnumRepr r) : ∀ fault, ¬ e.Refused fault :=
  not_refused_of_apply (apply_of_setsEnumRepr h {})

theorem Entry.SetsStrict.iff (h : e.SetsStrict b) (b' : Bool) : e.SetsStrict b' ↔ b' = b := by
  refine ⟨fun h' => ?_, fun heq => heq ▸ h⟩
  have hsame := (apply_of_setsStrict h' {}).symm.trans (apply_of_setsStrict h {})
  exact congrArg Options.strict (Except.ok.inj hsame)

theorem Entry.SetsEnumRepr.iff (h : e.SetsEnumRepr r) (r' : EnumRepr) :
    e.SetsEnumRepr r' ↔ r' = r := by
  refine ⟨fun h' => ?_, fun heq => heq ▸ h⟩
  have hsame := (apply_of_setsEnumRepr h' {}).symm.trans (apply_of_setsEnumRepr h {})
  exact congrArg Options.enumRepr (Except.ok.inj hsame)

theorem Entry.Refused.fault_eq (h : e.Refused fault) (h' : e.Refused fault') : fault = fault' := by
  have hsame := (apply_of_refused h {}).symm.trans (apply_of_refused h' {})
  exact (DecodeError.parameter.inj (Except.error.inj hsame)).2

/-! ## What the last entry with a key does -/

/-- The last of the entries with the key. -/
def lastWith (key : String) (es : List Entry) : Option Entry := es.reverse.find? (·.key == key)

theorem lastWith_cons (key : String) (e : Entry) (es : List Entry) :
    lastWith key (e :: es) = (lastWith key es).or (if e.key = key then some e else none) := by
  rw [lastWith, List.reverse_cons, List.find?_append, List.find?_singleton, lastWith]
  simp only [beq_iff_eq]

section
variable {key : String} {sets : Entry → α → Prop} {base chosen value : α}

/-- The value chosen is the one that the last of the entries with the key sets, or the base value if no
entry has the key. -/
def Chosen (key : String) (sets : Entry → α → Prop) (base : α) (es : List Entry) (chosen : α) :
    Prop :=
  match lastWith key es with
  | some e => sets e chosen
  | none => chosen = base

theorem chosen_nil : Chosen key sets base [] chosen ↔ chosen = base := Iff.rfl

theorem chosen_cons_of_ne (h : e.key ≠ key) :
    Chosen key sets base (e :: es) chosen ↔ Chosen key sets base es chosen := by
  rw [Chosen, lastWith_cons, if_neg h, Option.or_none, Chosen]

/-- The value that an entry sets is the base value for the entries after it. -/
theorem chosen_cons_of_eq (h : e.key = key) (hsets : ∀ c, sets e c ↔ c = value) :
    Chosen key sets base (e :: es) chosen ↔ Chosen key sets value es chosen := by
  rw [Chosen, lastWith_cons, if_pos h, Chosen]
  cases lastWith key es with
  | none => exact hsets chosen
  | some e' => rfl

end

/-! ## What the entries do together -/

/-- The options `o'` are those that the entries, none of which is refused, make of the options `o`. -/
structure Options.ChosenBy (o : Options) (es : List Entry) (o' : Options) : Prop where
  accepted : ∀ e ∈ es, ∀ fault, ¬ e.Refused fault
  strict : Chosen "strict" Entry.SetsStrict o.strict es o'.strict
  enumRepr : Chosen "enum_repr" Entry.SetsEnumRepr o.enumRepr es o'.enumRepr

theorem chosenBy_nil : o.ChosenBy [] o' ↔ o' = o := by
  refine ⟨fun h => ?_, fun h => h ▸ ⟨by simp, rfl, rfl⟩⟩
  have hstrict : o'.strict = o.strict := chosen_nil.1 h.strict
  have hrepr : o'.enumRepr = o.enumRepr := chosen_nil.1 h.enumRepr
  cases o
  cases o'
  simp_all

/-- The options `next` stand for what the first entry makes of the options `o`. -/
theorem chosenBy_cons {next : Options} (haccepted : ∀ fault, ¬ e.Refused fault)
    (hstrict : ∀ chosen, Chosen "strict" Entry.SetsStrict o.strict (e :: es) chosen ↔
      Chosen "strict" Entry.SetsStrict next.strict es chosen)
    (hrepr : ∀ chosen, Chosen "enum_repr" Entry.SetsEnumRepr o.enumRepr (e :: es) chosen ↔
      Chosen "enum_repr" Entry.SetsEnumRepr next.enumRepr es chosen) :
    o.ChosenBy (e :: es) o' ↔ next.ChosenBy es o' :=
  ⟨fun h => ⟨(List.forall_mem_cons.1 h.accepted).2, (hstrict _).1 h.strict, (hrepr _).1 h.enumRepr⟩,
    fun h => ⟨List.forall_mem_cons.2 ⟨haccepted, h.accepted⟩, (hstrict _).2 h.strict,
      (hrepr _).2 h.enumRepr⟩⟩

theorem chosenBy_cons_of_setsStrict (h : e.SetsStrict b) :
    o.ChosenBy (e :: es) o' ↔ { o with strict := b }.ChosenBy es o' := by
  have hne : e.key ≠ "enum_repr" := by rw [h.key]; decide
  exact chosenBy_cons h.not_refused (fun _ => chosen_cons_of_eq h.key h.iff)
    fun _ => chosen_cons_of_ne hne

theorem chosenBy_cons_of_setsEnumRepr (h : e.SetsEnumRepr r) :
    o.ChosenBy (e :: es) o' ↔ { o with enumRepr := r }.ChosenBy es o' := by
  have hne : e.key ≠ "strict" := by rw [h.key]; decide
  exact chosenBy_cons h.not_refused (fun _ => chosen_cons_of_ne hne)
    fun _ => chosen_cons_of_eq h.key h.iff

/-- By induction on the entries: each of them makes the options that the others begin with. -/
theorem foldlM_apply_eq_ok_iff : es.foldlM Options.apply o = .ok o' ↔ o.ChosenBy es o' := by
  induction es generalizing o with
  | nil =>
    rw [chosenBy_nil, eq_comm (a := o')]
    exact ⟨Except.ok.inj, congrArg Except.ok⟩
  | cons e es ih =>
    rw [List.foldlM_cons]
    obtain ⟨b, h⟩ | ⟨r, h⟩ | ⟨fault, h⟩ := e.sets_or_refused
    · rw [apply_of_setsStrict h, chosenBy_cons_of_setsStrict h]
      exact ih
    · rw [apply_of_setsEnumRepr h, chosenBy_cons_of_setsEnumRepr h]
      exact ih
    · rw [apply_of_refused h]
      exact ⟨nofun, fun h' => absurd h (h'.accepted e (List.mem_cons_self ..) fault)⟩

/-- The first of the entries that is refused, and its fault. -/
inductive FirstRefused : List Entry → Entry → ParameterFault → Prop
  | here {e : Entry} {es : List Entry} {fault : ParameterFault} (h : e.Refused fault) :
      FirstRefused (e :: es) e fault
  | later {e e' : Entry} {es : List Entry} {fault : ParameterFault}
      (h : ∀ fault, ¬ e.Refused fault) (hrest : FirstRefused es e' fault) :
      FirstRefused (e :: es) e' fault

theorem firstRefused_cons_of_refused (h : e.Refused fault) :
    FirstRefused (e :: es) e' fault' ↔ e' = e ∧ fault' = fault := by
  refine ⟨fun hfirst => ?_, fun heq => ?_⟩
  · cases hfirst with
    | here h' => exact ⟨rfl, h'.fault_eq h⟩
    | later hnot _ => exact absurd h (hnot fault)
  · obtain ⟨rfl, rfl⟩ := heq
    exact .here h

theorem firstRefused_cons_of_accepted (h : ∀ fault, ¬ e.Refused fault) :
    FirstRefused (e :: es) e' fault ↔ FirstRefused es e' fault := by
  refine ⟨fun hfirst => ?_, .later h⟩
  cases hfirst with
  | here h' => exact absurd h' (h fault)
  | later _ hrest => exact hrest

theorem foldlM_apply_eq_error_iff :
    es.foldlM Options.apply o = .error error ↔
      ∃ e fault, FirstRefused es e fault ∧ error = .parameter e.text fault := by
  induction es generalizing o with
  | nil => exact ⟨nofun, fun ⟨_, _, hfirst, _⟩ => nomatch hfirst⟩
  | cons e es ih =>
    rw [List.foldlM_cons]
    obtain ⟨b, h⟩ | ⟨r, h⟩ | ⟨fault, h⟩ := e.sets_or_refused
    · simp only [apply_of_setsStrict h, firstRefused_cons_of_accepted h.not_refused]
      exact ih
    · simp only [apply_of_setsEnumRepr h, firstRefused_cons_of_accepted h.not_refused]
      exact ih
    · simp only [apply_of_refused h, firstRefused_cons_of_refused h]
      refine ⟨fun herror => ⟨e, fault, ⟨rfl, rfl⟩, (Except.error.inj herror).symm⟩, fun herror => ?_⟩
      obtain ⟨e, fault, ⟨rfl, rfl⟩, rfl⟩ := herror
      rfl

/-! ## Entries with the same keys and values -/

/-- The entries have one key and one value; their texts may differ in the blanks around these. -/
structure SameSetting (e e' : Entry) : Prop where
  key : e.key = e'.key
  value : e.value = e'.value

/-- The two lists of entries give the same options, or the same fault of the entries at one place, which
each of the two errors names with the text of its own entry. -/
inductive SameButName (es es' : List Entry) :
    Except DecodeError Options → Except DecodeError Options → Prop
  | ok (o : Options) : SameButName es es' (.ok o) (.ok o)
  | error {i : Nat} {e e' : Entry} (fault : ParameterFault) (he : es[i]? = some e)
      (he' : es'[i]? = some e') :
      SameButName es es' (.error (.parameter e.text fault)) (.error (.parameter e'.text fault))

theorem SameButName.cons {result result' : Except DecodeError Options}
    (h : SameButName es es' result result') (e e' : Entry) :
    SameButName (e :: es) (e' :: es') result result' := by
  cases h with
  | ok o => exact .ok o
  | @error i _ _ fault he he' => exact .error (i := i + 1) fault he he'

theorem sameButName_foldlM (h : List.Forall₂ SameSetting es es') (o : Options) :
    SameButName es es' (es.foldlM Options.apply o) (es'.foldlM Options.apply o) := by
  induction h generalizing o with
  | nil => exact .ok o
  | @cons e e' es es' hsame _ ih =>
    rw [List.foldlM_cons, List.foldlM_cons, Options.apply, Options.apply, hsame.key, hsame.value]
    cases o.set e'.key e'.value with
    | error fault => exact .error (i := 0) fault rfl rfl
    | ok next => exact (ih next).cons e e'

/-! ## Parameters -/

/-- A parameter after another one applies to the options that the other one gives. -/
theorem withParameter_append (o : Options) (p q : String) :
    o.withParameter (p ++ "," ++ q) = o.withParameter p >>= (·.withParameter q) := by
  rw [Options.withParameter, entries_append, List.foldlM_append]
  rfl

theorem withParameter_eq (h : HasEntries p es) (o : Options) :
    o.withParameter p = es.foldlM Options.apply o := by
  rw [Options.withParameter, entries_of_hasEntries h]

/-- The options of a request are those of the plugin, but for what the entries of its parameter set. -/
theorem decode_eq_ok_iff {ε : Type} {plugin : Plugin ε} {bs : List UInt8} {request : Request} :
    plugin.decode bs = .ok (request, o) ↔ Request.decode bs = .ok request ∧
      ∃ es, HasEntries (request.parameter.getD "") es ∧ plugin.options.ChosenBy es o := by
  refine ⟨fun h => ?_, fun ⟨hrequest, es, hentries, hchosen⟩ => ?_⟩
  · obtain ⟨request', hrequest, h⟩ := bind_eq_ok_iff.1 h
    obtain ⟨o', hoptions, h⟩ := bind_eq_ok_iff.1 h
    obtain ⟨rfl, rfl⟩ := Prod.mk.inj (Except.ok.inj h)
    exact ⟨hrequest, _, hasEntries_iff.2 rfl, foldlM_apply_eq_ok_iff.1 hoptions⟩
  · refine bind_eq_ok_iff.2 ⟨request, hrequest, bind_eq_ok_iff.2 ⟨o, ?_, rfl⟩⟩
    rw [withParameter_eq hentries, foldlM_apply_eq_ok_iff.2 hchosen]

/-- Two parameters with a comma between them apply one after the other; if the first one is refused, its
error is the result. Every parameter has one list of entries. If none of them is refused, each option is
as the last of its entries sets it, or as it was; otherwise the error is that of the first one that is
refused, and names it with its text. A parameter with the same entries, whatever blanks stand around them
and whatever blank entries between them, gives the same result. If only keys and values are the same, it
does so but for the text that names the entry refused. -/
theorem parameters_compose :
    (∀ (o : Options) (p q : String), o.withParameter (p ++ "," ++ q) =
      match o.withParameter p with
      | .ok o' => o'.withParameter q
      | .error error => .error error) ∧
    (∀ p, ∃ es, ∀ es', HasEntries p es' ↔ es' = es) ∧
    ∀ {p : String} {es : List Entry}, HasEntries p es → ∀ o : Options,
      (∀ o', o.withParameter p = .ok o' ↔ o.ChosenBy es o') ∧
      (∀ error, o.withParameter p = .error error ↔
        ∃ e fault, FirstRefused es e fault ∧ error = .parameter e.text fault) ∧
      (∀ {p' : String}, HasEntries p' es → o.withParameter p' = o.withParameter p) ∧
      ∀ {p' : String} {es' : List Entry}, HasEntries p' es' → List.Forall₂ SameSetting es es' →
        SameButName es es' (o.withParameter p) (o.withParameter p') := by
  refine ⟨fun o p q => ?_, fun p => ⟨entries p, fun es' => ?_⟩, fun {p es} hentries o => ?_⟩
  · rw [withParameter_append]
    cases o.withParameter p <;> rfl
  · rw [hasEntries_iff, eq_comm]
  · rw [withParameter_eq hentries]
    refine ⟨fun o' => foldlM_apply_eq_ok_iff, fun error => foldlM_apply_eq_error_iff,
      fun hsame => withParameter_eq hsame o, fun hentries' hsettings => ?_⟩
    rw [withParameter_eq hentries']
    exact sameButName_foldlM hsettings o

/-- Of two entries for `strict` the last one counts, and of two that are refused the first one. -/
theorem parameters_compose_strictTwice :
    let o : Options := { enumRepr := .uint8 }
    let spaced := " strict = false,, strict "
    let refused := "strict,enum_repr = int64,verbose"
    let es : List Entry := [⟨"strict = false", "strict", some "false"⟩, ⟨"strict", "strict", none⟩]
    let es' : List Entry := [⟨"strict=false", "strict", some "false"⟩, ⟨"strict", "strict", none⟩]
    HasEntries spaced es ∧ HasEntries "strict = false,strict" es ∧
      HasEntries "strict=false,strict" es' ∧ List.Forall₂ SameSetting es es' ∧
      o.withParameter spaced = .ok { strict := true, enumRepr := .uint8 } ∧
      o.withParameter "strict = false,strict" = o.withParameter spaced ∧
      SameButName es es' (o.withParameter spaced) (o.withParameter "strict=false,strict") ∧
      o.withParameter (spaced ++ "," ++ refused) =
        .error (.parameter "enum_repr = int64" (.enumRepr "int64")) := by
  intro o spaced refused es es'
  have hspaced : HasEntries spaced es := hasEntries_iff.2 (by decide +kernel)
  have hcompact : HasEntries "strict = false,strict" es := hasEntries_iff.2 (by decide +kernel)
  have hbare : HasEntries "strict=false,strict" es' := hasEntries_iff.2 (by decide +kernel)
  have hrefused : HasEntries refused [⟨"strict", "strict", none⟩,
      ⟨"enum_repr = int64", "enum_repr", some "int64"⟩, ⟨"verbose", "verbose", none⟩] :=
    hasEntries_iff.2 (by decide +kernel)
  have hsettings : List.Forall₂ SameSetting es es' := .cons ⟨rfl, rfl⟩ (.cons ⟨rfl, rfl⟩ .nil)
  have hno : Entry.SetsStrict ⟨"strict = false", "strict", some "false"⟩ false := ⟨rfl, .inl rfl⟩
  have hyes : Entry.SetsStrict ⟨"strict", "strict", none⟩ true := ⟨rfl, .inr ⟨rfl, rfl⟩⟩
  have hword : ∀ r : EnumRepr, "int64" ≠ r.word := fun r => by cases r <;> decide
  obtain ⟨happend, -, hrules⟩ := parameters_compose
  obtain ⟨hok, -, hsame, hother⟩ := hrules hspaced o
  have hresult : o.withParameter spaced = .ok { strict := true, enumRepr := .uint8 } :=
    (hok _).2 ⟨by simp [es, hno.not_refused, hyes.not_refused], hyes, rfl⟩
  refine ⟨hspaced, hcompact, hbare, hsettings, hresult, hsame hcompact, hother hbare hsettings, ?_⟩
  rw [happend, hresult]
  exact ((hrules hrefused _).2.1 _).2 ⟨_, _, .later hyes.not_refused
    (.here (.enumRepr rfl rfl hword)), rfl⟩

/-- An error names an entry with the blanks around its equals sign. -/
theorem inner_blanks_named :
    HasEntries "enum_repr = int64" [⟨"enum_repr = int64", "enum_repr", some "int64"⟩] ∧
      HasEntries "enum_repr=int64" [⟨"enum_repr=int64", "enum_repr", some "int64"⟩] ∧
      ({} : Options).withParameter "enum_repr = int64" =
        .error (.parameter "enum_repr = int64" (.enumRepr "int64")) ∧
      ({} : Options).withParameter "enum_repr=int64" =
        .error (.parameter "enum_repr=int64" (.enumRepr "int64")) ∧
      ({} : Options).withParameter "enum_repr = int64" ≠
        ({} : Options).withParameter "enum_repr=int64" := by
  refine ⟨hasEntries_iff.2 (by decide +kernel), hasEntries_iff.2 (by decide +kernel), ?_, ?_, ?_⟩
  · decide +kernel
  · decide +kernel
  · decide +kernel

end Plugin

end SchemaBridge
