import Mathlib.Data.List.Nodup
import SchemaBridge.SymbolTable

/-!
# Names once nesting is flattened

Dots separate the segments of a qualified name. If no segment has a dot itself (`TypeName.DotFree`),
the segments can be told from the qualified name, and two names have one flattened name exactly if
package and innermost segment agree (`qualified_flat_eq_iff`).

The table of a batch finds a collision for a message exactly if another message of the batch takes
its flattened name (`collisions_eq_none_iff_unshared`).
-/

namespace SchemaBridge

/-! ## Names without dots in their segments -/

/-- No segment of the name has a dot. -/
def TypeName.DotFree (n : TypeName) : Prop := ∀ s ∈ n.package ++ n.path, '.' ∉ s.toList

instance (n : TypeName) : Decidable n.DotFree :=
  inferInstanceAs (Decidable (∀ s ∈ n.package ++ n.path, '.' ∉ s.toList))

/-- Segments without the separator can be read off the text in which it joins them. -/
theorem splitOn_toList_intercalate {sep : String} {c : Char} (hsep : sep.toList = [c])
    {segments : List String} (h : ∀ s ∈ segments, c ∉ s.toList) (hne : segments ≠ []) :
    (sep.intercalate segments).toList.splitOn c = segments.map String.toList := by
  rw [String.toList_intercalate, hsep]
  exact List.splitOn_intercalate c (by simpa using h) (by simpa using hne)

theorem intercalate_inj {sep : String} {c : Char} (hsep : sep.toList = [c]) {l l' : List String}
    (h : ∀ s ∈ l, c ∉ s.toList) (h' : ∀ s ∈ l', c ∉ s.toList) (hne : l ≠ []) (hne' : l' ≠ []) :
    sep.intercalate l = sep.intercalate l' ↔ l = l' := by
  refine ⟨fun heq => ?_, fun heq => heq ▸ rfl⟩
  have hsplit := splitOn_toList_intercalate hsep h hne
  rw [heq, splitOn_toList_intercalate hsep h' hne'] at hsplit
  exact (List.map_injective_iff.2 (fun _ _ => String.toList_injective) hsplit).symm

namespace TypeName

variable {n n' : TypeName}

theorem DotFree.flat (h : n.DotFree) : n.flat.DotFree := by
  intro s hs
  rcases List.mem_append.1 hs with hs | hs
  · exact h s (List.mem_append_left _ hs)
  · obtain rfl := List.mem_singleton.1 hs
    rcases List.mem_cons.1 (List.getLastD_mem_cons (l := n.path) (a := "")) with hname | hname
    · rw [TypeName.name, hname]
      decide
    · exact h _ (List.mem_append_right _ hname)

/-- Two names are one flattened name if package and innermost segment agree. -/
theorem qualified_flat_eq_iff (h : n.DotFree) (h' : n'.DotFree) :
    n.flat.qualified = n'.flat.qualified ↔ n.package = n'.package ∧ n.name = n'.name := by
  rw [qualified, qualified, intercalate_inj rfl h.flat h'.flat (by simp [TypeName.flat])
    (by simp [TypeName.flat])]
  simp only [TypeName.flat]
  constructor
  · intro heq
    obtain ⟨hpackage, hname⟩ := List.append_inj' heq rfl
    exact ⟨hpackage, by simpa using hname⟩
  · rintro ⟨hpackage, hname⟩
    rw [hpackage, hname]

/-- In one package, names can be told apart by their qualified forms. -/
theorem qualified_eq_iff_of_package (h : n.DotFree) (h' : n'.DotFree) (hpath : n.path ≠ [])
    (hpath' : n'.path ≠ []) (hpackage : n.package = n'.package) :
    n.qualified = n'.qualified ↔ n = n' := by
  rw [qualified, qualified, intercalate_inj rfl h h' (by simp [hpath]) (by simp [hpath']), hpackage,
    List.append_cancel_left_eq]
  refine ⟨fun hpaths => ?_, fun heq => heq ▸ rfl⟩
  cases n
  cases n'
  simp_all

end TypeName

/-! ## The messages of a file -/

mutual

/-- The messages of a scope are named in its package, each by a path of its own. -/
theorem of_mem_flatten : ∀ (m : Message) (scope : TypeName), ∀ p ∈ m.flatten scope,
    p.1.package = scope.package ∧ p.1.path ≠ [] ∧ p.1.name = p.2.name
  | ⟨name, _, nested, _, _, _⟩, scope => by
    intro p hp
    rw [Message.flatten] at hp
    rcases List.mem_cons.1 hp with rfl | hp
    · exact ⟨rfl, by simp [TypeName.child], by simp [TypeName.child, TypeName.name]⟩
    · exact of_mem_flattenAll nested (scope.child name) p hp

theorem of_mem_flattenAll : ∀ (ms : List Message) (scope : TypeName),
    ∀ p ∈ Message.flattenAll scope ms,
      p.1.package = scope.package ∧ p.1.path ≠ [] ∧ p.1.name = p.2.name
  | [], _ => by simp [Message.flattenAll]
  | m :: ms, scope => by
    intro p hp
    rw [Message.flattenAll] at hp
    rcases List.mem_append.1 hp with hp | hp
    · exact of_mem_flatten m scope p hp
    · exact of_mem_flattenAll ms scope p hp

end

theorem Schema.of_mem_flatten {s : Schema} {p : TypeName × Message} (hp : p ∈ s.flatten) :
    p.1.package = s.package ∧ p.1.path ≠ [] ∧ p.1.name = p.2.name :=
  of_mem_flattenAll s.messages (.root s.package) p hp

/-! ## The types of a batch -/

/-- All messages that the files of a batch declare, nested ones included, with their full names. -/
def allMessages (files : List Schema) : List (TypeName × Message) := files.flatMap Schema.flatten

/-- All enums that the files of a batch declare, nested ones included, with their full names. -/
def allEnums (files : List Schema) : List (TypeName × EnumDef) := files.flatMap Schema.namedEnums

/-- The batch declares a message of the name `n`. -/
def Declares (files : List Schema) (n : TypeName) : Prop := n ∈ (allMessages files).map (·.1)

/-- No message of the batch takes the flattened name of `n`, unless its qualified name is that
of `n`. -/
def TypeName.Unshared (files : List Schema) (n : TypeName) : Prop :=
  ∀ p ∈ allMessages files, p.1.package = n.package → p.1.name = n.name → p.1.qualified = n.qualified

instance (files : List Schema) (n : TypeName) : Decidable (n.Unshared files) :=
  inferInstanceAs (Decidable (∀ p ∈ allMessages files,
    p.1.package = n.package → p.1.name = n.name → p.1.qualified = n.qualified))

variable {files : List Schema} {n n' : TypeName} {s : Symbol}

theorem Declares.path_ne_nil (h : Declares files n) : n.path ≠ [] := by
  obtain ⟨p, hp, rfl⟩ := List.mem_map.1 h
  obtain ⟨s, -, hp⟩ := List.mem_flatMap.1 hp
  exact (s.of_mem_flatten hp).2.1

/-- A batch declares the messages that its table holds. -/
theorem exists_symbol_iff_declares :
    (∃ s ∈ (SymbolTable.ofFiles files).symbols, s.kind = .message ∧ s.name = n) ↔
      Declares files n := by
  simp only [SymbolTable.ofFiles_eq, Declares, allMessages, List.mem_map, List.mem_flatMap]
  constructor
  · rintro ⟨s, ⟨file, hfile, hs⟩, hkind, rfl⟩
    rcases List.mem_append.1 hs with hs | hs
    · obtain ⟨p, -, rfl⟩ := List.mem_map.1 hs
      cases hkind
    · obtain ⟨p, hp, rfl⟩ := List.mem_map.1 hs
      exact ⟨p, ⟨file, hfile, hp⟩, rfl⟩
  · rintro ⟨p, ⟨file, hfile, hp⟩, rfl⟩
    exact ⟨_, ⟨file, hfile, List.mem_append_right _ (List.mem_map_of_mem hp)⟩, rfl, rfl⟩

/-- The enums that a batch declares are those that its table holds. -/
theorem filterMap_symbols_eq_allEnums :
    (SymbolTable.ofFiles files).symbols.filterMap (fun s => s.enumDef?.map (s.name, ·)) =
      allEnums files := by
  rw [SymbolTable.ofFiles_eq, allEnums, List.filterMap_flatMap]
  refine List.flatMap_congr fun file _ => ?_
  simp [Schema.symbols, List.filterMap_append, List.filterMap_map, Symbol.enumDef?]

/-- The definition that the table gives for an enum is the only one of the batch. -/
theorem filter_allEnums {e : EnumDef} (h : (SymbolTable.ofFiles files).named s.name.qualified = [s])
    (hkind : s.kind = .enum e) : (allEnums files).filter (·.1 = s.name) = [(s.name, e)] := by
  have hname : (SymbolTable.ofFiles files).symbols.filter (·.name = s.name) = [s] := by
    have hfilter := congrArg (List.filter (·.name = s.name)) h
    rw [SymbolTable.named, List.filter_filter] at hfilter
    rw [List.filter_cons_of_pos (by simp), List.filter_nil] at hfilter
    rw [← hfilter]
    refine List.filter_congr fun s' _ => ?_
    by_cases hs' : s'.name = s.name <;> simp [hs']
  have henum : s.enumDef? = some e := by rw [Symbol.enumDef?, hkind]
  have hpick := congrArg (List.filterMap fun s : Symbol => s.enumDef?.map (s.name, ·)) hname
  rw [List.filterMap_filter] at hpick
  rw [← filterMap_symbols_eq_allEnums, List.filter_filterMap]
  simp only [List.filterMap_cons, henum, Option.map_some, List.filterMap_nil] at hpick
  rw [← hpick]
  refine List.filterMap_congr fun s' _ => ?_
  cases s'.enumDef? <;> by_cases hs' : s'.name = s.name <;> simp [hs', Option.filter]

/-- A message of the batch collides with no other one if it shares its flattened name with none. -/
theorem collisions_eq_none_iff_unshared (hdots : ∀ p ∈ allMessages files, p.1.DotFree)
    (hn : Declares files n) :
    (SymbolTable.ofFiles files).collisions n = none ↔ n.Unshared files := by
  obtain ⟨p, hp, rfl⟩ := List.mem_map.1 hn
  have hmem : ∀ x, x ∈ (SymbolTable.ofFiles files).flattenedTo p.1 ↔
      ∃ q ∈ allMessages files, (q.1.package = p.1.package ∧ q.1.name = p.1.name) ∧
        q.1.qualified = x := by
    intro x
    rw [SymbolTable.mem_flattenedTo]
    constructor
    · rintro ⟨s, hs, hkind, hflat, hx⟩
      obtain ⟨q, hq, hname⟩ := List.mem_map.1 (exists_symbol_iff_declares.1 ⟨s, hs, hkind, rfl⟩)
      rw [← hname] at hflat hx
      exact ⟨q, hq, (TypeName.qualified_flat_eq_iff (hdots q hq) (hdots p hp)).1 hflat, hx⟩
    · rintro ⟨q, hq, hflat, hx⟩
      obtain ⟨s, hs, hkind, hname⟩ := exists_symbol_iff_declares.2 (List.mem_map_of_mem hq)
      rw [← hname] at hflat hx
      refine ⟨s, hs, hkind, ?_, hx⟩
      exact (TypeName.qualified_flat_eq_iff (hname ▸ hdots q hq) (hdots p hp)).2 hflat
  rw [SymbolTable.collisions_eq_none_iff]
  constructor
  · intro hall q hq hpackage hname
    exact hall _ ((hmem _).2 ⟨q, hq, ⟨hpackage, hname⟩, rfl⟩) _
      ((hmem _).2 ⟨p, hp, ⟨rfl, rfl⟩, rfl⟩)
  · intro hunshared x hx y hy
    obtain ⟨q, hq, ⟨hpackage, hname⟩, rfl⟩ := (hmem x).1 hx
    obtain ⟨q', hq', ⟨hpackage', hname'⟩, rfl⟩ := (hmem y).1 hy
    rw [hunshared q hq hpackage hname, hunshared q' hq' hpackage' hname']

/-- Messages of the batch that share a flattened name with no other one are told apart by it. -/
theorem flat_eq_iff_of_unshared (hdots : ∀ p ∈ allMessages files, p.1.DotFree)
    (hn : Declares files n) (hn' : Declares files n') (hunshared : n.Unshared files) :
    n.flat = n'.flat ↔ n = n' := by
  refine ⟨fun heq => ?_, fun heq => heq ▸ rfl⟩
  have hpackage : n'.package = n.package := (congrArg TypeName.package heq).symm
  have hname : n'.name = n.name := by
    have hpath := congrArg TypeName.path heq
    simpa [TypeName.flat] using hpath.symm
  obtain ⟨p, hp, rfl⟩ := List.mem_map.1 hn
  obtain ⟨p', hp', rfl⟩ := List.mem_map.1 hn'
  have hqualified := hunshared p' hp' hpackage hname
  exact ((TypeName.qualified_eq_iff_of_package (hdots p' hp') (hdots p hp) hn'.path_ne_nil
    hn.path_ne_nil hpackage).1 hqualified).symm

/-! ## Repeated names -/

variable {declared : List (String × String)} {name : String} {sources : List String}

theorem firstRepeated?_eq_none_iff : firstRepeated? declared = none ↔ (declared.map (·.1)).Nodup := by
  have hcount : ∀ x : String, ((declared.filter (·.1 = x)).map (·.2)).length =
      (declared.map (·.1)).count x := by
    intro x
    rw [List.count, List.countP_map, List.countP_eq_length_filter, List.length_map]
    simp [Function.comp_def, beq_eq_decide]
  rw [firstRepeated?, Option.map_eq_none_iff, List.find?_eq_none, List.nodup_iff_count_le_one]
  simp only [hcount, decide_eq_true_eq, Nat.not_lt]
  constructor
  · intro hle x
    by_cases hx : x ∈ declared.map (·.1)
    · obtain ⟨d, hd, rfl⟩ := List.mem_map.1 hx
      exact hle d hd
    · simp [List.count_eq_zero.2 hx]
  · intro hle d _
    exact hle d.1

/-- What is told of a repeated name is everything that declares it. -/
theorem of_firstRepeated?_eq_some (h : firstRepeated? declared = some (name, sources)) :
    sources = (declared.filter (·.1 = name)).map (·.2) ∧ 1 < sources.length := by
  rw [firstRepeated?, Option.map_eq_some_iff] at h
  obtain ⟨d, hd, heq⟩ := h
  obtain ⟨rfl, rfl⟩ := Prod.mk.inj heq
  exact ⟨rfl, by simpa using List.find?_some hd⟩

end SchemaBridge
