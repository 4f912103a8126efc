/-!
# Repeated and distinct names

`firstRepeated?` finds the first name that a list of declarations gives more than once, together with
everything declared under it. `sortedDistinct` lists the names of a list in increasing order, each
once; the order is that of code points.

* `mem_sortedDistinct`: no name is lost and none is added.
* `pairwise_sortedDistinct`: the names increase strictly.
* `length_sortedDistinct_le_one_iff`: more than one name is left if two names differ.
-/

namespace SchemaBridge

/-- The first name that is given more than once, and what is declared under that name, in order. -/
def firstRepeated? (declared : List (String × String)) : Option (String × List String) :=
  let named (name : String) := (declared.filter (·.1 = name)).map (·.2)
  (declared.find? fun d => 1 < (named d.1).length).map fun d => (d.1, named d.1)

/-- A sorted list with one more name, unless the list has it already. -/
def insertDistinct (name : String) : List String → List String
  | [] => [name]
  | other :: rest =>
    if name < other then name :: other :: rest
    else if name = other then other :: rest
    else other :: insertDistinct name rest

/-- The names of a list in increasing order, each once. -/
def sortedDistinct (names : List String) : List String := names.foldr insertDistinct []

/-! ## Members and order -/

theorem mem_insertDistinct {name x : String} {names : List String} :
    x ∈ insertDistinct name names ↔ x = name ∨ x ∈ names := by
  induction names with
  | nil => simp [insertDistinct]
  | cons other rest ih =>
    rw [insertDistinct]
    split
    · simp
    · split
      · next h => subst h; simp
      · simp only [List.mem_cons, ih]
        constructor <;> rintro (h | h | h) <;> simp [h]

theorem mem_sortedDistinct {x : String} {names : List String} :
    x ∈ sortedDistinct names ↔ x ∈ names := by
  induction names with
  | nil => simp [sortedDistinct]
  | cons name names ih =>
    rw [sortedDistinct, List.foldr_cons, mem_insertDistinct]
    rw [sortedDistinct] at ih
    simp [ih]

theorem pairwise_insertDistinct {name : String} {names : List String}
    (h : names.Pairwise (· < ·)) : (insertDistinct name names).Pairwise (· < ·) := by
  induction names with
  | nil => simp [insertDistinct]
  | cons other rest ih =>
    rw [List.pairwise_cons] at h
    rw [insertDistinct]
    split
    · next lt =>
      refine List.pairwise_cons.2 ⟨fun x hx => ?_, List.pairwise_cons.2 h⟩
      rcases List.mem_cons.1 hx with rfl | hx
      · exact lt
      · exact String.lt_trans lt (h.1 x hx)
    · next notLt =>
      split
      · exact List.pairwise_cons.2 h
      · next ne =>
        refine List.pairwise_cons.2 ⟨fun x hx => ?_, ih h.2⟩
        rcases mem_insertDistinct.1 hx with rfl | hx
        · exact Classical.byContradiction fun notLt' =>
            ne (String.le_antisymm (String.not_lt.1 notLt') (String.not_lt.1 notLt))
        · exact h.1 x hx

theorem pairwise_sortedDistinct (names : List String) :
    (sortedDistinct names).Pairwise (· < ·) := by
  induction names with
  | nil => simp [sortedDistinct]
  | cons name names ih => exact pairwise_insertDistinct ih

theorem length_sortedDistinct_le_one_iff {names : List String} :
    (sortedDistinct names).length ≤ 1 ↔ ∀ x ∈ names, ∀ y ∈ names, x = y := by
  have hpairwise := pairwise_sortedDistinct names
  simp only [← @mem_sortedDistinct _ names]
  match hnames : sortedDistinct names with
  | [] => simp
  | [x] => simp
  | x :: y :: rest =>
    rw [hnames, List.pairwise_cons] at hpairwise
    have hlt : x < y := hpairwise.1 y (List.mem_cons_self ..)
    have hne : x ≠ y := fun heq => String.lt_irrefl y (heq ▸ hlt)
    refine ⟨fun hlen => absurd hlen (by simp), fun hall => absurd (hall x ?_ y ?_) hne⟩
    · exact List.mem_cons_self ..
    · exact List.mem_cons_of_mem _ (List.mem_cons_self ..)

end SchemaBridge
