import Mathlib
import SchemaBridge.Naming

/-!
# What snake case keeps of a name

Snake case forgets which letters are capitals and where underscores stand, and nothing else
(`folded_eq_of_snakeCase_eq`). A name in camel case has no underscores and no capitals in a row: there
every capital begins a word, and the name can be read off its snake case (`camelCase_snakeCase`).
-/

namespace SchemaBridge

/-! ## Letter case -/

/-- Nothing but a character without case is made that character by lower case. -/
theorem toLower_eq_iff_of_not_isAlpha {c d : Char} (hd : d.isAlpha = false) :
    c.toLower = d ↔ c = d := by
  by_cases hc : c.isUpper
  · have halpha : c.isAlpha = true := by simp [Char.isAlpha, hc]
    constructor
    · rintro rfl
      simp [halpha] at hd
    · rintro rfl
      simp [halpha] at hd
  · rw [Char.toLower_eq_of_not_isUpper hc]

theorem toUpper_toLower_of_isUpper {c : Char} (h : c.isUpper) : c.toLower.toUpper = c := by
  rw [Char.toUpper_toLower_eq_toUpper, Char.toUpper_eq_of_not_isLower (Char.not_isLower_of_isUpper h)]

/-! ## Names up to case and underscores -/

/-- The characters of a name other than underscores, in lower case. -/
def folded (name : String) : List Char := (name.toList.filter (· ≠ '_')).map Char.toLower

theorem filter_toLower_cons (c : Char) (cs : List Char) :
    (c.toLower :: cs).filter (· ≠ '_') =
      ([c].filter (· ≠ '_')).map Char.toLower ++ cs.filter (· ≠ '_') := by
  by_cases hc : c = '_'
  · subst hc
    rfl
  · have hlower : c.toLower ≠ '_' := fun heq =>
      hc ((toLower_eq_iff_of_not_isAlpha (by decide)).1 heq)
    simp [hc, hlower]

/-- The underscores between words are the only characters that snake case adds. -/
theorem filter_snakeAfter (prev : Char) (cs : List Char) :
    (snakeAfter prev cs).filter (· ≠ '_') = (cs.filter (· ≠ '_')).map Char.toLower := by
  induction cs generalizing prev with
  | nil => rfl
  | cons c cs ih =>
    have hrest : (c.toLower :: snakeAfter c cs).filter (· ≠ '_') =
        ((c :: cs).filter (· ≠ '_')).map Char.toLower := by
      rw [filter_toLower_cons, ih, ← List.map_append, ← List.filter_append]
      rfl
    rw [snakeAfter]
    split
    · rw [List.filter_cons_of_neg (by simp), hrest]
    · exact hrest

theorem filter_snakeCase (name : String) :
    (snakeCase name).toList.filter (· ≠ '_') = folded name := by
  unfold snakeCase folded
  cases name.toList with
  | nil => rfl
  | cons c cs =>
    simp only [String.toList_ofList]
    rw [filter_toLower_cons, filter_snakeAfter, ← List.map_append, ← List.filter_append]
    rfl

/-- Names of one snake case differ in nothing but letter case and underscores. -/
theorem folded_eq_of_snakeCase_eq {name name' : String} (h : snakeCase name = snakeCase name') :
    folded name = folded name' := by
  rw [← filter_snakeCase, h, filter_snakeCase]

theorem slash_not_mem_snakeCase {name : String} (h : '/' ∉ name.toList) :
    '/' ∉ (snakeCase name).toList := by
  intro hmem
  have hfolded : '/' ∈ folded name := by
    rw [← filter_snakeCase]
    exact List.mem_filter.2 ⟨hmem, by decide⟩
  obtain ⟨c, hc, heq⟩ := List.mem_map.1 hfolded
  obtain rfl := (toLower_eq_iff_of_not_isAlpha (by decide)).1 heq
  exact h (List.mem_filter.1 hc).1

/-! ## Names in camel case -/

/-- The name begins with a capital, has no underscores, and no capital follows another one. -/
structure CamelCase (name : String) : Prop where
  capital : name.toList.head?.any Char.isUpper = true
  letters : ∀ c ∈ name.toList, c.isAlphanum = true
  apart : name.toList.IsChain fun c d => ¬ (c.isUpper ∧ d.isUpper)

/-- The rest of a name whose snake case goes on with the given characters. -/
def camelAfter : List Char → List Char
  | [] => []
  | [c] => [c]
  | c :: d :: cs => if c = '_' then d.toUpper :: camelAfter cs else c :: camelAfter (d :: cs)

/-- The name in camel case that a name in snake case stands for. -/
def camelCase (snake : String) : String :=
  match snake.toList with
  | [] => ""
  | c :: cs => String.ofList (c.toUpper :: camelAfter cs)

theorem camelAfter_cons {c : Char} (h : c ≠ '_') (cs : List Char) :
    camelAfter (c :: cs) = c :: camelAfter cs := by
  cases cs with
  | nil => rfl
  | cons d cs => rw [camelAfter, if_neg h]

/-- In camel case exactly the capitals begin a word. -/
theorem endsWord_of_apart {prev c : Char} (hprev : prev.isAlphanum = true)
    (hapart : ¬ (prev.isUpper ∧ c.isUpper)) (next : Option Char) :
    endsWord prev c next = c.isUpper := by
  unfold endsWord
  cases hc : c.isUpper with
  | false => rfl
  | true =>
    have hlower : prev.isUpper = false := by simpa [hc] using hapart
    have hword : (prev.isLower || prev.isDigit) = true := by
      simpa [Char.isAlphanum, Char.isAlpha, hlower] using hprev
    rw [hword]
    rfl

theorem camelAfter_snakeAfter (prev : Char) (cs : List Char)
    (hletters : ∀ c ∈ prev :: cs, c.isAlphanum = true)
    (hapart : (prev :: cs).IsChain fun c d => ¬ (c.isUpper ∧ d.isUpper)) :
    camelAfter (snakeAfter prev cs) = cs := by
  induction cs generalizing prev with
  | nil => rfl
  | cons c cs ih =>
    obtain ⟨hprev, hrest⟩ := List.forall_mem_cons.1 hletters
    obtain ⟨hfirst, hchain⟩ := List.isChain_cons_cons.1 hapart
    have hcamel := ih c hrest hchain
    have hc : c.isAlphanum = true := hrest c (List.mem_cons_self ..)
    rw [snakeAfter]
    simp only [endsWord_of_apart hprev hfirst]
    split
    · next hupper => rw [camelAfter, if_pos rfl, toUpper_toLower_of_isUpper hupper, hcamel]
    · next hupper =>
      have hne : c ≠ '_' := by
        rintro rfl
        simp at hc
      rw [Char.toLower_eq_of_not_isUpper hupper, camelAfter_cons hne, hcamel]

/-- A name in camel case can be read off its snake case. -/
theorem camelCase_snakeCase {name : String} (h : CamelCase name) :
    camelCase (snakeCase name) = name := by
  obtain ⟨hcapital, hletters, hapart⟩ := h
  unfold snakeCase camelCase
  cases hcs : name.toList with
  | nil => simp [hcs] at hcapital
  | cons c cs =>
    rw [hcs] at hcapital hletters hapart
    simp only [String.toList_ofList]
    rw [toUpper_toLower_of_isUpper (by simpa using hcapital), camelAfter_snakeAfter c cs hletters hapart,
      ← hcs, String.ofList_toList]

theorem snakeCase_inj {name name' : String} (h : CamelCase name) (h' : CamelCase name') :
    snakeCase name = snakeCase name' ↔ name = name' := by
  refine ⟨fun heq => ?_, fun heq => heq ▸ rfl⟩
  rw [← camelCase_snakeCase h, heq, camelCase_snakeCase h']

end SchemaBridge
