import Mathlib.Data.List.DropRight
import Mathlib.Data.List.TakeWhile
import SchemaBridge.Text.Blank

/-!
# Runs of characters and trimming

A reader takes the longest run of characters of one class off the front of a text, so that what is
left stops there (`StopsAt`). Trimming takes the blanks off both ends.

* `takeWhile_run`, `dropWhile_run`: a run and what is left after it determine each other.
* `trim_append_right`, `trim_append_left`: blanks at the ends do not matter.
* `trim_trim`: what is trimmed stays as it is.
* `trim_dropEndWhile`, `trim_dropWhile`: dropping some kind of blanks at one end first changes
  nothing.
* `padded_iff`: what trimming leaves of a text is what the blanks stand around.
-/

namespace SchemaBridge.Text

variable {p q : Char → Bool} {c : Char} {cs as bs : List Char}

/-! ## Runs -/

/-- A text that does not begin with a character of the class `p`. -/
def StopsAt (p : Char → Bool) (cs : List Char) : Prop := ∀ c ∈ cs.head?, p c = false

@[simp]
theorem stopsAt_nil : StopsAt p [] := by simp [StopsAt]

@[simp]
theorem stopsAt_cons : StopsAt p (c :: cs) ↔ p c = false := by simp [StopsAt]

theorem StopsAt.mono (h : StopsAt q cs) (hpq : ∀ c, p c = true → q c = true) : StopsAt p cs := by
  intro c hc
  have := h c hc
  by_contra hp
  rw [hpq c (by simpa using hp)] at this
  cases this

theorem StopsAt.append (has : as ≠ []) (h : StopsAt p as) : StopsAt p (as ++ bs) := by
  cases as with
  | nil => exact absurd rfl has
  | cons a as => simpa using h

theorem StopsAt.of_append (h : StopsAt p (as ++ bs)) : StopsAt p as := by
  cases as with
  | nil => exact stopsAt_nil
  | cons a as => simpa using h

theorem stopsAt_dropWhile (p : Char → Bool) (cs : List Char) : StopsAt p (cs.dropWhile p) := by
  intro c hc
  have := List.head?_dropWhile_not p cs
  rw [Option.mem_def.1 hc] at this
  simpa using this

theorem takeWhile_run (has : ∀ c ∈ as, p c = true) (hbs : StopsAt p bs) :
    (as ++ bs).takeWhile p = as := by
  rw [List.takeWhile_append_of_pos has]
  cases bs with
  | nil => simp
  | cons b bs => simp [stopsAt_cons.1 hbs]

theorem dropWhile_of_stopsAt (hbs : StopsAt p bs) : bs.dropWhile p = bs := by
  cases bs with
  | nil => rfl
  | cons b bs => simp [stopsAt_cons.1 hbs]

theorem dropWhile_run (has : ∀ c ∈ as, p c = true) (hbs : StopsAt p bs) :
    (as ++ bs).dropWhile p = bs := by
  rw [List.dropWhile_append_of_pos has, dropWhile_of_stopsAt hbs]

theorem takeWhile_forall (p : Char → Bool) (cs : List Char) : ∀ c ∈ cs.takeWhile p, p c = true :=
  fun _ hc => List.mem_takeWhile_imp hc

/-! ## Dropping at the end -/

theorem dropEndWhile_eq (p : Char → Bool) (cs : List Char) : dropEndWhile p cs = cs.rdropWhile p := rfl

/-- A text is what is left of it, and the characters dropped at its end. -/
theorem exists_dropEndWhile (p : Char → Bool) (cs : List Char) :
    ∃ bs, cs = dropEndWhile p cs ++ bs ∧ ∀ c ∈ bs, p c = true := by
  refine ⟨cs.rtakeWhile p, ?_, fun c hc => List.mem_rtakeWhile_imp hc⟩
  rw [dropEndWhile_eq, List.rdropWhile_append_rtakeWhile]

theorem prefix_dropEndWhile (p : Char → Bool) (cs : List Char) : dropEndWhile p cs <+: cs :=
  List.rdropWhile_prefix p cs

theorem dropEndWhile_append (hbs : ∀ c ∈ bs, p c = true) :
    dropEndWhile p (as ++ bs) = dropEndWhile p as := by
  simp only [dropEndWhile, List.reverse_append]
  rw [List.dropWhile_append_of_pos (by simpa using hbs)]

theorem dropEndWhile_append_of_ne_nil (h : dropEndWhile p bs ≠ []) :
    dropEndWhile p (as ++ bs) = as ++ dropEndWhile p bs := by
  have hne : bs.reverse.dropWhile p ≠ [] := by simpa [dropEndWhile] using h
  simp only [dropEndWhile, List.reverse_append, List.dropWhile_append]
  rw [if_neg (by simpa using hne)]
  simp

/-- Nothing is dropped beyond a character that is not of the class. -/
theorem dropEndWhile_append_cons (h : p c = false) :
    dropEndWhile p (as ++ c :: bs) = as ++ c :: dropEndWhile p bs := by
  by_cases hbs : dropEndWhile p bs = []
  · obtain ⟨ds, hds, hall⟩ := exists_dropEndWhile p bs
    rw [hbs, List.nil_append] at hds
    subst hds
    rw [hbs, show as ++ c :: bs = (as ++ [c]) ++ bs by simp, dropEndWhile_append hall]
    simp [dropEndWhile, h]
  · have hne : dropEndWhile p (as ++ [c] ++ bs) = as ++ [c] ++ dropEndWhile p bs :=
      dropEndWhile_append_of_ne_nil hbs
    simpa using hne

theorem dropEndWhile_dropEndWhile (p : Char → Bool) (cs : List Char) :
    dropEndWhile p (dropEndWhile p cs) = dropEndWhile p cs :=
  List.rdropWhile_idempotent p cs

/-! ## Trimming -/

/-- A text of blanks only. -/
def AllBlank (cs : List Char) : Prop := ∀ c ∈ cs, isBlank c = true

theorem trimStart_append (has : AllBlank as) : trimStart (as ++ bs) = trimStart bs :=
  List.dropWhile_append_of_pos has

theorem trimStart_of_stopsAt (h : StopsAt isBlank cs) : trimStart cs = cs := dropWhile_of_stopsAt h

theorem trimStart_eq_nil_iff : trimStart cs = [] ↔ AllBlank cs := List.dropWhile_eq_nil_iff

/-- A text is the blanks at its start, and what is left of it. -/
theorem exists_trimStart (cs : List Char) : ∃ as, cs = as ++ trimStart cs ∧ AllBlank as :=
  ⟨cs.takeWhile isBlank, (List.takeWhile_append_dropWhile (p := isBlank)).symm,
    takeWhile_forall isBlank cs⟩

theorem trimEnd_append (hbs : AllBlank bs) : trimEnd (as ++ bs) = trimEnd as :=
  dropEndWhile_append hbs

theorem trimEnd_cons (h : isBlank c = false) : trimEnd (c :: cs) = c :: trimEnd cs :=
  @dropEndWhile_append_cons isBlank c [] cs h

theorem trim_of_allBlank (h : AllBlank cs) : trim cs = [] := by
  rw [trim, trimStart_eq_nil_iff.2 h]
  rfl

theorem trim_append_left (has : AllBlank as) : trim (as ++ bs) = trim bs := by
  rw [trim, trimStart_append has, trim]

/-- Trimming a text that begins with no blank. -/
theorem trim_cons (h : isBlank c = false) : trim (c :: cs) = c :: trimEnd cs := by
  rw [trim, trimStart_of_stopsAt (stopsAt_cons.2 h), trimEnd_cons h]

/-- The parts of a text that is not blank: blanks, and a text that begins with no blank. -/
theorem exists_trimStart_cons (h : ¬ AllBlank cs) :
    ∃ as c rest, cs = as ++ c :: rest ∧ AllBlank as ∧ isBlank c = false ∧
      trim cs = c :: trimEnd rest := by
  obtain ⟨as, hcs, has⟩ := exists_trimStart cs
  cases hs : trimStart cs with
  | nil => exact absurd (trimStart_eq_nil_iff.1 hs) h
  | cons c rest =>
    have hc : isBlank c = false := by
      have := stopsAt_dropWhile isBlank cs
      rw [show cs.dropWhile isBlank = c :: rest from hs] at this
      exact stopsAt_cons.1 this
    rw [hs] at hcs
    exact ⟨as, c, rest, hcs, has, hc, by rw [hcs, trim_append_left has, trim_cons hc]⟩

theorem trim_eq_nil_iff : trim cs = [] ↔ AllBlank cs := by
  refine ⟨fun h => ?_, trim_of_allBlank⟩
  by_contra hne
  obtain ⟨as, c, rest, -, -, -, ht⟩ := exists_trimStart_cons hne
  rw [ht] at h
  cases h

theorem trim_append_right (hbs : AllBlank bs) : trim (as ++ bs) = trim as := by
  by_cases h : AllBlank as
  · rw [trim_append_left h, trim_of_allBlank hbs, trim_of_allBlank h]
  · obtain ⟨ds, c, rest, rfl, hds, hc, -⟩ := exists_trimStart_cons h
    rw [List.append_assoc, List.cons_append, trim_append_left hds, trim_append_left hds, trim_cons hc,
      trim_cons hc, trimEnd_append hbs]

theorem trimEnd_trimEnd (cs : List Char) : trimEnd (trimEnd cs) = trimEnd cs :=
  dropEndWhile_dropEndWhile isBlank cs

theorem trim_trim (cs : List Char) : trim (trim cs) = trim cs := by
  by_cases h : AllBlank cs
  · rw [trim_of_allBlank h]
    rfl
  · obtain ⟨as, c, rest, -, -, hc, ht⟩ := exists_trimStart_cons h
    rw [ht, trim_cons hc, trimEnd_trimEnd]

/-- Dropping blanks of some class at the end first does not matter. -/
theorem trim_dropEndWhile (hp : ∀ c, p c = true → isBlank c = true) :
    trim (dropEndWhile p cs) = trim cs := by
  obtain ⟨bs, hcs, hbs⟩ := exists_dropEndWhile p cs
  conv_rhs => rw [hcs]
  exact (trim_append_right fun c hc => hp c (hbs c hc)).symm

/-- Nor does dropping them at the start. -/
theorem trim_dropWhile (hp : ∀ c, p c = true → isBlank c = true) :
    trim (cs.dropWhile p) = trim cs := by
  conv_rhs => rw [← List.takeWhile_append_dropWhile (p := p) (l := cs)]
  exact (trim_append_left fun c hc => hp c (takeWhile_forall p cs c hc)).symm

theorem trim_subset (cs : List Char) : trim cs ⊆ cs := fun _ hc =>
  (List.dropWhile_suffix isBlank).subset ((prefix_dropEndWhile isBlank _).subset hc)

/-! ## Padding -/

variable {core : List Char}

/-- The text `cs` is `core` with blanks around it, and `core` has none at its ends. -/
def Padded (core cs : List Char) : Prop :=
  ∃ before after, cs = before ++ core ++ after ∧ AllBlank before ∧ AllBlank after ∧
    StopsAt isBlank core ∧ StopsAt isBlank core.reverse

theorem trim_of_stopsAt (h : StopsAt isBlank cs) (hend : StopsAt isBlank cs.reverse) :
    trim cs = cs := by
  rw [trim, trimStart_of_stopsAt h, trimEnd, dropEndWhile, dropWhile_of_stopsAt hend,
    List.reverse_reverse]

theorem padded_trim (cs : List Char) : Padded (trim cs) cs := by
  obtain ⟨before, hcs, hbefore⟩ := exists_trimStart cs
  obtain ⟨after, hrest, hafter⟩ := exists_dropEndWhile isBlank (trimStart cs)
  have hstart : StopsAt isBlank (trim cs ++ after) := by
    show StopsAt isBlank (dropEndWhile isBlank (trimStart cs) ++ after)
    rw [← hrest]
    exact stopsAt_dropWhile isBlank cs
  have hend : StopsAt isBlank (trim cs).reverse := by
    rw [trim, trimEnd, dropEndWhile, List.reverse_reverse]
    exact stopsAt_dropWhile isBlank _
  refine ⟨before, after, ?_, hbefore, hafter, hstart.of_append, hend⟩
  rw [List.append_assoc]
  exact hrest ▸ hcs

theorem padded_iff : Padded core cs ↔ trim cs = core := by
  refine ⟨fun h => ?_, fun h => h ▸ padded_trim cs⟩
  obtain ⟨before, after, rfl, hbefore, hafter, hstart, hend⟩ := h
  rw [trim_append_right hafter, trim_append_left hbefore, trim_of_stopsAt hstart hend]

end SchemaBridge.Text
