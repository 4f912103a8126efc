import SchemaBridge.Proofs.Trim
import SchemaBridge.Text.Lines

/-!
# Lines of a text, written and read

* `newline_not_mem_lines`: no line has a line feed.
* `lines_unlines_eq`, `lines_unlines`: lines that are written one after the other are read again,
  but for a carriage return at the end of each, and cut at the line feeds in them.
* `exists_dropReturn`: what a line loses with its end.
-/

namespace SchemaBridge.Text

variable {c : Char} {cs line : List Char}

/-- No piece of a text has a character at which the text is cut. -/
theorem of_mem_splitOnP {p : Char → Bool} :
    ∀ {cs piece : List Char}, piece ∈ cs.splitOnP p → ∀ d ∈ piece, p d = false
  | [], piece, h => by
    obtain rfl : piece = [] := by simpa using h
    simp
  | d :: cs, piece, h => by
    obtain ⟨first, more, hsplit⟩ := List.exists_cons_of_ne_nil (List.splitOnP_ne_nil p cs)
    have hfirst : ∀ d ∈ first, p d = false := of_mem_splitOnP (hsplit ▸ List.mem_cons_self ..)
    rw [List.splitOnP_cons_eq_if_modifyHead, hsplit] at h
    split at h
    · rcases List.mem_cons.1 h with rfl | h
      · simp
      · exact of_mem_splitOnP (hsplit ▸ h)
    · next hd =>
      rw [List.modifyHead_cons] at h
      rcases List.mem_cons.1 h with rfl | h
      · exact List.forall_mem_cons.2 ⟨by simpa using hd, hfirst⟩
      · exact of_mem_splitOnP (hsplit ▸ List.mem_cons_of_mem _ h)

theorem not_mem_of_mem_splitOn {piece : List Char} (h : piece ∈ cs.splitOn c) : c ∉ piece := by
  rw [List.splitOn_eq_splitOnP] at h
  intro hc
  simpa using of_mem_splitOnP h c hc

/-- A line is what is left of it, and the carriage returns that it loses. -/
theorem exists_dropReturn (line : List Char) :
    ∃ ends, line = dropReturn line ++ ends ∧ ∀ c ∈ ends, c = '\r' := by
  unfold dropReturn
  split
  · next h =>
    refine ⟨['\r'], ?_, by simp⟩
    obtain ⟨init, hinit⟩ := List.getLast?_eq_some_iff.1 h
    rw [hinit, List.dropLast_concat]
  · exact ⟨[], by simp⟩

theorem dropReturn_subset (line : List Char) : dropReturn line ⊆ line := by
  obtain ⟨ends, hends, -⟩ := exists_dropReturn line
  intro c hc
  rw [hends]
  exact List.mem_append_left _ hc

theorem newline_not_mem_lines (h : line ∈ lines cs) : '\n' ∉ line := by
  unfold lines at h
  rcases List.mem_append.1 h with h | h
  · obtain ⟨piece, hp, rfl⟩ := List.mem_map.1 h
    exact fun hm => not_mem_of_mem_splitOn (List.dropLast_subset _ hp) (dropReturn_subset piece hm)
  · split at h
    · cases h
    · obtain rfl := List.mem_singleton.1 h
      have hne := List.splitOn_ne_nil '\n' cs
      rw [List.getLastD_eq_getLast?, List.getLast?_eq_some_getLast hne, Option.getD_some]
      exact not_mem_of_mem_splitOn (List.getLast_mem hne)

/-- The lines up to a line feed, and the lines after it. -/
theorem lines_append (cs rest : List Char) :
    lines (cs ++ '\n' :: rest) = (cs.splitOn '\n').map dropReturn ++ lines rest := by
  have hsplit : (cs ++ '\n' :: rest).splitOn '\n' = cs.splitOn '\n' ++ rest.splitOn '\n' :=
    List.splitOn_append_cons_self cs rest
  have hne := List.splitOn_ne_nil '\n' rest
  have hlast : ∀ before : List (List Char),
      (before ++ rest.splitOn '\n').getLastD [] = (rest.splitOn '\n').getLastD [] := by
    intro before
    rw [List.getLastD_eq_getLast?, List.getLastD_eq_getLast?, List.getLast?_append,
      List.getLast?_eq_some_getLast hne, Option.some_or]
  simp only [lines, hsplit, List.dropLast_append_of_ne_nil hne, hlast, List.map_append,
    List.append_assoc]

theorem lines_unlines_eq (texts : List String) :
    lines (unlines texts).toList =
      texts.flatMap fun text => (text.toList.splitOn '\n').map dropReturn := by
  induction texts with
  | nil => simp [unlines, lines]
  | cons text texts ih =>
    have hcs : (unlines (text :: texts)).toList = text.toList ++ '\n' :: (unlines texts).toList := by
      simp [unlines]
    rw [hcs, lines_append, ih, List.flatMap_cons]

theorem lines_unlines {texts : List String} (h : ∀ text ∈ texts, '\n' ∉ text.toList) :
    lines (unlines texts).toList = texts.map fun text => dropReturn text.toList := by
  rw [lines_unlines_eq, List.map_eq_flatMap]
  refine List.flatMap_congr fun text htext => ?_
  rw [List.splitOn_eq_singleton (h text htext)]
  rfl

end SchemaBridge.Text
