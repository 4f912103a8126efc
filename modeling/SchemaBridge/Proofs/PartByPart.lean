import Mathlib.Data.List.Forall2
import Mathlib.Data.List.Nodup
import Mathlib.Data.List.Pairwise

/-!
# Converting part by part

Lists whose members are related one by one (`List.Forall₂`) or have keys of their own (`filter_key`,
`nodup_map_iff`, `eraseDups_map`), and conversions in `Except` that take one step after the other
(`bind_eq_ok_iff`) or convert the members of a list: the results are those of the members
(`mapM_eq_ok_iff`), and the error is that of the first member that fails (`firstError_of_mapM`).
-/

namespace SchemaBridge

variable {α β γ δ ε : Type} {R : α → β → Prop} {E : α → γ → Prop} {as : List α} {bs : List β}

/-! ## Related lists -/

theorem exists_of_mem_left (h : List.Forall₂ R as bs) : ∀ a ∈ as, ∃ b ∈ bs, R a b := by
  induction h with
  | nil => simp
  | cons hab _ ih =>
    intro a ha
    rcases List.mem_cons.1 ha with rfl | ha
    · exact ⟨_, List.mem_cons_self .., hab⟩
    · obtain ⟨b, hb, hr⟩ := ih a ha
      exact ⟨b, List.mem_cons_of_mem _ hb, hr⟩

theorem forall₂_with_mem (h : List.Forall₂ R as bs) :
    List.Forall₂ (fun a b => a ∈ as ∧ b ∈ bs ∧ R a b) as bs := by
  obtain ⟨hlen, hzip⟩ := List.forall₂_iff_zip.1 h
  refine List.forall₂_iff_zip.2 ⟨hlen, fun hab => ?_⟩
  obtain ⟨ha, hb⟩ := List.of_mem_zip hab
  exact ⟨ha, hb, hzip hab⟩

theorem forall₂_trans {S : β → γ → Prop} {cs : List γ} (h : List.Forall₂ R as bs)
    (h' : List.Forall₂ S bs cs) : List.Forall₂ (fun a c => ∃ b, R a b ∧ S b c) as cs := by
  induction h generalizing cs with
  | nil =>
    cases h'
    exact .nil
  | @cons a b as bs hab _ ih =>
    cases h' with
    | cons hbc h' => exact .cons ⟨b, hab, hbc⟩ (ih h')

/-- Lists of one element each, one after the other. -/
theorem forall₂_flatten {bss : List (List β)}
    (h : List.Forall₂ (fun a bs => ∃ b, bs = [b] ∧ R a b) as bss) :
    List.Forall₂ R as bss.flatten := by
  induction h with
  | nil => exact .nil
  | cons hab _ ih =>
    obtain ⟨b, rfl, hr⟩ := hab
    exact .cons hr ih

theorem forall₂_zip_right {E : α → γ → Prop} {cs : List γ} (h : List.Forall₂ R as bs)
    (h' : List.Forall₂ E as cs) :
    List.Forall₂ (fun a p => R a p.1 ∧ E a p.2) as (bs.zip cs) := by
  induction h generalizing cs with
  | nil =>
    cases h'
    exact .nil
  | cons hab _ ih =>
    cases h' with
    | cons hac h' => exact .cons ⟨hab, hac⟩ (ih h')

/-- Members are related to what is made of them and their partners. -/
theorem forall₂_map_zip {g : α × β → γ} (h : List.Forall₂ R as bs)
    (step : ∀ a b, R a b → E a (g (a, b))) : List.Forall₂ E as ((as.zip bs).map g) := by
  induction h with
  | nil => exact .nil
  | cons hab _ ih => exact .cons (step _ _ hab) ih

theorem zipWith_eq_left {g : α → β → α} (h : List.Forall₂ (fun a b => g a b = a) as bs) :
    List.zipWith g as bs = as := by
  induction h with
  | nil => rfl
  | cons hab _ ih => rw [List.zipWith_cons_cons, hab, ih]

theorem map_eq_of_forall₂ {f : α → γ} {g : β → γ} (h : List.Forall₂ (fun a b => g b = f a) as bs) :
    bs.map g = as.map f := by
  induction h with
  | nil => rfl
  | cons hab _ ih => rw [List.map_cons, List.map_cons, hab, ih]

/-- What two related lists contribute beside a third one is the same when it is so of their members. -/
theorem flatMap_zip_of_forall₂ {cs : List γ} {f : γ × α → List δ} {g : γ × β → List δ}
    (h : List.Forall₂ R as bs) (step : ∀ c a b, R a b → f (c, a) = g (c, b)) :
    (cs.zip as).flatMap f = (cs.zip bs).flatMap g := by
  induction h generalizing cs with
  | nil => simp only [List.zip_nil_right, List.flatMap_nil]
  | cons hab _ ih =>
    cases cs with
    | nil => rfl
    | cons c cs => rw [List.zip_cons_cons, List.zip_cons_cons, List.flatMap_cons, List.flatMap_cons,
        step c _ _ hab, ih]

/-- What related members contribute together can be told from the first one. -/
theorem flatMap_zip_eq {f : α × β → List δ} {g : α → List δ} (h : List.Forall₂ R as bs)
    (step : ∀ a b, R a b → f (a, b) = g a) : (as.zip bs).flatMap f = as.flatMap g := by
  induction h with
  | nil => rfl
  | cons hab _ ih => rw [List.zip_cons_cons, List.flatMap_cons, List.flatMap_cons, step _ _ hab, ih]

theorem map_filter_of_forall₂ {g : β → α} {keepLeft : α → Bool} {keepRight : β → Bool}
    (h : List.Forall₂ (fun a b => g b = a ∧ keepRight b = keepLeft a) as bs) :
    (bs.filter keepRight).map g = as.filter keepLeft := by
  induction h with
  | nil => rfl
  | @cons a b as bs hab _ ih =>
    obtain ⟨rfl, hkeep⟩ := hab
    cases hb : keepRight b with
    | true =>
      rw [List.filter_cons_of_pos hb, List.filter_cons_of_pos (hkeep ▸ hb), List.map_cons, ih]
    | false =>
      rw [List.filter_cons_of_neg (by simp [hb]), ih,
        List.filter_cons_of_neg (by simp [← hkeep, hb])]

theorem forall₂_mapIdx {g : Nat → α → β} (h : ∀ i, ∀ a ∈ as, R a (g i a)) :
    List.Forall₂ R as (as.mapIdx g) :=
  List.forall₂_iff_get.2 ⟨by simp, fun i h1 h2 => by simpa using h i as[i] (List.getElem_mem h1)⟩

/-- What is made of the members by their positions is the same if it is so for each of them. -/
theorem map_mapIdx_eq {g : Nat → α → γ} {g' : Nat → β → γ} {h : α → β} {k : γ → δ}
    (step : ∀ i, ∀ a ∈ as, k (g i a) = k (g' i (h a))) :
    (as.mapIdx g).map k = ((as.map h).mapIdx g').map k :=
  List.ext_getElem (by simp) fun i h1 h2 => by
    simpa using step i _ (List.getElem_mem (by simpa using h1))

/-! ## Keys -/

/-- A member is found again by its key if no other one has that key. -/
theorem filter_key [DecidableEq γ] {key : α → γ} (h : (as.map key).Nodup) {a : α} (ha : a ∈ as) :
    as.filter (key · = key a) = [a] := by
  induction as with
  | nil => cases ha
  | cons a' as ih =>
    obtain ⟨hnot, hnodup⟩ := List.nodup_cons.1 h
    rcases List.mem_cons.1 ha with rfl | ha
    · have hnone : as.filter (key · = key a) = [] := by
        refine List.filter_eq_nil_iff.2 fun a' ha' => ?_
        have : key a' ≠ key a := fun heq => hnot (List.mem_map.2 ⟨a', ha', heq⟩)
        simpa using this
      rw [List.filter_cons_of_pos (by simp), hnone]
    · have hne : key a' ≠ key a := fun heq => hnot (List.mem_map.2 ⟨a, ha, heq.symm⟩)
      rw [List.filter_cons_of_neg (by simpa using hne), ih hnodup ha]

/-- Members with one key are kept together. -/
theorem filter_of_key [DecidableEq γ] {key : α → γ} {same k : γ} (h : ∀ a ∈ as, key a = same) :
    as.filter (fun a => key a = k) = if same = k then as else [] := by
  split
  · next heq => exact List.filter_eq_self.2 fun a ha => by simpa [h a ha] using heq
  · next hne => exact List.filter_eq_nil_iff.2 fun a ha => by simpa [h a ha] using hne

/-- Two maps that identify the same members of a list both give a list without repetition of it, or
neither does. -/
theorem nodup_map_iff {f : α → β} {g : α → γ}
    (h : ∀ a ∈ as, ∀ a' ∈ as, f a = f a' ↔ g a = g a') : (as.map f).Nodup ↔ (as.map g).Nodup := by
  rw [List.Nodup, List.Nodup, List.pairwise_map, List.pairwise_map]
  exact List.Pairwise.iff_of_mem fun ha ha' => not_congr (h _ ha _ ha')

/-- What occurs in the lists of two members occurs in that of one member only, if the lists put together
have no repetition. -/
theorem eq_of_nodup_flatMap {g : α → List β} (h : (as.flatMap g).Nodup) {a a' : α} (ha : a ∈ as)
    (ha' : a' ∈ as) {b : β} (hb : b ∈ g a) (hb' : b ∈ g a') : a = a' := by
  by_contra hne
  have hsymm : Std.Symm (Function.onFun List.Disjoint g) := ⟨fun _ _ => List.disjoint_symm⟩
  exact (List.nodup_flatMap.1 h).2.forall ha ha' hne hb hb'

/-- What is made of the members is repeated where the members are, if no two of them give the same. -/
theorem eraseDups_map [BEq α] [LawfulBEq α] [BEq β] [LawfulBEq β] {f : α → β} : ∀ as : List α,
    (∀ a ∈ as, ∀ a' ∈ as, f a = f a' → a = a') → (as.map f).eraseDups = as.eraseDups.map f
  | [], _ => rfl
  | a :: as, h => by
    have hfilter : (as.map f).filter (fun b => !b == f a) = (as.filter fun a' => !a' == a).map f := by
      rw [List.filter_map]
      congr 1
      refine List.filter_congr fun a' ha' => ?_
      have hiff : f a' = f a ↔ a' = a :=
        ⟨h a' (List.mem_cons_of_mem _ ha') a (List.mem_cons_self ..), fun heq => by rw [heq]⟩
      rw [Function.comp_apply, Bool.eq_iff_iff, Bool.not_eq_true', Bool.not_eq_true',
        beq_eq_false_iff_ne, beq_eq_false_iff_ne]
      exact not_congr hiff
    have hmem : ∀ a' ∈ as.filter fun a' => !a' == a, a' ∈ a :: as :=
      fun a' ha' => List.mem_cons_of_mem _ (List.mem_of_mem_filter ha')
    rw [List.map_cons, List.eraseDups_cons, List.eraseDups_cons, hfilter, List.map_cons,
      eraseDups_map (as.filter _) fun a' ha' b hb => h a' (hmem a' ha') b (hmem b hb)]
termination_by as => as.length
decreasing_by simpa using Nat.lt_succ_of_le (List.length_filter_le ..)

theorem nodup_eraseDups [BEq α] [LawfulBEq α] : ∀ as : List α, as.eraseDups.Nodup
  | [] => by simp
  | a :: as => by
    rw [List.eraseDups_cons, List.nodup_cons, List.mem_eraseDups]
    exact ⟨by simp, nodup_eraseDups _⟩
termination_by as => as.length
decreasing_by simpa using Nat.lt_succ_of_le (List.length_filter_le ..)

/-! ## Conversions -/

theorem exists_of_isOk {x : Except ε α} (h : x.isOk = true) : ∃ a, x = .ok a := by
  cases x with
  | error e => cases h
  | ok a => exact ⟨a, rfl⟩

theorem toOption_eq_some_iff {x : Except ε α} {a : α} : x.toOption = some a ↔ x = .ok a := by
  cases x <;> simp [Except.toOption]

/-- Two steps succeed if the first one does and the second one does with its result. -/
theorem bind_eq_ok_iff {x : Except ε α} {g : α → Except ε β} {b : β} :
    x >>= g = .ok b ↔ ∃ a, x = .ok a ∧ g a = .ok b := by
  cases x <;> simp [bind, Except.bind]

/-- Two steps fail if the first one does, or the second one does with its result. -/
theorem bind_eq_error_iff {x : Except ε α} {g : α → Except ε β} {e : ε} :
    x >>= g = .error e ↔ x = .error e ∨ ∃ a, x = .ok a ∧ g a = .error e := by
  cases x <;> simp [bind, Except.bind]

theorem map_eq_ok_iff {x : Except ε α} {k : α → β} {b : β} :
    x.map k = .ok b ↔ ∃ a, x = .ok a ∧ k a = b := by
  cases x <;> simp [Except.map]

/-- What is made of the results of two steps is made in the second one. -/
theorem map_bind_eq {x : Except ε α} {g : α → Except ε β} {k : β → γ} :
    (x >>= g).map k = x >>= fun a => (g a).map k := by
  cases x <;> rfl

theorem bind_map_eq {x : Except ε α} {h : α → β} {g : β → Except ε γ} :
    x.map h >>= g = x >>= fun a => g (h a) := by
  cases x <;> rfl

/-- Parts that stand for other ones are converted into what stands for their results. -/
theorem mapM_map_eq {g : α → Except ε β} {g' : γ → Except ε δ} {h : α → γ} {k : β → δ}
    (step : ∀ a, g' (h a) = (g a).map k) (as : List α) :
    (as.map h).mapM g' = (as.mapM g).map (List.map k) := by
  induction as with
  | nil => rfl
  | cons a as ih =>
    rw [List.map_cons, List.mapM_cons, List.mapM_cons, step, ih]
    cases g a with
    | error e => rfl
    | ok b => cases as.mapM g <;> rfl

/-- Parts are converted one by one. -/
theorem mapM_eq_ok_iff {g : α → Except ε β} :
    as.mapM g = .ok bs ↔ List.Forall₂ (fun a b => g a = .ok b) as bs := by
  induction as generalizing bs with
  | nil => simp [pure, Except.pure, eq_comm]
  | cons a as ih =>
    rw [List.mapM_cons]
    cases ha : g a with
    | error e =>
      have hne : ¬ List.Forall₂ (fun a b => g a = .ok b) (a :: as) bs := by
        intro h
        cases h with
        | cons hb _ => cases ha.symm.trans hb
      simp [bind, Except.bind, hne]
    | ok b =>
      cases has : as.mapM g with
      | error e =>
        have hne : ¬ List.Forall₂ (fun a b => g a = .ok b) (a :: as) bs := by
          intro h
          cases h with
          | cons _ hbs => cases has.symm.trans (ih.2 hbs)
        simp [bind, Except.bind, hne]
      | ok rest =>
        have hrest := ih.1 has
        constructor
        · intro h
          obtain rfl : b :: rest = bs := Except.ok.inj h
          exact .cons ha hrest
        · intro h
          cases h with
          | cons hb hbs =>
            obtain rfl := Except.ok.inj (ha.symm.trans hb)
            obtain rfl := Except.ok.inj (has.symm.trans (ih.2 hbs))
            rfl

theorem exists_mapM_eq_ok {g : β → Except ε γ} (h : List.Forall₂ R as bs)
    (step : ∀ a b, R a b → ∃ c, g b = .ok c ∧ E a c) :
    ∃ cs, bs.mapM g = .ok cs ∧ List.Forall₂ E as cs := by
  induction h with
  | nil => exact ⟨[], rfl, .nil⟩
  | @cons a b as bs hab _ ih =>
    obtain ⟨c, hc, he⟩ := step a b hab
    obtain ⟨cs, hcs, hes⟩ := ih
    refine ⟨c :: cs, ?_, .cons he hes⟩
    rw [List.mapM_cons, hc, hcs]
    rfl

theorem exists_of_mapM_eq_ok {g : β → Except ε γ} {cs : List γ} (h : bs.mapM g = .ok cs) :
    ∀ b ∈ bs, ∃ c, g b = .ok c := by
  intro b hb
  obtain ⟨c, -, hc⟩ := exists_of_mem_left (mapM_eq_ok_iff.1 h) b hb
  exact ⟨c, hc⟩

/-- The error is that of the first part that cannot be converted. -/
def FirstError (g : α → Except ε β) (as : List α) (e : ε) : Prop :=
  ∃ before a after, as = before ++ a :: after ∧ (∀ a' ∈ before, ∃ b, g a' = .ok b) ∧ g a = .error e

theorem FirstError.append_right {g : α → Except ε β} {e : ε} (h : FirstError g as e)
    (as' : List α) : FirstError g (as ++ as') e := by
  obtain ⟨before, a, after, rfl, hbefore, ha⟩ := h
  exact ⟨before, a, after ++ as', by simp, hbefore, ha⟩

theorem FirstError.append_left {g : α → Except ε β} {as' : List α} {e : ε} (h : FirstError g as' e)
    (hall : ∀ a ∈ as, ∃ b, g a = .ok b) : FirstError g (as ++ as') e := by
  obtain ⟨before, a, after, rfl, hbefore, ha⟩ := h
  exact ⟨as ++ before, a, after, by simp, List.forall_mem_append.2 ⟨hall, hbefore⟩, ha⟩

/-- If the parts cannot all be converted, the error is that of the first one that cannot. -/
theorem firstError_of_mapM {g : α → Except ε β} {e : ε} (h : as.mapM g = .error e) :
    FirstError g as e := by
  induction as with
  | nil => cases h
  | cons a as ih =>
    rw [List.mapM_cons] at h
    rcases bind_eq_error_iff.1 h with ha | ⟨b, ha, h⟩
    · exact ⟨[], a, as, rfl, by simp, ha⟩
    · have hfirst : ∀ a' ∈ [a], ∃ b, g a' = .ok b := by simpa using ⟨b, ha⟩
      rcases bind_eq_error_iff.1 h with has | ⟨bs, -, h⟩
      · exact (ih has).append_left hfirst
      · cases h

theorem exists_error_of_mapM {g : α → Except ε β} {e : ε} (h : as.mapM g = .error e) :
    ∃ a ∈ as, g a = .error e := by
  obtain ⟨before, a, after, rfl, -, ha⟩ := firstError_of_mapM h
  exact ⟨a, by simp, ha⟩

theorem exists_mapM_of_forall {g : α → Except ε β} (h : ∀ a ∈ as, ∃ b, g a = .ok b) :
    ∃ bs, as.mapM g = .ok bs := by
  cases hmap : as.mapM g with
  | ok bs => exact ⟨bs, rfl⟩
  | error e =>
    obtain ⟨a, ha, he⟩ := exists_error_of_mapM hmap
    obtain ⟨b, hb⟩ := h a ha
    cases he.symm.trans hb

end SchemaBridge
