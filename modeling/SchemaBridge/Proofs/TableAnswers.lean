import SchemaBridge.Proofs.PartByPart
import SchemaBridge.Resolve

/-!
# What resolving asks of a table

References are resolved by asking a table for the symbol of a qualified name and for the packages of
the batch. Two tables that answer alike (`SymbolTable.AnswersLike`) therefore resolve every file alike
(`SymbolTable.AnswersLike.resolve`).

Results are compared by `ResultRel E R`: either both are errors, which `E` relates, or both are values,
which `R` relates. The relation is kept by steps (`ResultRel.bind`) and part by part
(`ResultRel.mapM`).
-/

namespace SchemaBridge

/-! ## Related results -/

/-- Two errors that `E` relates, or two values that `R` relates. -/
inductive ResultRel {ε α β : Type} (E : ε → ε → Prop) (R : α → β → Prop) :
    Except ε α → Except ε β → Prop
  | error {e e' : ε} (h : E e e') : ResultRel E R (.error e) (.error e')
  | ok {a : α} {b : β} (h : R a b) : ResultRel E R (.ok a) (.ok b)

namespace ResultRel

variable {ε α β γ δ : Type} {E : ε → ε → Prop} {R : α → β → Prop} {S : γ → δ → Prop}
  {x : Except ε α} {y : Except ε β}

theorem refl (hE : ∀ e, E e e) (x : Except ε α) : ResultRel E Eq x x := by
  cases x with
  | error e => exact .error (hE e)
  | ok a => exact .ok rfl

theorem eq {x y : Except ε α} (h : ResultRel Eq Eq x y) : x = y := by
  cases h with
  | error h => rw [h]
  | ok h => rw [h]

/-- Of two results the same is made if they are the same error, or values of which the same is made. -/
theorem map_eq_map_iff {k : α → γ} {k' : β → γ} :
    x.map k = y.map k' ↔ ResultRel Eq (fun a b => k a = k' b) x y := by
  constructor
  · intro h
    cases x <;> cases y
    · exact .error (Except.error.inj h)
    · cases h
    · cases h
    · exact .ok (Except.ok.inj h)
  · intro h
    cases h with
    | error h => exact congrArg Except.error h
    | ok h => exact congrArg Except.ok h

theorem imp {R' : α → β → Prop} (h : ResultRel E R x y) (himp : ∀ a b, R a b → R' a b) :
    ResultRel E R' x y := by
  cases h with
  | error h => exact .error h
  | ok h => exact .ok (himp _ _ h)

/-- Related results are related still after steps that take related values to related results. -/
theorem bind {f : α → Except ε γ} {g : β → Except ε δ} (h : ResultRel E R x y)
    (hstep : ∀ a b, R a b → ResultRel E S (f a) (g b)) : ResultRel E S (x >>= f) (y >>= g) := by
  cases h with
  | error h => exact .error h
  | ok h => exact hstep _ _ h

theorem mapM {f : α → Except ε γ} {g : α → Except ε δ} {as : List α}
    (h : ∀ a ∈ as, ResultRel E S (f a) (g a)) :
    ResultRel E (List.Forall₂ S) (as.mapM f) (as.mapM g) := by
  induction as with
  | nil => exact .ok .nil
  | cons a as ih =>
    obtain ⟨ha, has⟩ := List.forall_mem_cons.1 h
    rw [List.mapM_cons, List.mapM_cons]
    refine ha.bind fun c d hcd => (ih has).bind fun cs ds hcds => ?_
    exact .ok (.cons hcd hcds)

theorem mapM_eq {f g : α → Except ε γ} {as : List α} (h : ∀ a ∈ as, ResultRel E Eq (f a) (g a)) :
    ResultRel E Eq (as.mapM f) (as.mapM g) :=
  (mapM h).imp fun _ _ hab => by rwa [List.forall₂_eq_eq_eq] at hab

end ResultRel

/-! ## Tables that answer alike -/

variable {E : ConversionError → ConversionError → Prop} {t t' : SymbolTable}

/-- Either table finds a symbol where the other one does, and the two become one reference; else the
errors are related. The packages are those of the other table. -/
structure SymbolTable.AnswersLike (E : ConversionError → ConversionError → Prop)
    (t t' : SymbolTable) : Prop where
  lookup : ∀ qualified file, ResultRel E (fun s s' => s.map Symbol.typeRef = s'.map Symbol.typeRef)
    (t.lookup qualified file) (t'.lookup qualified file)
  hasPackage : ∀ package, t.hasPackage package = t'.hasPackage package

namespace SymbolTable.AnswersLike

theorem lookupFirst (h : t.AnswersLike E t') (file : String) (names : List String) :
    ResultRel E (fun s s' => s.map Symbol.typeRef = s'.map Symbol.typeRef)
      (t.lookupFirst file names) (t'.lookupFirst file names) := by
  induction names with
  | nil => exact .ok rfl
  | cons name names ih =>
    have hname := h.lookup name file
    rw [SymbolTable.lookupFirst, SymbolTable.lookupFirst]
    generalize t.lookup name file = x at hname ⊢
    generalize t'.lookup name file = y at hname ⊢
    cases hname with
    | error he => exact .error he
    | @ok s s' hs =>
      cases s with
      | none =>
        obtain rfl : s' = none := by simpa using hs.symm
        exact ih
      | some symbol =>
        obtain ⟨symbol', rfl⟩ : ∃ symbol', s' = some symbol' := by
          cases s' with
          | none => simp at hs
          | some symbol' => exact ⟨symbol', rfl⟩
        exact .ok hs

variable {site : Site} {spelling : String}

/-- The reference that is made of the answer to a question, or what `otherwise` says without one. -/
def referenceOr (otherwise : Except ConversionError TypeRef) :
    Except ConversionError (Option Symbol) → Except ConversionError TypeRef
  | .ok (some symbol) => .ok symbol.typeRef
  | .ok none => otherwise
  | .error e => .error e

theorem referenceOr_rel {x y : Except ConversionError (Option Symbol)}
    {otherwise otherwise' : Except ConversionError TypeRef}
    (h : ResultRel E (fun s s' => s.map Symbol.typeRef = s'.map Symbol.typeRef) x y)
    (hotherwise : ResultRel E Eq otherwise otherwise') :
    ResultRel E Eq (referenceOr otherwise x) (referenceOr otherwise' y) := by
  cases h with
  | error he => exact .error he
  | @ok s s' hs =>
    cases s <;> cases s' <;> simp at hs
    · exact hotherwise
    · exact .ok hs

theorem resolveProto (h : t.AnswersLike E t') (hE : ∀ e, E e e) :
    ResultRel E Eq (site.resolveProto t spelling) (site.resolveProto t' spelling) := by
  unfold Site.resolveProto
  split
  · exact .ok rfl
  · simp only
    split
    · exact .error (hE _)
    · split
      · exact .error (hE _)
      · exact referenceOr_rel (h.lookupFirst _ _) (.error (hE _))

theorem resolveLocal (h : t.AnswersLike E t') (hE : ∀ e, E e e) (name : String) :
    ResultRel E Eq (site.resolveLocal t spelling name) (site.resolveLocal t' spelling name) :=
  referenceOr_rel (h.lookup _ _) (.refl hE _)

theorem resolveQualified (h : t.AnswersLike E t') (hE : ∀ e, E e e) (package name : String) :
    ResultRel E Eq (site.resolveQualified t spelling package name)
      (site.resolveQualified t' spelling package name) := by
  refine referenceOr_rel (h.lookup _ _) ?_
  rw [h.hasPackage]
  exact .refl hE _

theorem resolveRos (h : t.AnswersLike E t') (hE : ∀ e, E e e) :
    ResultRel E Eq (site.resolveRos t spelling) (site.resolveRos t' spelling) := by
  unfold Site.resolveRos
  split
  · exact .ok rfl
  · split
    · exact h.resolveLocal hE _
    · exact h.resolveQualified hE _ _
    · exact h.resolveQualified hE _ _
    · exact .error (hE _)

theorem resolveField (h : t.AnswersLike E t') (hE : ∀ e, E e e) (dialect : Dialect) (file : String)
    (enclosing : TypeName) (f : Field) :
    ResultRel E Eq (f.resolve t dialect file enclosing) (f.resolve t' dialect file enclosing) := by
  unfold Field.resolve
  split
  · refine ResultRel.bind (R := Eq) ?_ fun type _ htype => .ok (by rw [htype])
    cases dialect with
    | proto3 => exact h.resolveProto hE
    | ros => exact h.resolveRos hE
  · exact .ok rfl

mutual

theorem resolveMessage (h : t.AnswersLike E t') (hE : ∀ e, E e e) (dialect : Dialect)
    (file : String) : ∀ (m : Message) (scope : TypeName),
      ResultRel E Eq (m.resolve t dialect file scope) (m.resolve t' dialect file scope)
  | ⟨name, fields, nested, enums, constants, comments⟩, scope => by
    rw [Message.resolve, Message.resolve]
    refine (ResultRel.mapM_eq fun f _ => h.resolveField hE dialect file _ f).bind
      fun fields _ hfields => ?_
    refine (resolveMessages h hE dialect file nested (scope.child name)).bind
      fun nested _ hnested => .ok ?_
    rw [hfields, hnested]

theorem resolveMessages (h : t.AnswersLike E t') (hE : ∀ e, E e e) (dialect : Dialect)
    (file : String) : ∀ (ms : List Message) (scope : TypeName),
      ResultRel E Eq (Message.resolveAll t dialect file scope ms)
        (Message.resolveAll t' dialect file scope ms)
  | [], _ => .ok rfl
  | m :: ms, scope => by
    rw [Message.resolveAll, Message.resolveAll]
    refine (resolveMessage h hE dialect file m scope).bind fun m _ hm => ?_
    refine (resolveMessages h hE dialect file ms scope).bind fun ms _ hms => .ok ?_
    rw [hm, hms]

end

/-- Tables that answer alike resolve every file alike. -/
theorem resolve (h : t.AnswersLike E t') (hE : ∀ e, E e e) (s : Schema) :
    ResultRel E Eq (s.resolve t) (s.resolve t') := by
  rw [Schema.resolve, Schema.resolve]
  refine (h.resolveMessages hE s.dialect s.name s.messages _).bind fun messages _ hmessages => .ok ?_
  rw [hmessages]

end SymbolTable.AnswersLike

end SchemaBridge
