import Mathlib.Data.List.InsertIdx
import Mathlib.Data.List.Sort
import SchemaBridge.Batch
import SchemaBridge.Mapping.ToRos
import SchemaBridge.Proofs.TableAnswers

/-!
# The order of files does not matter

Tables of the same files in another order hold the same symbols in another order. A query is answered
by the only symbol of a name, by whether there is any, or by a sorted list of names, so that no answer
depends on that order: only an ambiguity lists its candidates as they come. The conversions of a file
are the same with either table (`ConversionError.SameButOrder`), and the results of a batch move with
their sources (`convert_perm`). Sources that cannot be read leave no trace in the results of the others
(`convert_insertIdx`).
-/

namespace SchemaBridge

/-! ## Errors and results -/

/-- Two errors that are the same, but for the order of the candidates of an ambiguity. -/
inductive ConversionError.SameButOrder : ConversionError → ConversionError → Prop
  | refl (e : ConversionError) : SameButOrder e e
  | ambiguous {name file : String} {candidates candidates' : List String}
      (h : candidates.Perm candidates') :
      SameButOrder (.ambiguous name file candidates) (.ambiguous name file candidates')

/-- The same value, or the same error but for the order of candidates. -/
abbrev SameResult {α : Type} : Except ConversionError α → Except ConversionError α → Prop :=
  ResultRel ConversionError.SameButOrder Eq

variable {t t' : SymbolTable} {files files' : List Schema} {s : Schema}

/-! ## Queries -/

/-- Two lists of the same names are sorted to one list. -/
theorem sortedDistinct_congr {names names' : List String} (h : ∀ x, x ∈ names ↔ x ∈ names') :
    sortedDistinct names = sortedDistinct names' :=
  (pairwise_sortedDistinct names).eq_of_mem_iff (pairwise_sortedDistinct names') fun x => by
    rw [mem_sortedDistinct, mem_sortedDistinct, h]

/-- The table `t'` holds the symbols of `t` in some order, and its packages. -/
structure SymbolTable.Reorders (t t' : SymbolTable) : Prop where
  symbols : t.symbols.Perm t'.symbols
  packages : t.packages.Perm t'.packages

theorem reorders_ofFiles (h : files.Perm files') :
    (SymbolTable.ofFiles files).Reorders (.ofFiles files') := by
  rw [SymbolTable.ofFiles_eq, SymbolTable.ofFiles_eq]
  exact ⟨h.flatMap_right _, h.map _⟩

namespace SymbolTable.Reorders

theorem named (h : t.Reorders t') (qualified : String) :
    (t.named qualified).Perm (t'.named qualified) := h.symbols.filter _

theorem lookup (h : t.Reorders t') (qualified file : String) :
    SameResult (t.lookup qualified file) (t'.lookup qualified file) := by
  have hnamed := h.named qualified
  unfold SymbolTable.lookup
  -- the lists of the symbols have one length, which decides the branch
  split
  · next hnil =>
    rw [hnil] at hnamed
    rw [hnamed.nil_eq.symm]
    exact .ok rfl
  · next symbol hone =>
    rw [hone] at hnamed
    rw [List.perm_singleton.1 hnamed.symm]
    exact .ok rfl
  · next hnil hone =>
    split
    · next hnil' => exact absurd (hnil' ▸ hnamed).eq_nil hnil
    · next symbol hone' => exact absurd (List.perm_singleton.1 (hone' ▸ hnamed)) (hone symbol)
    · exact .error (.ambiguous (hnamed.map _))

theorem hasPackage (h : t.Reorders t') (package : List String) :
    t.hasPackage package = t'.hasPackage package := by
  have hmem := h.packages.mem_iff (a := package)
  unfold SymbolTable.hasPackage
  rw [Bool.eq_iff_iff, List.contains_iff_mem, List.contains_iff_mem, hmem]

theorem collisions (h : t.Reorders t') : t.collisions = t'.collisions := by
  funext name
  have hflattened : t.flattenedTo name = t'.flattenedTo name :=
    sortedDistinct_congr fun x => ((h.symbols.filter _).map _).mem_iff
  rw [SymbolTable.collisions, SymbolTable.collisions, hflattened]

theorem enumDef? (h : t.Reorders t') : t.enumDef? = t'.enumDef? := by
  funext name
  have hnamed := h.named name.qualified
  unfold SymbolTable.enumDef?
  split
  · next symbol hone =>
    rw [hone] at hnamed
    rw [List.perm_singleton.1 hnamed.symm]
  · next hone =>
    split
    · next symbol hone' => exact absurd (List.perm_singleton.1 (hone' ▸ hnamed)) (hone symbol)
    · rfl

theorem answersLike (h : t.Reorders t') : t.AnswersLike ConversionError.SameButOrder t' where
  lookup qualified file := (h.lookup qualified file).imp fun _ _ heq => by rw [heq]
  hasPackage := h.hasPackage

/-! ## Conversions -/

theorem resolve (h : t.Reorders t') (s : Schema) : SameResult (s.resolve t) (s.resolve t') :=
  h.answersLike.resolve .refl s

theorem toProto (h : t.Reorders t') (s : Schema) : SameResult (s.toProto t) (s.toProto t') := by
  rw [Schema.toProto, Schema.toProto]
  refine (h.resolve s).bind fun r _ hr => ?_
  subst hr
  exact .ok rfl

theorem toRos (h : t.Reorders t') (repr : EnumRepr) (s : Schema) :
    SameResult (s.toRos t repr) (s.toRos t' repr) := by
  -- once the references are resolved, the table is asked for collisions and enums only
  have hcollision : collisionError? t = collisionError? t' := by
    funext file name
    rw [collisionError?, collisionError?, h.collisions]
  have hflatten : flattenError? t = flattenError? t' := by
    funext file flat
    simp only [flattenError?, hcollision]
  have hfield : Field.rosType t = Field.rosType t' := by
    funext repr file message f
    simp only [Field.rosType, hcollision, h.enumDef?]
  have hmessage : Message.toRos t = Message.toRos t' := by
    funext repr file m
    simp only [Message.toRos, hfield]
  rw [Schema.toRos, Schema.toRos]
  refine (h.resolve s).bind fun r _ hr => ?_
  subst hr
  simp only [hflatten, hmessage]
  exact .refl .refl _

end SymbolTable.Reorders

/-! ## Batches -/

namespace Batch

variable {sources sources' : List Source} {source : Source} {package : Option String}

/-- Two results for one source. -/
structure Result.Same (r r' : Result) : Prop where
  source : r.source = r'.source
  output : SameResult r.output r'.output

theorem output_same (h : t.Reorders t') (s : Schema) : SameResult (output t s) (output t' s) := by
  rw [output, output]
  refine (h.toProto s).bind fun conversion _ hconversion => ?_
  subst hconversion
  exact .refl .refl _

theorem schemas_perm (h : sources.Perm sources') :
    (schemas package sources).Perm (schemas package sources') := h.filterMap _

/-- A source has the same result in whatever order the sources come. -/
theorem convert_perm (h : sources.Perm sources') {i j : Nat} (hij : sources[i]? = sources'[j]?) :
    Option.Rel Result.Same (convert sources package)[i]? (convert sources' package)[j]? := by
  have hschemas : (schemas package sources).Perm (schemas package sources') := schemas_perm h
  have ht := reorders_ofFiles hschemas
  simp only [convert, List.getElem?_map, hij]
  cases sources'[j]? with
  | none => exact .none
  | some source =>
    refine .some ⟨rfl, ?_⟩
    exact (ResultRel.refl .refl (source.schema package)).bind fun s _ hs => hs ▸ output_same ht s

/-- A source that cannot be read has an error for a result and changes no other result. -/
theorem convert_insertIdx {e : ConversionError} (h : source.schema package = .error e) (i : Nat) :
    convert (sources.insertIdx i source) package =
      (convert sources package).insertIdx i ⟨source.path, .error e⟩ := by
  have hschemas : schemas package (sources.insertIdx i source) = schemas package sources := by
    induction sources generalizing i with
    | nil => cases i <;> simp [schemas, h, Except.toOption]
    | cons other sources ih =>
      cases i with
      | zero => simp [schemas, h, Except.toOption]
      | succ i =>
        have := ih i
        simp only [schemas] at this ⊢
        rw [List.insertIdx_succ_cons, List.filterMap_cons, List.filterMap_cons, this]
  simp only [convert, hschemas, List.map_insertIdx, h]
  rfl

/-- The order of the files changes no answer of their table and no conversion with it, but for the order
in which an ambiguity lists its candidates; the order of the sources changes no result of a batch; and a
source that cannot be read, wherever it stands, changes no result of another one. -/
theorem sameResults_of_perm :
    (∀ {files files' : List Schema}, files.Perm files' →
      (∀ qualified file, SameResult ((SymbolTable.ofFiles files).lookup qualified file)
          ((SymbolTable.ofFiles files').lookup qualified file)) ∧
        (∀ n, (SymbolTable.ofFiles files).collisions n = (SymbolTable.ofFiles files').collisions n) ∧
        (∀ p, (SymbolTable.ofFiles files).hasPackage p = (SymbolTable.ofFiles files').hasPackage p) ∧
        (∀ n, (SymbolTable.ofFiles files).enumDef? n = (SymbolTable.ofFiles files').enumDef? n) ∧
        ∀ s : Schema, SameResult (s.resolve (.ofFiles files)) (s.resolve (.ofFiles files')) ∧
          (∀ repr, SameResult (s.toRos (.ofFiles files) repr) (s.toRos (.ofFiles files') repr)) ∧
          SameResult (s.toProto (.ofFiles files)) (s.toProto (.ofFiles files'))) ∧
      (∀ {sources sources' : List Source}, sources.Perm sources' →
        ∀ package (i j : Nat), sources[i]? = sources'[j]? →
          Option.Rel Result.Same (convert sources package)[i]? (convert sources' package)[j]?) ∧
      ∀ {source : Source} {e : ParseError}, RosText.parse source.text source.path = .error e →
        ∀ sources package i, convert (sources.insertIdx i source) package =
          (convert sources package).insertIdx i ⟨source.path, .error (.parse e)⟩ := by
  refine ⟨fun {files files'} hfiles => ?_, fun hsources package i j hij => convert_perm hsources hij,
    fun {source e} hfails sources package i => convert_insertIdx ?_ i⟩
  · have ht := reorders_ofFiles hfiles
    refine ⟨ht.lookup, congrFun ht.collisions, ht.hasPackage, congrFun ht.enumDef?, fun s => ?_⟩
    exact ⟨ht.resolve s, fun repr => ht.toRos repr s, ht.toProto s⟩
  · simp only [Source.schema, hfails]

/-! ## Two files that declare one message -/

/-- Two files that declare one message, and a file that refers to it. -/
def twinSources : List Source :=
  [{ path := "a/p/Twin.msg", text := "int32 x\n" }, { path := "b/p/Twin.msg", text := "int32 y\n" },
   { path := "p/User.msg", text := "Twin twin\n" }]

/-- A source that is no message: its only line has no name. -/
def brokenSource : Source := { path := "p/Broken.msg", text := "int32\n" }

/-- In either order the message is ambiguous and the results are the same; the source that is no message
fails alone. -/
theorem sameResults_twinSources :
    let files := schemas none twinSources
    let e : ParseError := ⟨"p/Broken.msg", 1, 6, "int32", .line .noDeclaration⟩
    (SymbolTable.ofFiles files).lookup "p.Twin" "p/User.msg" =
        .error (.ambiguous "p.Twin" "p/User.msg" ["a/p/Twin.msg", "b/p/Twin.msg"]) ∧
      SameResult ((SymbolTable.ofFiles files).lookup "p.Twin" "p/User.msg")
        ((SymbolTable.ofFiles files.reverse).lookup "p.Twin" "p/User.msg") ∧
      Option.Rel Result.Same (convert twinSources none)[2]? (convert twinSources.reverse none)[0]? ∧
      RosText.parse brokenSource.text brokenSource.path = .error e ∧
      convert (twinSources.insertIdx 1 brokenSource) none =
        (convert twinSources none).insertIdx 1 ⟨"p/Broken.msg", .error (.parse e)⟩ := by
  intro files e
  have hfails : RosText.parse brokenSource.text brokenSource.path = .error e := by rfl
  obtain ⟨hanswers, hresults, hinsert⟩ := sameResults_of_perm
  obtain ⟨hlookup, -⟩ := hanswers (List.reverse_perm files).symm
  exact ⟨by decide +kernel, hlookup _ _, hresults (List.reverse_perm twinSources).symm none 2 0 rfl,
    hfails, hinsert hfails twinSources none 1⟩

end Batch

end SchemaBridge
