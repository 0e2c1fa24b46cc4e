import Siesta.IR.DependencyGraph

/-!
# The names in a type text

`Writes text n` says that the name `n` stands in the C++ type `text`, by itself or as the element of
a vector or the value of a map.  The texts the parser builds have at most one container
(`TypeText`), and `buildDependencies` reads the name out of each of them, so a type has an edge to
every name of the AST that its references write (`dependsOn_of_writes`).
-/

namespace Siesta

open Lib DependencyGraph

/-- The name `n` stands in the type `text`. -/
inductive Writes : Str → Str → Prop
  | name (n : Str) : Writes n n
  | element {x n : Str} (h : Writes x n) : Writes (vectorOf x) n
  | value {x n : Str} (h : Writes x n) : Writes (mapOf x) n

/-- A text without a container: no name stands in it but itself. -/
def Bare (x : Str) : Prop := ¬ vectorPrefix <+: x ∧ ¬ mapPrefix <+: x

def LeafText (ast : NormalizedAST) (x : Str) : Prop := x ∈ ast ∨ x ∈ primitiveCppTypes

/-- A leaf, or one vector or map over a leaf; the parser never leaves the element empty
(`cppTypeFromTypeRef`). -/
inductive TypeText (L : Str → Prop) : Str → Prop
  | leaf {x : Str} (h : L x) : TypeText L x
  | vector {x : Str} (h : L x) (hne : x ≠ []) : TypeText L (vectorOf x)
  | map {x : Str} (h : L x) (hne : x ≠ []) : TypeText L (mapOf x)

/-! ### Texts of containers -/

theorem vectorPrefix_vectorOf (x : Str) : vectorPrefix <+: vectorOf x := by
  rw [vectorOf, List.append_assoc]
  exact List.prefix_append _ _

theorem mapPrefix_mapOf (x : Str) : mapPrefix <+: mapOf x := by
  rw [mapOf, List.append_assoc]
  exact List.prefix_append _ _

theorem not_vectorPrefix_mapOf (x : Str) : ¬ vectorPrefix <+: mapOf x := by
  intro h
  have hlen := h.length_le
  have htake := List.prefix_iff_eq_take.mp h
  have : (mapOf x).take vectorPrefix.length = mapPrefix.take vectorPrefix.length := by
    rw [mapOf, List.append_assoc, List.take_append_of_le_length (by decide)]
  rw [this] at htake
  exact absurd htake (by decide)

@[simp] theorem elementText_vectorOf (x : Str) : elementText (vectorOf x) = x := by
  have hdrop : (vectorOf x).drop 12 = x ++ ['>'] := by
    rw [vectorOf, List.append_assoc, show (12 : ℕ) = vectorPrefix.length from rfl, List.drop_left]
  rw [elementText, hdrop, List.dropLast_concat]

@[simp] theorem valueText_mapOf (x : Str) : valueText (mapOf x) = x := by
  have hdrop : (mapOf x).drop 22 = x ++ ['>'] := by
    rw [mapOf, List.append_assoc, show (22 : ℕ) = mapPrefix.length from rfl, List.drop_left]
  rw [valueText, hdrop, List.dropLast_concat]

theorem vectorOf_injective {x y : Str} (h : vectorOf x = vectorOf y) : x = y := by
  have := congrArg elementText h
  simpa using this

theorem mapOf_injective {x y : Str} (h : mapOf x = mapOf y) : x = y := by
  have := congrArg valueText h
  simpa using this

theorem vectorOf_ne_mapOf (x y : Str) : vectorOf x ≠ mapOf y := fun h =>
  not_vectorPrefix_mapOf y (h ▸ vectorPrefix_vectorOf x)

theorem writes_bare {x n : Str} (hx : Bare x) (h : Writes x n) : n = x := by
  cases h with
  | name => rfl
  | element => exact absurd (vectorPrefix_vectorOf _) hx.1
  | value => exact absurd (mapPrefix_mapOf _) hx.2

theorem writes_vectorOf {x n : Str} : Writes (vectorOf x) n ↔ n = vectorOf x ∨ Writes x n := by
  constructor
  · intro h
    generalize ht : vectorOf x = t at h
    cases h with
    | name => exact .inl rfl
    | element h => exact .inr (vectorOf_injective ht ▸ h)
    | value h => exact absurd ht (vectorOf_ne_mapOf _ _)
  · rintro (rfl | h)
    · exact .name _
    · exact .element h

theorem writes_mapOf {x n : Str} : Writes (mapOf x) n ↔ n = mapOf x ∨ Writes x n := by
  constructor
  · intro h
    generalize ht : mapOf x = t at h
    cases h with
    | name => exact .inl rfl
    | element h => exact absurd ht.symm (vectorOf_ne_mapOf _ _)
    | value h => exact .inr (mapOf_injective ht ▸ h)
  · rintro (rfl | h)
    · exact .name _
    · exact .value h

/-! ### Names of the AST -/

theorem bare_of_colon_notMem {x : Str} (h : ':' ∉ x) : Bare x := by
  constructor
  · intro hp
    exact h (hp.subset (by decide))
  · intro hp
    exact h (hp.subset (by decide))

section

variable {ast : NormalizedAST} (hsan : ast.Sanitized)

include hsan

theorem NormalizedAST.Sanitized.colon_notMem {n : Str} (hn : n ∈ ast) : ':' ∉ n := by
  obtain ⟨s, rfl⟩ := hsan n hn
  exact colon_notMem_sanitize s

theorem NormalizedAST.Sanitized.not_synthetic {n : Str} (hn : n ∈ ast) :
    isSyntheticCppType n = false := by
  obtain ⟨s, rfl⟩ := hsan n hn
  exact isSyntheticCppType_sanitize s

theorem bare_of_leafText {x : Str} (h : LeafText ast x) : Bare x := by
  rcases h with h | h
  · exact bare_of_colon_notMem (hsan.colon_notMem h)
  · have hall : ∀ p ∈ primitiveCppTypes, Bare p := by
      have hdec : ∀ p ∈ primitiveCppTypes, ¬ vectorPrefix <+: p ∧ ¬ mapPrefix <+: p := by decide
      exact hdec
    exact hall x h

theorem vectorOf_notMem (x : Str) : vectorOf x ∉ ast := fun h =>
  hsan.colon_notMem h ((vectorPrefix_vectorOf x).subset (by decide))

theorem mapOf_notMem (x : Str) : mapOf x ∉ ast := fun h =>
  hsan.colon_notMem h ((mapPrefix_mapOf x).subset (by decide))

end

theorem isSynthetic_vectorOf (x : Str) : isSyntheticCppType (vectorOf x) = true := by
  have h : "std::".toList <+: vectorOf x :=
    List.IsPrefix.trans (by decide : "std::".toList <+: vectorPrefix) (vectorPrefix_vectorOf x)
  rw [isSyntheticCppType, List.isPrefixOf_iff_prefix.mpr h, Bool.true_or]

theorem isSynthetic_mapOf (x : Str) : isSyntheticCppType (mapOf x) = true := by
  have h : "std::".toList <+: mapOf x :=
    List.IsPrefix.trans (by decide : "std::".toList <+: mapPrefix) (mapPrefix_mapOf x)
  rw [isSyntheticCppType, List.isPrefixOf_iff_prefix.mpr h, Bool.true_or]

theorem isPrefixOf_vectorOf (x : Str) :
    isSyntheticCppType (vectorOf x) = true ∧ vectorPrefix.isPrefixOf (vectorOf x) = true :=
  ⟨isSynthetic_vectorOf x, List.isPrefixOf_iff_prefix.mpr (vectorPrefix_vectorOf x)⟩

theorem isPrefixOf_mapOf (x : Str) :
    isSyntheticCppType (mapOf x) = true ∧ vectorPrefix.isPrefixOf (mapOf x) = false ∧
      mapPrefix.isPrefixOf (mapOf x) = true := by
  refine ⟨isSynthetic_mapOf x, ?_, List.isPrefixOf_iff_prefix.mpr (mapPrefix_mapOf x)⟩
  rw [← Bool.not_eq_true, List.isPrefixOf_iff_prefix]
  exact not_vectorPrefix_mapOf x

/-! ### The edges of a type -/

/-- The references of a type have the shapes the parser builds, over the leaves `L`. -/
def ShapedType (L : Str → Prop) : SchemaType → Prop
  | .struct t =>
    (∀ field ∈ t.fields, TypeText L field.type.name) ∧ ∀ base ∈ t.allOf_bases, L base.name
  | .variant t => ∀ alt ∈ t.alternatives, TypeText L alt.name
  | .array t => L t.element_type.name
  | .map t => L t.value_type.name
  | .enum _ => True
  | .primitive _ => True

section

variable {ast : NormalizedAST} (hsan : ast.Sanitized) {L : Str → Prop} (hL : ∀ x, L x → Bare x)
  {m : Str} (hm : m ∈ ast)

include hsan hL hm

/-- The ways a name of the AST stands in a text of the parser. -/
theorem writes_typeText {x : Str} (hx : TypeText L x) (h : Writes x m) :
    x = m ∨ (x = vectorOf m ∧ m ≠ []) ∨ (x = mapOf m ∧ m ≠ []) := by
  cases hx with
  | leaf hl => exact .inl (writes_bare (hL x hl) h).symm
  | vector hl hne =>
    rcases writes_vectorOf.mp h with rfl | h
    · exact absurd hm (vectorOf_notMem hsan _)
    · obtain rfl := writes_bare (hL _ hl) h
      exact .inr (.inl ⟨rfl, hne⟩)
  | map hl hne =>
    rcases writes_mapOf.mp h with rfl | h
    · exact absurd hm (mapOf_notMem hsan _)
    · obtain rfl := writes_bare (hL _ hl) h
      exact .inr (.inr ⟨rfl, hne⟩)

theorem exists_fieldDependency {type : TypeRef} (hx : TypeText L type.name)
    (h : Writes type.name m) : ∃ e, fieldDependency type = some e ∧ e.1.name = m := by
  have hsyn := hsan.not_synthetic hm
  unfold fieldDependency
  rcases writes_typeText hsan hL hm hx h with h | ⟨h, -⟩ | ⟨h, -⟩
  · exact ⟨(type, .Value), by simp [h, hsyn], h⟩
  · exact ⟨(⟨m, false⟩, .ArrayElem), by simp [h, hsyn, isPrefixOf_vectorOf], rfl⟩
  · exact ⟨(⟨m, false⟩, .MapValue), by simp [h, hsyn, isPrefixOf_mapOf], rfl⟩

theorem exists_alternativeDependency {alt : TypeRef} (hx : TypeText L alt.name)
    (h : Writes alt.name m) : ∃ e, alternativeDependency alt = some e ∧ e.1.name = m := by
  have hsyn := hsan.not_synthetic hm
  unfold alternativeDependency
  rcases writes_typeText hsan hL hm hx h with h | ⟨h, hne⟩ | ⟨h, hne⟩
  · exact ⟨(alt, .Variant), by simp [h, hsyn], h⟩
  · exact ⟨(⟨m, false⟩, .Variant), by simp [h, hsyn, hne, isPrefixOf_vectorOf], rfl⟩
  · exact ⟨(⟨m, false⟩, .Variant), by simp [h, hsyn, hne, isPrefixOf_mapOf], rfl⟩

theorem exists_plainDependency {kind : DepKind} {ref : TypeRef} (hx : L ref.name)
    (h : Writes ref.name m) : ∃ e, plainDependency kind ref = some e ∧ e.1.name = m := by
  have hname : ref.name = m := (writes_bare (hL _ hx) h).symm
  exact ⟨(ref, kind), by simp [plainDependency, hname, hsan.not_synthetic hm], hname⟩

/-- **Every name a type writes is an edge.** -/
theorem dependsOn_of_writes {ho : HashOrders} {name : Str} {type : SchemaType}
    (ht : ast.getType name = some type) (hshape : ShapedType L type) {ref : TypeRef}
    (href : ref ∈ type.refs) (hw : Writes ref.name m) :
    (DependencyGraph.buildFromAST ho ast).DependsOn name m := by
  have hedge : ∃ e ∈ DependencyGraph.dependenciesOf type, e.1.name = m := by
    cases type with
    | struct t =>
      rcases List.mem_append.mp href with href | href
      · obtain ⟨field, hfield, rfl⟩ := List.mem_map.mp href
        obtain ⟨e, he, hname⟩ := exists_fieldDependency hsan hL hm (hshape.1 field hfield) hw
        exact ⟨e, List.mem_append_left _ (List.mem_filterMap.mpr ⟨field, hfield, he⟩), hname⟩
      · obtain ⟨e, he, hname⟩ := exists_plainDependency hsan hL hm (hshape.2 ref href) hw
        exact ⟨e, List.mem_append_right _ (List.mem_filterMap.mpr ⟨ref, href, he⟩), hname⟩
    | variant t =>
      obtain ⟨e, he, hname⟩ := exists_alternativeDependency hsan hL hm (hshape ref href) hw
      exact ⟨e, List.mem_filterMap.mpr ⟨ref, href, he⟩, hname⟩
    | array t =>
      obtain rfl := List.mem_singleton.mp href
      obtain ⟨e, he, hname⟩ := exists_plainDependency hsan hL hm hshape hw
      exact ⟨e, List.mem_filterMap.mpr ⟨_, List.mem_singleton_self _, he⟩, hname⟩
    | map t =>
      obtain rfl := List.mem_singleton.mp href
      obtain ⟨e, he, hname⟩ := exists_plainDependency hsan hL hm hshape hw
      exact ⟨e, List.mem_filterMap.mpr ⟨_, List.mem_singleton_self _, he⟩, hname⟩
    | enum t => simp [SchemaType.refs] at href
    | primitive t => simp [SchemaType.refs] at href
  obtain ⟨e, he, rfl⟩ := hedge
  exact DependencyGraph.dependsOn_of_mem ht he

end

end Siesta
