import Siesta.Frontend.NameFree

/-!
# The alternatives of a variant

`buildVariant` goes through the alternatives of a schema, and takes over the alternatives of every inline
one that has alternatives itself.  The tree of the alternatives is read off the document; the variant has
one reference for each of its leaves, from left to right (`flattens`).
-/

namespace Siesta

open Lib JsonObject

/-! ### Trees of alternatives -/

/-- The alternatives of a schema, and theirs. -/
inductive AlternativeTree where
  /-- A `$ref` that ends in a slash and this name. -/
  | ref (target : Str)
  /-- An inline schema without alternatives. -/
  | leaf (schema : JsonObject)
  | node (children : List AlternativeTree)

/-- A leaf, with what a struct of it is named by: the name of the variant it stands in, and the number of
leaves before it there. -/
inductive Leaf where
  | ref (target : Str)
  | inline (name : Str) (index : ℕ) (schema : JsonObject)

mutual

/-- The leaves from left to right, in a variant of that name that has `index` alternatives already. -/
def AlternativeTree.leaves : AlternativeTree → (name : Str) → (index : ℕ) → List Leaf
  | .ref target, _, _ => [.ref target]
  | .leaf schema, name, index => [.inline name index schema]
  | .node children, name, _ => leavesOf children (name ++ "_inline".toList) 0

def leavesOf : List AlternativeTree → (name : Str) → (index : ℕ) → List Leaf
  | [], _, _ => []
  | t :: trees, name, index =>
    t.leaves name index ++ leavesOf trees name (index + (t.leaves name index).length)

end

section

variable (ir : InvalidRead)

mutual

/-- The alternative in the document is this tree. -/
def IsTree : Json → AlternativeTree → Prop
  | item, .ref target => ∃ u path, ofElement item = .ok u ∧ ref ir u = .ok (path ++ '/' :: target) ∧
      '/' ∉ target ∧ target ≠ []
  | item, .leaf schema => ofElement item = .ok schema ∧ isRef ir schema = .ok false ∧
      ∀ alternatives, HasAlternatives ir schema alternatives → alternatives = []
  | item, .node children => ∃ u alternatives, ofElement item = .ok u ∧ isRef ir u = .ok false ∧
      HasAlternatives ir u alternatives ∧ alternatives ≠ [] ∧ AreTrees alternatives children

def AreTrees : List Json → List AlternativeTree → Prop
  | items, [] => items = []
  | items, t :: trees => ∃ item rest, items = item :: rest ∧ IsTree item t ∧ AreTrees rest trees

end

/-- `parseSchema` returns this type for the schema of an alternative in the variant of that name. -/
def ParsesInline (schema : JsonObject) (name : Str) (type : SchemaType) : Prop :=
  ∃ fuel s s', parseSchemaUpTo ir fuel schema (name ++ "_inline".toList) s = .ok type s'

/-- The reference for a leaf, by the kind of its type. -/
inductive LeafRef : Leaf → TypeRef → Prop
  | ref {target : Str} : LeafRef (.ref target) ⟨sanitize target, false⟩
  | primitive {name : Str} {index : ℕ} {schema : JsonObject} {t : PrimitiveType}
      (h : ParsesInline ir schema name (.primitive t)) :
      LeafRef (.inline name index schema) ⟨primitiveToCpp t.kind t.int_format t.num_format, true⟩
  | array {name : Str} {index : ℕ} {schema : JsonObject} {t : ArrayType}
      (h : ParsesInline ir schema name (.array t)) :
      LeafRef (.inline name index schema) ⟨vectorOf (cppTypeFromTypeRef t.element_type), true⟩
  | struct {name : Str} {index : ℕ} {schema : JsonObject} {t : StructType}
      (h : ParsesInline ir schema name (.struct t)) :
      LeafRef (.inline name index schema) ⟨sanitize (name ++ "_alt_".toList ++ (toString index).toList), true⟩

end

/-! ### One schema -/

section

variable {ir : InvalidRead} {parseInner : JsonObject → Str → ParseM SchemaType} {v : JsonObject}

theorem parseSchemaBody_alternatives {alternatives : List Json} {name : Str} {P : SchemaType → Prop}
    (hvariant : HasAlternatives ir v alternatives) (hsome : alternatives ≠ [])
    (hbuild : ∀ desc, SameEffect (buildVariant ir parseInner alternatives name desc)
      (buildVariant ir parseInner alternatives name desc) fun a _ => P a) :
    SameEffect (parseSchemaBody ir parseInner v name) (parseSchemaBody ir parseInner v name) fun a _ => P a := by
  have hbool : (!alternatives.isEmpty) = true := by simpa using hsome
  refine .effect_read fun type htype => ?_
  have hlist : ∀ one, oneOf ir v = .ok one → (one = alternatives ∨ one = [] ∧ anyOf ir v = .ok alternatives) := by
    intro one hone
    rcases hvariant.list with h | ⟨h, hany⟩
    · exact .inl (Except.ok.inj (hone.symm.trans h))
    · exact .inr ⟨Except.ok.inj (hone.symm.trans h), hany⟩
  rcases hvariant.kind with hkind | hkind
  · obtain rfl := Except.ok.inj (htype.symm.trans hkind)
    refine .effect_read fun desc _ => .effect_read fun one hone => .effect_read fun any hany => ?_
    rcases hlist one hone with rfl | ⟨rfl, hany'⟩
    · simp only [hbool, Bool.true_or, if_true]
      exact hbuild desc
    · obtain rfl := Except.ok.inj (hany.symm.trans hany')
      simp only [hbool, Bool.or_true, if_true, List.isEmpty_nil, Bool.not_true, Bool.false_eq_true, if_false]
      exact hbuild desc
  · obtain rfl := Except.ok.inj (htype.symm.trans hkind)
    refine .effect_read fun desc _ => .effect_read fun one hone => ?_
    rcases hlist one hone with rfl | ⟨rfl, hany'⟩
    · simp only [hbool, if_true]
      exact hbuild desc
    · simp only [List.isEmpty_nil, Bool.not_true, Bool.false_eq_true, if_false]
      refine .effect_read fun any hany => ?_
      obtain rfl := Except.ok.inj (hany.symm.trans hany')
      simp only [hbool, if_true]
      exact hbuild desc

/-- The kinds of types without alternatives. -/
def SchemaType.IsSingle (type : SchemaType) : Prop :=
  (∃ t, type = .primitive t) ∨ (∃ t, type = .array t) ∨ ∃ t, type = .struct t

theorem parseSchemaBody_single {name : Str}
    (hleaf : ∀ alternatives, HasAlternatives ir v alternatives → alternatives = []) :
    SameEffect (parseSchemaBody ir parseInner v name) (parseSchemaBody ir parseInner v name)
      fun a _ => a.IsSingle := by
  have hempty : ∀ {l : List Json}, HasAlternatives ir v l → ¬ (!l.isEmpty) = true := fun h => by
    simp [hleaf _ h]
  have hprimitive : SameEffect (liftM (parsePrimitiveSchema ir v) : ParseM SchemaType)
      (liftM (parsePrimitiveSchema ir v) : ParseM SchemaType) fun a _ => a.IsSingle := by
    rintro s t rfl
    cases hread : parsePrimitiveSchema ir v with
    | error fault => exact ⟨rfl, rfl⟩
    | ok type => exact ⟨rfl, .inl (parsePrimitiveSchema_primitive hread)⟩
  refine .effect_read fun type htype => ?_
  cases type with
  | object =>
    refine .effect_read fun desc _ => .effect_read fun oneOf hone => .effect_read fun anyOf hany => ?_
    have hno : oneOf = [] := hleaf _ ⟨.inl htype, .inl hone⟩
    subst hno
    have hno' : anyOf = [] := hleaf _ ⟨.inl htype, .inr ⟨hone, hany⟩⟩
    subst hno'
    refine .effect_read fun allOf _ => .effect_read fun bases _ => .effect_read fun props _ => ?_
    exact (sameEffect_refl _).bind fun _ _ _ => .pure (.inr (.inr ⟨_, rfl⟩))
  | unknown =>
    refine .effect_read fun desc _ => .effect_read fun oneOf hone => ?_
    have hno : oneOf = [] := hleaf _ ⟨.inr htype, .inl hone⟩
    subst hno
    refine .effect_read fun anyOf hany => ?_
    rw [if_neg (hempty ⟨.inr htype, .inr ⟨hone, hany⟩⟩)]
    refine .effect_read fun p hp => .effect_read fun a ha => .effect_read fun m hm => ?_
    split
    · refine .effect_read fun desc _ => .effect_read fun allOf _ => (sameEffect_refl _).bind fun _ _ _ => ?_
      refine .effect_read fun props _ => (sameEffect_refl _).bind fun _ _ _ => .pure (.inr (.inr ⟨_, rfl⟩))
    · exact .pure (.inl ⟨_, rfl⟩)
  | array =>
    refine .effect_read fun description _ => .effect_read fun items _ => .effect_read fun r _ => ?_
    split
    · exact .effect_read fun _ _ => .pure (.inr (.inl ⟨_, rfl⟩))
    · refine (sameEffect_refl _).bind fun s s' hs => ?_
      subst hs
      refine (sameEffect_refl _).bind fun t t' ht => ?_
      subst ht
      exact (sameEffect_refl _).bind fun _ _ _ => .pure (.inr (.inl ⟨_, rfl⟩))
  | null => exact .effect_read fun description _ => .pure (.inl ⟨_, rfl⟩)
  | string => exact hprimitive
  | number => exact hprimitive
  | integer => exact hprimitive
  | boolean => exact hprimitive

theorem inlineAlternatives_single {name : Str} {index : ℕ} {schema : JsonObject} {type : SchemaType}
    (hsingle : type.IsSingle) (hparsed : ParsesInline ir schema name type) :
    SameEffect (inlineAlternatives name index type) (inlineAlternatives name index type) fun refs _ =>
      List.Forall₂ (LeafRef ir) [.inline name index schema] refs := by
  rcases hsingle with ⟨t, rfl⟩ | ⟨t, rfl⟩ | ⟨t, rfl⟩
  · exact .pure (.cons (.primitive hparsed) .nil)
  · exact .pure (.cons (.array hparsed) .nil)
  · have hname : sanitize (name ++ "_alt_".toList ++ (toString index).toList) ≠ [] :=
      sanitize_ne_nil (by simp)
    have hstored : SameEffect (addInlineStruct (name ++ "_alt_".toList ++ (toString index).toList) t)
        (addInlineStruct (name ++ "_alt_".toList ++ (toString index).toList) t)
        fun n _ => n = sanitize (name ++ "_alt_".toList ++ (toString index).toList) := by
      rintro s t' rfl
      unfold addInlineStruct
      by_cases hmem : sanitize (name ++ "_alt_".toList ++ (toString index).toList) ∈ s.added_types
      · simp only [hmem, if_true, and_self]
      · simp only [hmem, if_false, and_self]
    refine hstored.bind fun n n' hn => .pure ?_
    subst hn
    rw [if_neg (by simpa using hname)]
    exact .cons (.struct hparsed) .nil

/-- A `$ref` that ends in a slash and a name is a reference to the type of that name. -/
theorem extractTypeRef_named {u : JsonObject} {path target : Str}
    (href : JsonObject.ref ir u = .ok (path ++ '/' :: target)) (hslash : '/' ∉ target) :
    extractTypeRef ir u = .ok ⟨sanitize target, false⟩ := by
  have hlast : afterLast '/' (path ++ '/' :: target) = some target := afterLast_eq_some.mpr ⟨path, rfl, hslash⟩
  unfold extractTypeRef isRef
  simp only [href, bind, Except.bind, pure, Except.pure, refTarget, hlast]
  simp

end

theorem extractTypeRef_inline {u : JsonObject} {ref : TypeRef} (hinline : isRef ir u = .ok false)
    (href : extractTypeRef ir u = .ok ref) : ref = {} := by
  unfold extractTypeRef at href
  rw [hinline] at href
  exact (Except.ok.inj href).symm

theorem parseSchemaUpTo_single {u : JsonObject}
    (hleaf : ∀ alternatives, HasAlternatives ir u alternatives → alternatives = []) (fuel : ℕ) (name : Str) :
    SameEffect (parseSchemaUpTo ir fuel u name) (parseSchemaUpTo ir fuel u name) fun a _ => a.IsSingle := by
  cases fuel with
  | zero => exact .throw
  | succ fuel => exact parseSchemaBody_single hleaf

/-! ### The loop -/

section

variable {ir : InvalidRead}

/-- Behind the alternatives there are, the references for some leaves. -/
def Adds (ir : InvalidRead) (alternatives : List TypeRef) (leaves : List Leaf) (refs : List TypeRef) : Prop :=
  ∃ added, refs = alternatives ++ added ∧ List.Forall₂ (LeafRef ir) leaves added

mutual

theorem parseAlternative_leaves : ∀ (tree : AlternativeTree) {item : Json}, IsTree ir item tree →
    ∀ (fuel : ℕ) (name : Str) (alternatives : List TypeRef),
      SameEffect (parseAlternative ir (parseSchemaUpTo ir fuel) name alternatives item)
        (parseAlternative ir (parseSchemaUpTo ir fuel) name alternatives item)
        fun refs _ => Adds ir alternatives (tree.leaves name alternatives.length) refs
  | .ref target, item, ⟨u, path, hu, href, hslash, hne⟩, fuel, name, alternatives => by
    refine .effect_read fun u' hu' => .effect_read fun ref href' => ?_
    obtain rfl := Except.ok.inj (hu'.symm.trans hu)
    obtain rfl := Except.ok.inj (href'.symm.trans (extractTypeRef_named href hslash))
    have hname : (!(sanitize target).isEmpty) = true := by simpa using sanitize_ne_nil hne
    rw [if_pos hname]
    exact .pure ⟨_, rfl, .cons .ref .nil⟩
  | .leaf schema, item, ⟨hu, hinline, hleaf⟩, fuel, name, alternatives => by
    refine .effect_read fun u' hu' => .effect_read fun ref href' => ?_
    obtain rfl := Except.ok.inj (hu'.symm.trans hu)
    obtain rfl := extractTypeRef_inline hinline href'
    have hparsed := (sameEffect_refl (parseSchemaUpTo ir fuel u' (name ++ "_inline".toList))).and
      ((sameEffect_run _).and (parseSchemaUpTo_single hleaf fuel (name ++ "_inline".toList)))
    refine hparsed.bind fun type type' htype => ?_
    obtain ⟨rfl, ⟨s, s', hrun⟩, hsingle⟩ := htype
    exact (inlineAlternatives_single hsingle ⟨fuel, s, s', hrun⟩).bind fun added _ hadded =>
      .pure ⟨added, rfl, hadded⟩
  | .node children, item, ⟨u, items, hu, hinline, hvariant, hsome, hchildren⟩, fuel, name, alternatives => by
    refine .effect_read fun u' hu' => .effect_read fun ref href' => ?_
    obtain rfl := Except.ok.inj (hu'.symm.trans hu)
    obtain rfl := extractTypeRef_inline hinline href'
    have hparsed : SameEffect (parseSchemaUpTo ir fuel u' (name ++ "_inline".toList))
        (parseSchemaUpTo ir fuel u' (name ++ "_inline".toList)) fun type type' => type = type' ∧
          ∃ v, type = .variant v ∧ List.Forall₂ (LeafRef ir) (leavesOf children (name ++ "_inline".toList) 0)
            v.alternatives := by
      cases fuel with
      | zero => exact .throw
      | succ fuel =>
        refine (sameEffect_refl _).and (parseSchemaBody_alternatives hvariant hsome fun desc => ?_)
        refine (foldlM_parseAlternative_leaves children hchildren fuel _ []).bind fun refs _ hrefs => .pure ?_
        obtain ⟨added, rfl, hleaves⟩ := hrefs
        exact ⟨_, rfl, hleaves⟩
    refine hparsed.bind fun type type' htype => ?_
    obtain ⟨rfl, v, rfl, hleaves⟩ := htype
    exact .pure ⟨_, rfl, hleaves⟩

theorem foldlM_parseAlternative_leaves : ∀ (trees : List AlternativeTree) {items : List Json},
    AreTrees ir items trees → ∀ (fuel : ℕ) (name : Str) (alternatives : List TypeRef),
      SameEffect (items.foldlM (parseAlternative ir (parseSchemaUpTo ir fuel) name) alternatives)
        (items.foldlM (parseAlternative ir (parseSchemaUpTo ir fuel) name) alternatives)
        fun refs _ => Adds ir alternatives (leavesOf trees name alternatives.length) refs
  | [], items, h, fuel, name, alternatives => by
    obtain rfl : items = [] := h
    exact .pure ⟨[], by simp, .nil⟩
  | t :: trees, items, ⟨item, rest, hitems, htree, hrest⟩, fuel, name, alternatives => by
    subst hitems
    rw [List.foldlM_cons]
    have hfirst := (sameEffect_refl _).and (parseAlternative_leaves t htree fuel name alternatives)
    refine hfirst.bind fun refs refs' hrefs => ?_
    obtain ⟨rfl, added, rfl, hleaves⟩ := hrefs
    refine (foldlM_parseAlternative_leaves trees hrest fuel name _).post fun refs'' _ hrefs'' => ?_
    obtain ⟨added', rfl, hleaves'⟩ := hrefs''
    have hlength : added.length = (t.leaves name alternatives.length).length := hleaves.length_eq.symm
    rw [List.length_append, hlength] at hleaves'
    exact ⟨added ++ added', List.append_assoc .., List.rel_append hleaves hleaves'⟩

end

/-- The bound on the nested calls is no reason to stop when it is above the depth of the alternatives. -/
theorem buildVariant_ne_outOfFuel {items : List Json} {fuel : ℕ} (hfuel : Json.depthItems items + 1 < fuel)
    {name desc : Str} {s s' : ParseState} (hs : ParseInv sanitizedNames s) :
    buildVariant ir (parseSchemaUpTo ir fuel) items name desc s ≠ .error .outOfFuel s' := by
  intro hrun
  -- the alternatives stand in some object
  let o : JsonObject := some [("oneOf".toList, .arr items)]
  have hitems : listField ir o "oneOf".toList = .ok items := by
    simp [listField, getObjectIfExist, atKey, o, Record.find, bind, Except.bind, pure, Except.pure, Json.if_array]
  have hdepth : o.depth = Json.depthItems items + 2 := by
    simp [o, JsonObject.depth, Json.depth, Json.depthMembers, Json.depthMember]
  have hinner : ∀ v name, v.Inside o →
      Keeps sanitizedNames (fun _ => True) (parseSchemaUpTo ir fuel v name) (ParsedAs sanitizedNames name) := by
    intro v name hin
    have hrule := parseSchemaUpTo_rule ir (V := TargetsIn sanitizedNames) (fun v o hin h => h.inside hin)
      (P := fun s => ParseInv sanitizedNames s ∧ True)
      (Q := fun name type s => ParseInv sanitizedNames s ∧ ParsedAs sanitizedNames name type s)
      (E := fun stop s => ParseInv sanitizedNames s ∧ stop ≠ .outOfFuel)
      (fun parseInner o name hT hinner => parseSchemaBody_keeps hT name hinner)
    have := depth_lt_of_inside hin
    exact hrule fuel v name (targetsIn_sanitizedNames v) (by omega)
  have hkeeps : Keeps sanitizedNames (fun _ => True) (buildVariant ir (parseSchemaUpTo ir fuel) items name desc)
      (ParsedAs sanitizedNames name) := buildVariant_keeps (targetsIn_sanitizedNames o) hitems hinner
  exact (hkeeps.of_error ⟨hs, trivial⟩ hrun).2.2 rfl

/-- **Flattening loses no alternative.**  Whatever the state is, a variant that `buildVariant` returns has one
reference for each leaf of the trees of its alternatives, from left to right; and with a bound above their
depth, `buildVariant` does not stop for want of nested calls. -/
theorem flattens {items : List Json} {trees : List AlternativeTree} (htrees : AreTrees ir items trees)
    (name desc : Str) :
    (∀ fuel s type s', buildVariant ir (parseSchemaUpTo ir fuel) items name desc s = .ok type s' →
      ∃ v, type = .variant v ∧ List.Forall₂ (LeafRef ir) (leavesOf trees name 0) v.alternatives) ∧
    ∀ fuel s s', Json.depthItems items + 1 < fuel → ParseInv sanitizedNames s →
      buildVariant ir (parseSchemaUpTo ir fuel) items name desc s ≠ .error .outOfFuel s' := by
  refine ⟨fun fuel s type s' hrun => ?_, fun fuel s s' hfuel hs => buildVariant_ne_outOfFuel hfuel hs⟩
  have hvariant : SameEffect (buildVariant ir (parseSchemaUpTo ir fuel) items name desc)
      (buildVariant ir (parseSchemaUpTo ir fuel) items name desc) fun type _ => ∃ v, type = .variant v ∧
        List.Forall₂ (LeafRef ir) (leavesOf trees name 0) v.alternatives := by
    refine (foldlM_parseAlternative_leaves trees htrees fuel name []).bind fun refs _ hrefs => .pure ?_
    obtain ⟨added, rfl, hleaves⟩ := hrefs
    exact ⟨_, rfl, hleaves⟩
  obtain ⟨-, -, -, -, hv⟩ := hvariant.of_ok rfl hrun
  exact hv

end

/-- `Cat`, or a number or a list of texts, or an object. -/
def petItems : List Json :=
  [.obj [("$ref".toList, .str "#/components/schemas/Cat".toList)],
    .obj [("anyOf".toList, .arr [
      .obj [("type".toList, .str "integer".toList)],
      .obj [("type".toList, .str "array".toList),
        ("items".toList, .obj [("type".toList, .str "string".toList)])]])],
    .obj [("type".toList, .str "object".toList)]]

def petTrees : List AlternativeTree :=
  [.ref "Cat".toList,
    .node [.leaf (some [("type".toList, .str "integer".toList)]),
      .leaf (some [("type".toList, .str "array".toList),
        ("items".toList, .obj [("type".toList, .str "string".toList)])])],
    .leaf (some [("type".toList, .str "object".toList)])]

theorem areTrees_pets : AreTrees .crash petItems petTrees := by
  refine ⟨_, _, rfl, ⟨_, "#/components/schemas".toList, rfl, rfl, by decide, by decide⟩,
    _, _, rfl, ?_, _, _, rfl, ?_, rfl⟩
  · refine ⟨_, _, rfl, rfl, ⟨.inr rfl, .inr ⟨rfl, rfl⟩⟩, List.cons_ne_nil _ _, ?_⟩
    refine ⟨_, _, rfl, ⟨rfl, rfl, fun _ h => ?_⟩, _, _, rfl, ⟨rfl, rfl, fun _ h => ?_⟩, rfl⟩
    · rcases h.kind with h | h <;> cases h
    · rcases h.kind with h | h <;> cases h
  · refine ⟨rfl, rfl, fun _ h => ?_⟩
    rcases h.list with h | h
    · exact (Except.ok.inj h).symm
    · exact (Except.ok.inj h.2).symm

def petVariant : VariantType :=
  { name := "Pet".toList
    alternatives := [⟨"Cat".toList, false⟩, ⟨"int32_t".toList, true⟩, ⟨"std::vector<std::string>".toList, true⟩,
      ⟨"Pet_alt_3".toList, true⟩] }

theorem flattens_pets : (∃ s', buildVariant .crash (parseSchemaUpTo .crash 9) petItems "Pet".toList [] {} =
      .ok (.variant petVariant) s') ∧
    List.Forall₂ (LeafRef .crash) (leavesOf petTrees "Pet".toList 0) petVariant.alternatives := by
  have hrun : ∃ s', buildVariant .crash (parseSchemaUpTo .crash 9) petItems "Pet".toList [] {} =
    .ok (.variant petVariant) s' := ⟨_, rfl⟩
  refine ⟨hrun, ?_⟩
  obtain ⟨s', hrun⟩ := hrun
  obtain ⟨v, hv, hleaves⟩ := (flattens areTrees_pets "Pet".toList []).1 9 {} _ s' hrun
  exact SchemaType.variant.inj hv ▸ hleaves

end Siesta
