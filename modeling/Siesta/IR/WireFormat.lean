import Siesta.Frontend.Origins
import Siesta.IR.StructSerialization

/-!
# The keys of the generated JSON: `SchemaParser` and `DefsGenerator::emitStructSerialization`

A property goes through `sanitize` to the member of a struct, and the member's name is the key that the
generated `value_from` writes and `value_to` reads.  What the members' types convert to is left open
here: `typeFrom` and `typeTo` are any conversions that are the generated ones at the structs.  So the
keys are those of the schema exactly where `sanitize` has nothing to do (`wireFormat_iff`).
-/

namespace Siesta

open Lib JsonObject

/-! ### The names a schema asks for -/

def propertyNames (ir : InvalidRead) (o : JsonObject) : List Str :=
  match properties ir o with
  | .ok props => props.map Prod.fst
  | .error _ => []

/-- `m` is a base class of the struct `n`. -/
def DerivesFrom (ast : NormalizedAST) (n m : Str) : Prop :=
  ∃ t, ast.getType n = some (.struct t) ∧ ∃ base ∈ t.allOf_bases, base.name = m

/-- `m` is the struct `n` itself, or one it inherits from. -/
abbrev Inherits (ast : NormalizedAST) : Str → Str → Prop := Relation.ReflTransGen (DerivesFrom ast)

/-- `p` is a property of the schema of `n` or of the schema of a struct it inherits from. -/
def WireName (ir : InvalidRead) (ast : NormalizedAST) (schemaOf : Str → JsonObject) (n p : Str) : Prop :=
  ∃ m t, Inherits ast n m ∧ ast.getType m = some (.struct t) ∧ p ∈ propertyNames ir (schemaOf m)

/-- `k` is the name of a member of `n`, own or inherited. -/
def MemberName (ast : NormalizedAST) (n k : Str) : Prop :=
  ∃ m t, Inherits ast n m ∧ ast.getType m = some (.struct t) ∧ ∃ field ∈ t.fields, field.name = k

theorem memberName_iff {ast : NormalizedAST} {n : Str} {t : StructType}
    (ht : ast.getType n = some (.struct t)) (k : Str) :
    MemberName ast n k ↔
      (∃ base ∈ t.allOf_bases, MemberName ast base.name k) ∨ ∃ field ∈ t.fields, field.name = k := by
  constructor
  · rintro ⟨m, u, hm, hu, hk⟩
    rcases Relation.ReflTransGen.cases_head hm with rfl | ⟨m', ⟨t', ht', base, hb, rfl⟩, hm⟩
    · obtain rfl := SchemaType.struct.inj (Option.some.inj (ht.symm.trans hu))
      exact .inr hk
    · obtain rfl := SchemaType.struct.inj (Option.some.inj (ht.symm.trans ht'))
      exact .inl ⟨base, hb, m, u, hm, hu, hk⟩
  · rintro (⟨base, hb, m, u, hm, hu, hk⟩ | hk)
    · exact ⟨m, u, .head ⟨t, ht, base, hb, rfl⟩ hm, hu, hk⟩
    · exact ⟨n, t, .refl, ht, hk⟩

/-! ### The claim of the generated functions -/

/-- A value of the struct `n`: the object of every base class, and a value for every member. -/
inductive IsObject (ast : NormalizedAST) : Str → Value → Prop
  | mk {n : Str} {t : StructType} {bases fields : List Value} (ht : ast.getType n = some (.struct t))
      (hlen : t.allOf_bases.length = bases.length)
      (hb : ∀ e ∈ t.allOf_bases.zip bases, IsObject ast e.1.name e.2)
      (hf : t.fields.length = fields.length) : IsObject ast n (.struct bases fields)

/-- `typeFrom` is a `boost::json::value_from` that calls the generated functions at the structs. -/
def GeneratedFrom (ast : NormalizedAST) (typeFrom : CppType → Value → Option Json) : Prop :=
  ∀ n t, ast.getType n = some (.struct t) → typeFrom (.read n) = structValueFrom typeFrom t

/-- A member that is read from the key `key`. -/
def readMember (typeTo : CppType → Json → Option Value) (init : Member → Value) (jv : Json)
    (entry : Str × Member) : Option Value :=
  match jv.if_object.bind fun obj => obj.find entry.1 with
  | some fld => typeTo entry.2.cppType fld
  | none => some (init entry.2)

theorem decodeField_eq (typeTo : CppType → Json → Option Value) (init : Member → Value) (jv : Json)
    (field : Member) : decodeField typeTo init jv field = readMember typeTo init jv (field.name, field) :=
  rfl

/-- The generated functions of `n` keep to the wire format of the schemas: the object written has the
property names as its keys, and each member of `n`, own or inherited, is read from the key of its
property. -/
structure WireFormat (ir : InvalidRead) (ast : NormalizedAST) (schemaOf : Str → JsonObject) (n : Str) :
    Prop where
  writes : ∀ typeFrom, GeneratedFrom ast typeFrom → ∀ v jv, IsObject ast n v →
    typeFrom (.read n) v = some jv →
      ∃ obj, jv = .obj obj ∧ ∀ k, k ∈ Record.keys obj ↔ WireName ir ast schemaOf n k
  reads : ∀ m t, Inherits ast n m → ast.getType m = some (.struct t) → ∀ typeTo init jv bases fields,
    structValueTo typeTo init t jv = some (.struct bases fields) →
      List.Forall₂ (fun e v => readMember typeTo init jv e = some v)
        ((propertyNames ir (schemaOf m)).zip t.fields) fields

/-! ### What the encoder writes -/

section

variable {typeFrom : CppType → Value → Option Json}

theorem keys_foldlM_encodeBase {es : List (TypeRef × Value)} {acc obj : Record Str Json}
    (h : es.foldlM (encodeBase typeFrom) acc = some obj) (k : Str) :
    k ∈ obj.keys ↔ k ∈ acc.keys ∨
      ∃ e ∈ es, ∃ o, typeFrom (baseType e.1) e.2 = some (.obj o) ∧ k ∈ Record.keys o := by
  induction es generalizing acc with
  | nil =>
    obtain rfl := Option.some.inj h
    simp
  | cons e es ih =>
    rw [List.foldlM_cons] at h
    obtain ⟨acc', hstep, hrest⟩ := Option.bind_eq_some_iff.mp h
    obtain ⟨base_jv, hbase, hstep⟩ := Option.bind_eq_some_iff.mp hstep
    obtain ⟨base_obj, hobj, hstep⟩ := Option.bind_eq_some_iff.mp hstep
    obtain rfl := Option.some.inj hstep
    cases base_jv with
    | obj o =>
      obtain rfl := Option.some.inj hobj
      rw [ih hrest, Record.mem_keys_merge, or_assoc]
      refine or_congr_right ?_
      simp only [List.mem_cons, exists_eq_or_imp, hbase, Option.some.injEq, Json.obj.injEq,
        exists_eq_left']
    | _ => simp [Json.if_object] at hobj

theorem keys_foldlM_encodeField {es : List (Member × Value)} {acc obj : Record Str Json}
    (h : es.foldlM (encodeField typeFrom) acc = some obj) (k : Str) :
    k ∈ obj.keys ↔ k ∈ acc.keys ∨ ∃ e ∈ es, e.1.name = k := by
  induction es generalizing acc with
  | nil =>
    obtain rfl := Option.some.inj h
    simp
  | cons e es ih =>
    rw [List.foldlM_cons] at h
    obtain ⟨acc', hstep, hrest⟩ := Option.bind_eq_some_iff.mp h
    obtain ⟨jv, -, hstep⟩ := Option.bind_eq_some_iff.mp hstep
    obtain rfl := Option.some.inj hstep
    rw [ih hrest, Record.mem_keys_set]
    simp only [List.mem_cons, exists_eq_or_imp, eq_comm (a := k)]
    tauto

theorem forall_of_foldlM_encodeBase {es : List (TypeRef × Value)} {acc obj : Record Str Json}
    (h : es.foldlM (encodeBase typeFrom) acc = some obj) :
    ∀ e ∈ es, ∃ o, typeFrom (baseType e.1) e.2 = some (.obj o) := by
  induction es generalizing acc with
  | nil => simp
  | cons e es ih =>
    rw [List.foldlM_cons] at h
    obtain ⟨acc', hstep, hrest⟩ := Option.bind_eq_some_iff.mp h
    obtain ⟨base_jv, hbase, hstep⟩ := Option.bind_eq_some_iff.mp hstep
    obtain ⟨base_obj, hobj, -⟩ := Option.bind_eq_some_iff.mp hstep
    intro e' he'
    rcases List.mem_cons.mp he' with rfl | he'
    · cases base_jv with
      | obj o => exact ⟨o, hbase⟩
      | _ => simp [Json.if_object] at hobj
    · exact ih hrest e' he'

/-- **The keys of an object are the names of the members**, inherited ones included. -/
theorem keys_of_value_from {ast : NormalizedAST} (hgen : GeneratedFrom ast typeFrom) {n : Str} {v : Value}
    (hv : IsObject ast n v) : ∀ jv, typeFrom (.read n) v = some jv →
      ∃ obj, jv = .obj obj ∧ ∀ k, k ∈ Record.keys obj ↔ MemberName ast n k := by
  induction hv with
  | @mk n t bases fields ht hlen hb hf ih =>
    intro jv hjv
    rw [hgen n t ht] at hjv
    obtain ⟨obj, hbases, hjv⟩ := Option.bind_eq_some_iff.mp hjv
    obtain ⟨obj', hfields, hjv⟩ := Option.bind_eq_some_iff.mp hjv
    obtain rfl := Option.some.inj hjv
    refine ⟨obj', rfl, fun k => ?_⟩
    rw [keys_foldlM_encodeField hfields, keys_foldlM_encodeBase hbases, memberName_iff ht]
    -- the keys of a base are its members, by the induction hypothesis
    have hbase : (∃ e ∈ t.allOf_bases.zip bases, ∃ o, typeFrom (baseType e.1) e.2 = some (.obj o) ∧
        k ∈ Record.keys o) ↔ ∃ base ∈ t.allOf_bases, MemberName ast base.name k := by
      constructor
      · rintro ⟨e, he, o, ho, hk⟩
        obtain ⟨o', ho', hkeys⟩ := ih e he (.obj o) ho
        obtain rfl := Json.obj.inj ho'
        exact ⟨e.1, (List.of_mem_zip he).1, (hkeys k).mp hk⟩
      · rintro ⟨base, hbase, hk⟩
        obtain ⟨w, he⟩ := exists_mem_zip hlen hbase
        obtain ⟨o, ho⟩ := forall_of_foldlM_encodeBase hbases (base, w) he
        obtain ⟨o', ho', hkeys⟩ := ih (base, w) he (.obj o) ho
        obtain rfl := Json.obj.inj ho'
        exact ⟨(base, w), he, o, ho, (hkeys k).mpr hk⟩
    have hfield : (∃ e ∈ t.fields.zip fields, e.1.name = k) ↔ ∃ field ∈ t.fields, field.name = k := by
      constructor
      · rintro ⟨e, he, hk⟩
        exact ⟨e.1, (List.of_mem_zip he).1, hk⟩
      · rintro ⟨field, hfield, hk⟩
        obtain ⟨w, he⟩ := exists_mem_zip hf hfield
        exact ⟨(field, w), he, hk⟩
    rw [hbase, hfield]
    simp

end

/-! ### Members and properties -/

section

variable {ir : InvalidRead} {o : JsonObject} {t : StructType}

theorem propertyNames_eq {props : List (Str × Json)} (h : properties ir o = .ok props) :
    propertyNames ir o = props.map Prod.fst := by
  unfold propertyNames
  rw [h]

/-- A struct has a member for each property of its schema, in the same order. -/
theorem forall₂_propertyNames (h : HasProperties ir o t) :
    List.Forall₂ (fun p (field : Member) => field.name = sanitize p) (propertyNames ir o) t.fields := by
  obtain ⟨props, hprops, hfields⟩ := h
  rw [propertyNames_eq hprops, List.forall₂_map_left_iff]
  exact hfields

theorem name_of_mem_zip (h : HasProperties ir o t) {e : Str × Member}
    (he : e ∈ (propertyNames ir o).zip t.fields) : e.2.name = sanitize e.1 :=
  (List.forall₂_iff_zip.mp (forall₂_propertyNames h)).2 he

theorem snd_zip_propertyNames (h : HasProperties ir o t) :
    ((propertyNames ir o).zip t.fields).map Prod.snd = t.fields :=
  List.map_snd_zip (forall₂_propertyNames h).length_eq.ge

end

section

variable {ir : InvalidRead} {ast : NormalizedAST} {schemaOf : Str → JsonObject} {n : Str}
  (hprops : ∀ n t, ast.getType n = some (.struct t) → HasProperties ir (schemaOf n) t)

include hprops

/-- Where `sanitize` changes no property name, the members have the names of the properties. -/
theorem memberName_iff_wireName (hplain : ∀ p, WireName ir ast schemaOf n p → sanitize p = p) (k : Str) :
    MemberName ast n k ↔ WireName ir ast schemaOf n k := by
  constructor
  · rintro ⟨m, t, hm, ht, field, hfield, rfl⟩
    obtain ⟨p, hp, hname⟩ := forall₂_exists_left (forall₂_propertyNames (hprops m t ht)) field hfield
    have hwire : WireName ir ast schemaOf n p := ⟨m, t, hm, ht, hp⟩
    rw [hname, hplain p hwire]
    exact hwire
  · intro hwire
    have hsame := hplain k hwire
    obtain ⟨m, t, hm, ht, hk⟩ := hwire
    obtain ⟨field, hfield, hname⟩ := forall₂_exists_right (forall₂_propertyNames (hprops m t ht)) k hk
    exact ⟨m, t, hm, ht, field, hfield, hname.trans hsame⟩

theorem readMember_of_structValueTo {m : Str} {t : StructType} (ht : ast.getType m = some (.struct t))
    (hplain : ∀ p ∈ propertyNames ir (schemaOf m), sanitize p = p)
    {typeTo : CppType → Json → Option Value} {init : Member → Value} {jv : Json}
    {bases fields : List Value} (h : structValueTo typeTo init t jv = some (.struct bases fields)) :
    List.Forall₂ (fun e v => readMember typeTo init jv e = some v)
      ((propertyNames ir (schemaOf m)).zip t.fields) fields := by
  obtain ⟨bases', -, h⟩ := Option.bind_eq_some_iff.mp h
  obtain ⟨fields', hfields, h⟩ := Option.bind_eq_some_iff.mp h
  obtain ⟨-, rfl⟩ := Value.struct.inj (Option.some.inj h)
  have hread := mapM_eq_some.mp hfields
  rw [← snd_zip_propertyNames (hprops m t ht), List.forall₂_map_left_iff] at hread
  refine forall₂_imp_mem hread fun e he v _ hv => ?_
  have hname : e.2.name = e.1 :=
    (name_of_mem_zip (hprops m t ht) he).trans (hplain e.1 (List.of_mem_zip he).1)
  have hself : decodeField typeTo init jv e.2 = readMember typeTo init jv e := by
    rw [decodeField_eq, hname]
  exact hself.symm.trans hv

theorem wireFormat_of_plain (hplain : ∀ p, WireName ir ast schemaOf n p → sanitize p = p) :
    WireFormat ir ast schemaOf n where
  writes typeFrom hgen v jv hv hjv := by
    obtain ⟨obj, rfl, hkeys⟩ := keys_of_value_from hgen hv jv hjv
    exact ⟨obj, rfl, fun k => (hkeys k).trans (memberName_iff_wireName hprops hplain k)⟩
  reads m t hm ht typeTo init jv bases fields h :=
    readMember_of_structValueTo hprops ht (fun p hp => hplain p ⟨m, t, hm, ht, hp⟩) h

/-- An object with one key tells the key from which a member is read: conversions that say whether
they were called find it out. -/
theorem sanitize_eq_of_wireFormat (h : WireFormat ir ast schemaOf n) {p : Str}
    (hp : WireName ir ast schemaOf n p) : sanitize p = p := by
  obtain ⟨m, t, hm, ht, hmem⟩ := hp
  let typeTo : CppType → Json → Option Value := fun _ _ => some (.prim (.boolean true))
  let init : Member → Value := fun _ => .prim (.boolean false)
  let jv : Json := .obj [(p, .null)]
  let found : Member → Value := fun field => .prim (.boolean (field.name = p))
  have hdecode : ∀ field : Member, decodeField typeTo init jv field = some (found field) := by
    intro field
    by_cases hname : field.name = p
    · simp [decodeField, Json.if_object, jv, typeTo, found, Record.find_cons, hname]
    · have hnone : Record.find [(p, Json.null)] field.name = none := by
        rw [Record.find_eq_none]
        simpa using hname
      simp [decodeField, Json.if_object, jv, init, found, hname, hnone]
  have hrun : structValueTo typeTo init t jv =
      some (.struct (t.allOf_bases.map fun _ => .prim (.boolean true)) (t.fields.map found)) := by
    have hbases : t.allOf_bases.mapM (fun base => typeTo (baseType base) jv) =
        some (t.allOf_bases.map fun _ => .prim (.boolean true)) :=
      mapM_eq_some.mpr (List.forall₂_map_right_iff.mpr (List.forall₂_same.mpr fun _ _ => rfl))
    have hfields : t.fields.mapM (decodeField typeTo init jv) = some (t.fields.map found) :=
      mapM_eq_some.mpr (List.forall₂_map_right_iff.mpr (List.forall₂_same.mpr fun field _ => hdecode field))
    rw [structValueTo, hbases, hfields]
    rfl
  have hread := h.reads m t hm ht typeTo init jv _ _ hrun
  obtain ⟨field, hfield⟩ := exists_mem_zip (forall₂_propertyNames (hprops m t ht)).length_eq hmem
  have hsnd : t.fields.map found = ((propertyNames ir (schemaOf m)).zip t.fields).map (found ∘ Prod.snd) := by
    rw [← List.map_map, snd_zip_propertyNames (hprops m t ht)]
  rw [hsnd, List.forall₂_map_right_iff, List.forall₂_same] at hread
  have hvalue := hread (p, field) hfield
  have hfound : readMember typeTo init jv (p, field) = some (.prim (.boolean true)) := by
    simp [readMember, Json.if_object, jv, Record.find_cons, typeTo]
  rw [hfound] at hvalue
  have hname : field.name = p := by simpa [found] using hvalue
  rw [← name_of_mem_zip (hprops m t ht) hfield]
  exact hname

end

/-- **The wire format is the schema's exactly where the property names are plain.**  Every struct of a
parsed document was made from one of its schemas, and the generated functions keep to the wire format of
the schemas if and only if `sanitize` has nothing to do to the property names, the inherited ones
included. -/
theorem wireFormat_iff (ir : InvalidRead) (spec : JsonObject) (failed : List Str) (s : ParseState)
    (hrun : parseSchemas ir spec {} = .ok failed s) :
    (∃ schemaOf, OriginOf ir spec s.ast schemaOf) ∧
      ∀ schemaOf, OriginOf ir spec s.ast schemaOf → ∀ n t, s.ast.getType n = some (.struct t) →
        (WireFormat ir s.ast schemaOf n ↔ ∀ p, WireName ir s.ast schemaOf n p → PlainName p) := by
  refine ⟨exists_origins hrun, fun schemaOf horigin n t _ => ?_⟩
  have hprops : ∀ n t, s.ast.getType n = some (.struct t) → HasProperties ir (schemaOf n) t :=
    fun n t ht => (horigin n t ht).2.hasProperties
  constructor
  · intro h p hp
    exact sanitize_eq_self.mp (sanitize_eq_of_wireFormat hprops h hp)
  · intro hplain
    exact wireFormat_of_plain hprops fun p hp => sanitize_eq_self.mpr (hplain p hp)

/-- The schema of an object with the property `first-name`. -/
def ownerSchema : Json :=
  .obj [("type".toList, .str "object".toList),
    ("properties".toList, .obj [("first-name".toList, .obj [("type".toList, .str "string".toList)])])]

/-- A document with the schema `Owner`. -/
def ownerSpec : JsonObject :=
  some [("components".toList, .obj [("schemas".toList, .obj [("Owner".toList, ownerSchema)])])]

theorem wireFormat_iff_owner :
    ∃ s, parseSchemas .crash ownerSpec {} = .ok [] s ∧
      (∃ schemaOf, OriginOf .crash ownerSpec s.ast schemaOf) ∧
        ∀ schemaOf, OriginOf .crash ownerSpec s.ast schemaOf → ∀ n t,
          s.ast.getType n = some (.struct t) →
            (WireFormat .crash s.ast schemaOf n ↔ ∀ p, WireName .crash s.ast schemaOf n p → PlainName p) :=
  ⟨_, rfl, wireFormat_iff .crash ownerSpec [] _ rfl⟩

/-- The struct of `Owner`. -/
def ownerStruct : StructType :=
  { name := "Owner".toList,
    fields := [{ name := "first_name".toList, type := ⟨"std::string".toList, true⟩ }] }

/-- The AST of `ownerSpec`. -/
def ownerAST : NormalizedAST := NormalizedAST.addType {} "Owner".toList (.struct ownerStruct)

theorem getType_ownerAST {n : Str} {t : StructType} (h : ownerAST.getType n = some (.struct t)) :
    n = "Owner".toList ∧ t = ownerStruct := by
  rw [ownerAST, NormalizedAST.getType_addType] at h
  split at h
  · rename_i hn
    exact ⟨hn, (SchemaType.struct.inj (Option.some.inj h)).symm⟩
  · simp [NormalizedAST.getType] at h

theorem ownerAST_originOf : OriginOf .crash ownerSpec ownerAST fun _ => ofMember ownerSchema := by
  intro n t ht
  obtain ⟨-, rfl⟩ := getType_ownerAST ht
  refine ⟨⟨_, rfl, fun members hm => ?_⟩, 3, "Owner".toList, {}, "Owner".toList, _, rfl⟩
  obtain rfl := Option.some.inj hm
  exact ((Relation.TransGen.single (.member (List.mem_singleton_self _))).tail
    (.member (List.mem_singleton_self _))).tail (.member (List.mem_singleton_self _))

/-- The set of structs that holds `Owner`. -/
def ownerStructs : StructSet where
  structs := [ownerStruct]
  wellScoped := by decide
  bases := by decide

/-- The property `first-name` is written under the key `first_name`. -/
theorem hyphen_not_on_wire :
    ∃ s, parseSchemas .crash ownerSpec {} = .ok [] s ∧ s.ast.getType "Owner".toList = some (.struct ownerStruct) ∧
      OriginOf .crash ownerSpec s.ast (fun _ => ofMember ownerSchema) ∧
        ¬ WireFormat .crash s.ast (fun _ => ofMember ownerSchema) "Owner".toList := by
  refine ⟨⟨ownerAST, _, _⟩, rfl, rfl, ownerAST_originOf, fun h => ?_⟩
  let codec := exactCodec
  have hgen : GeneratedFrom ownerAST (ownerStructs.value_from codec) := by
    intro n t ht
    obtain ⟨rfl, rfl⟩ := getType_ownerAST ht
    exact StructSet.structFrom_eq codec rfl
  have hvalue : IsObject ownerAST "Owner".toList (.struct [] [.prim (.string ['a'])]) :=
    .mk rfl rfl (by simp [ownerStruct]) rfl
  obtain ⟨obj, hobj, hkeys⟩ := h.writes _ hgen _ (.obj [("first_name".toList, .str ['a'])]) hvalue rfl
  obtain rfl := Json.obj.inj hobj
  have hwire : WireName .crash ownerAST (fun _ => ofMember ownerSchema) "Owner".toList
      "first-name".toList := ⟨_, ownerStruct, .refl, rfl, by decide⟩
  have hmem := (hkeys "first-name".toList).mpr hwire
  revert hmem
  decide

end Siesta
