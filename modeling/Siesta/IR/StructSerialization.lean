import Siesta.IR.CppTypes
import Siesta.Lib.ListM

/-!
# Serialization of structs: `DefsGenerator::emitStructSerialization`

`structValueFrom` and `structValueTo` are the two functions the generator writes for one struct,
`value_from` and `value_to` those for all structs of a set.  The conversions of primitive types are
those of the JSON library, a parameter here (`PrimitiveCodec`).

The encoder merges the objects of the base classes key by key, and the decoder hands the whole
object to every base.  A decoder only reads the members of its own struct, so it finds the value it
wrote in every object that agrees on these (`encodes_struct`), and values round-trip.
-/

namespace Siesta

open Lib

/-! ### The generated functions -/

/-- The conversions of the JSON library between primitive values and JSON; `none` is an exception. -/
structure PrimitiveCodec where
  value_from : PrimitiveValue → Json
  value_to : CppPrimitive → Json → Option PrimitiveValue

structure PrimitiveCodec.Lawful (codec : PrimitiveCodec) : Prop where
  roundtrip : ∀ {p x}, x.HasType p → codec.value_to p (codec.value_from x) = some x

section

variable (codec : PrimitiveCodec)

/-- `value_from` of a value of a type, given those of the structs. -/
def typeValueFrom (structFrom : Str → Value → Option Json) : CppType → Value → Option Json
  | .prim _, .prim x => some (codec.value_from x)
  | .vector t, .vector items => (items.mapM (typeValueFrom structFrom t)).map .arr
  | .named n, v => structFrom n v
  | _, _ => none

/-- `value_to` of a type, given those of the structs. -/
def typeValueTo (structTo : Str → Json → Option Value) : CppType → Json → Option Value
  | .prim p, jv => (codec.value_to p jv).map .prim
  | .vector t, .arr items => (items.mapM (typeValueTo structTo t)).map .vector
  | .vector _, _ => none
  | .named n, jv => structTo n jv

def encodeBase (typeFrom : CppType → Value → Option Json) (obj : Record Str Json)
    (base : TypeRef × Value) : Option (Record Str Json) := do
  let base_jv ← typeFrom (baseType base.1) base.2
  let base_obj ← base_jv.if_object
  some (obj.merge base_obj)

/-- `obj["field"] = value_from(v.field)`. -/
def encodeField (typeFrom : CppType → Value → Option Json) (obj : Record Str Json)
    (field : Member × Value) : Option (Record Str Json) := do
  let jv ← typeFrom field.1.cppType field.2
  some (obj.set field.1.name jv)

/-- The generated `tag_invoke(value_from_tag, jv, v)` of a struct. -/
def structValueFrom (typeFrom : CppType → Value → Option Json) (s : StructType) :
    Value → Option Json
  | .struct bases fields => do
    let obj ← (s.allOf_bases.zip bases).foldlM (encodeBase typeFrom) []
    let obj ← (s.fields.zip fields).foldlM (encodeField typeFrom) obj
    some (.obj obj)
  | _ => none

/-- Decoding of a member: one that the JSON value does not hold keeps its initial value. -/
def decodeField (typeTo : CppType → Json → Option Value) (init : Member → Value) (jv : Json)
    (field : Member) : Option Value :=
  match jv.if_object.bind fun obj => obj.find field.name with
  | some fld => typeTo field.cppType fld
  | none => some (init field)

/-- The generated `tag_invoke(value_to_tag<S>, jv)` of a struct. -/
def structValueTo (typeTo : CppType → Json → Option Value) (init : Member → Value) (s : StructType)
    (jv : Json) : Option Value := do
  let bases ← s.allOf_bases.mapM fun base => typeTo (baseType base) jv
  let fields ← s.fields.mapM (decodeField typeTo init jv)
  some (.struct bases fields)

namespace StructSet

variable (ss : StructSet)

/-- `value_from` of the structs of a set. -/
def structFrom : Str → Value → Option Json :=
  define StructType.name (fun structFrom s => structValueFrom (typeValueFrom codec structFrom) s)
    (fun _ => none) ss.structs

/-- `value_to` of the structs of a set.  `init` is what the members of a fresh object hold. -/
def structTo (init : StructType → Member → Value) : Str → Json → Option Value :=
  define StructType.name
    (fun structTo s => structValueTo (typeValueTo codec structTo) (init s) s)
    (fun _ => none) ss.structs

/-- `boost::json::value_from(v)` for a value of type `t`. -/
def value_from (t : CppType) (v : Value) : Option Json := typeValueFrom codec (ss.structFrom codec) t v

/-- `boost::json::value_to<t>(jv)`. -/
def value_to (init : StructType → Member → Value) (t : CppType) (jv : Json) : Option Value :=
  typeValueTo codec (ss.structTo codec init) t jv

end StructSet

/-! ### The generated functions as mutual recursion -/

theorem typeValueFrom_congr {f g : Str → Value → Option Json} :
    ∀ {t : CppType}, (∀ n ∈ t.names, f n = g n) → typeValueFrom codec f t = typeValueFrom codec g t := by
  intro t
  induction t with
  | prim p => intro _; funext v; cases v <;> rfl
  | vector t ih => intro h; funext v; cases v <;> simp [typeValueFrom, ih h]
  | named n => intro h; funext v; simp [typeValueFrom, h n (List.mem_singleton_self n)]

theorem typeValueTo_congr {f g : Str → Json → Option Value} :
    ∀ {t : CppType}, (∀ n ∈ t.names, f n = g n) → typeValueTo codec f t = typeValueTo codec g t := by
  intro t
  induction t with
  | prim p => intro _; funext jv; rfl
  | vector t ih => intro h; funext jv; cases jv <;> simp [typeValueTo, ih h]
  | named n => intro h; funext jv; simp [typeValueTo, h n (List.mem_singleton_self n)]

theorem structValueFrom_congr {f g : CppType → Value → Option Json} {s : StructType}
    (hb : ∀ base ∈ s.allOf_bases, f (baseType base) = g (baseType base))
    (hf : ∀ field ∈ s.fields, f field.cppType = g field.cppType) :
    structValueFrom f s = structValueFrom g s := by
  funext v
  cases v with
  | prim x => rfl
  | vector items => rfl
  | struct bases fields =>
    have hbases : (s.allOf_bases.zip bases).foldlM (encodeBase f) [] =
        (s.allOf_bases.zip bases).foldlM (encodeBase g) [] :=
      foldlM_congr fun e he obj => by
        rw [encodeBase, encodeBase, hb e.1 (List.of_mem_zip he).1]
    have hfields : ∀ obj, (s.fields.zip fields).foldlM (encodeField f) obj =
        (s.fields.zip fields).foldlM (encodeField g) obj := fun obj =>
      foldlM_congr fun e he obj => by
        rw [encodeField, encodeField, hf e.1 (List.of_mem_zip he).1]
    simp only [structValueFrom, hbases, hfields]

theorem structValueTo_congr {f g : CppType → Json → Option Value} {init : Member → Value}
    {s : StructType} (hb : ∀ base ∈ s.allOf_bases, f (baseType base) = g (baseType base))
    (hf : ∀ field ∈ s.fields, f field.cppType = g field.cppType) :
    structValueTo f init s = structValueTo g init s := by
  funext jv
  have hbases : s.allOf_bases.mapM (fun base => f (baseType base) jv) =
      s.allOf_bases.mapM fun base => g (baseType base) jv :=
    mapM_congr fun base h => by rw [hb base h]
  have hfields : s.fields.mapM (decodeField f init jv) = s.fields.mapM (decodeField g init jv) :=
    mapM_congr fun field h => by rw [decodeField, decodeField, hf field h]
  simp only [structValueTo, hbases, hfields]

namespace StructSet

variable {ss : StructSet} {n : Str} {s : StructType} {init : StructType → Member → Value}

theorem structFrom_eq (h : ss.find n = some s) :
    ss.structFrom codec n = structValueFrom (ss.value_from codec) s := by
  refine define_eq (fun d hd f g hfg => ?_) ss.wellScoped h
  refine structValueFrom_congr (fun base hb => ?_) fun field hf => ?_
  · exact typeValueFrom_congr codec fun m hm => hfg m (base_names_refs hb m hm)
  · exact typeValueFrom_congr codec fun m hm => hfg m (field_names_refs hf m hm)

theorem structTo_eq (h : ss.find n = some s) :
    ss.structTo codec init n = structValueTo (ss.value_to codec init) (init s) s := by
  refine define_eq (fun d hd f g hfg => ?_) ss.wellScoped h
  refine structValueTo_congr (fun base hb => ?_) fun field hf => ?_
  · exact typeValueTo_congr codec fun m hm => hfg m (base_names_refs hb m hm)
  · exact typeValueTo_congr codec fun m hm => hfg m (field_names_refs hf m hm)

/-! ### What the encoder writes, and what the decoder reads -/

variable (ss) in
def EncodedMember (m : Str × CppType) (e : Str × Json) : Prop :=
  e.1 = m.1 ∧ ∃ x, ss.HasType m.2 x ∧ ss.value_from codec m.2 x = some e.2

variable (ss init) in
/-- The object `o` is what the encoder writes for the value `v` of the struct `n`, and the decoder
finds `v` in every object that agrees with `o` on its keys. -/
structure Encodes (n : Str) (v : Value) (o : Record Str Json) : Prop where
  value_from : ss.structFrom codec n v = some (.obj o)
  members : List.Forall₂ (ss.EncodedMember codec) (ss.members n) o
  value_to : ∀ o' : Record Str Json, (∀ k ∈ o.keys, o'.find k = o.find k) →
    ss.structTo codec init n (.obj o') = some v

theorem keys_of_encodedMembers {ms : List (Str × CppType)} {o : Record Str Json}
    (h : List.Forall₂ (ss.EncodedMember codec) ms o) : o.keys = ms.map Prod.fst := by
  induction h with
  | nil => rfl
  | cons he _ ih => rw [Record.keys_cons, he.1, ih, List.map_cons]

variable {codec}

variable (codec ss) in
/-- The loop over the base classes appends their objects. -/
theorem encode_bases (es : List (TypeRef × Value × Record Str Json)) (acc : Record Str Json)
    (hes : ∀ e ∈ es, ss.value_from codec (baseType e.1) e.2.1 = some (.obj e.2.2))
    (hnd : (Record.keys (acc ++ es.flatMap fun e => e.2.2)).Nodup) :
    (es.map fun e => (e.1, e.2.1)).foldlM (encodeBase (ss.value_from codec)) acc =
      some (acc ++ es.flatMap fun e => e.2.2) := by
  induction es generalizing acc with
  | nil => simp
  | cons e es ih =>
    rw [List.flatMap_cons, ← List.append_assoc] at hnd
    have hmerge : acc.merge e.2.2 = acc ++ e.2.2 := by
      rw [Record.keys_append] at hnd
      exact Record.merge_of_disjoint e.2.2 acc (List.nodup_append.mp hnd).1
    have hstep : encodeBase (ss.value_from codec) acc (e.1, e.2.1) = some (acc ++ e.2.2) := by
      simp [encodeBase, hes e (by simp), Json.if_object, hmerge]
    rw [List.map_cons, List.foldlM_cons, hstep, Option.bind_eq_bind, Option.bind_some,
      ih _ (fun e he => hes e (by simp [he])) hnd, List.flatMap_cons, List.append_assoc]

variable (codec ss) in
theorem encode_fields (es : List (Member × Value × Json)) (acc : Record Str Json)
    (hes : ∀ e ∈ es, ss.value_from codec e.1.cppType e.2.1 = some e.2.2)
    (hnd : (Record.keys (acc ++ es.map fun e => (e.1.name, e.2.2))).Nodup) :
    (es.map fun e => (e.1, e.2.1)).foldlM (encodeField (ss.value_from codec)) acc =
      some (acc ++ es.map fun e => (e.1.name, e.2.2)) := by
  induction es generalizing acc with
  | nil => simp
  | cons e es ih =>
    have hassoc : acc ++ (e :: es).map (fun e => (e.1.name, e.2.2)) =
        (acc ++ [(e.1.name, e.2.2)]) ++ es.map fun e => (e.1.name, e.2.2) := by simp
    rw [hassoc] at hnd
    have hset : acc.set e.1.name e.2.2 = acc ++ [(e.1.name, e.2.2)] := by
      refine Record.set_of_notMem e.2.2 fun hm => ?_
      rw [Record.keys_append, Record.keys_append] at hnd
      have hnd := (List.nodup_append.mp hnd).1
      exact (List.nodup_append.mp hnd).2.2 _ hm _ (List.mem_cons_self ..) rfl
    have hstep : encodeField (ss.value_from codec) acc (e.1, e.2.1) =
        some (acc ++ [(e.1.name, e.2.2)]) := by
      simp [encodeField, hes e (by simp), hset]
    rw [List.map_cons, List.foldlM_cons, hstep, Option.bind_eq_bind, Option.bind_some,
      ih _ (fun e he => hes e (by simp [he])) hnd, hassoc]

/-- A struct whose parts have been encoded is encoded as their entries, bases first. -/
theorem encode_struct (hs : ss.find n = some s)
    {bs : List (TypeRef × Value × Record Str Json)} {fs : List (Member × Value × Json)}
    (hbs : bs.map (fun e => e.1) = s.allOf_bases) (hfs : fs.map (fun e => e.1) = s.fields)
    (hb : ∀ e ∈ bs, ss.value_from codec (baseType e.1) e.2.1 = some (.obj e.2.2))
    (hf : ∀ e ∈ fs, ss.value_from codec e.1.cppType e.2.1 = some e.2.2)
    (hnd : (Record.keys ((bs.flatMap fun e => e.2.2) ++ fs.map fun e => (e.1.name, e.2.2))).Nodup) :
    ss.structFrom codec n (.struct (bs.map fun e => e.2.1) (fs.map fun e => e.2.1)) =
      some (.obj ((bs.flatMap fun e => e.2.2) ++ fs.map fun e => (e.1.name, e.2.2))) := by
  have hbases := encode_bases codec ss bs [] hb (by
    rw [Record.keys_append] at hnd
    exact (List.nodup_append.mp hnd).1)
  have hfields := encode_fields codec ss fs _ hf hnd
  rw [structFrom_eq codec hs, structValueFrom, ← hbs, ← hfs, List.zip_map', List.zip_map', hbases,
    Option.bind_eq_bind, Option.bind_some, List.nil_append, hfields]
  rfl

theorem roundtrip_of_names (hcodec : codec.Lawful) {t : CppType}
    (hnames : ∀ n ∈ t.names, ∀ v, ss.HasType (.named n) v → ∃ o, ss.Encodes codec init n v o) :
    ∀ v, ss.HasType t v →
      ∃ jv, ss.value_from codec t v = some jv ∧ ss.value_to codec init t jv = some v := by
  induction t with
  | prim p =>
    intro v hv
    cases hv with
    | prim hx => exact ⟨_, rfl, by simp [value_to, typeValueTo, hcodec.roundtrip hx]⟩
  | vector t ih =>
    intro v hv
    cases hv with
    | @vector _ items hitems =>
      obtain ⟨js, hjs⟩ := exists_forall₂ fun v hv => ih hnames v (hitems v hv)
      have hfrom : List.Forall₂ (fun v jv => ss.value_from codec t v = some jv) items js :=
        hjs.imp fun _ _ h => h.1
      have hto : List.Forall₂ (fun jv v => ss.value_to codec init t jv = some v) js items :=
        List.Forall₂.flip (hjs.imp fun _ _ h => h.2)
      refine ⟨.arr js, ?_, ?_⟩
      · show (items.mapM (ss.value_from codec t)).map Json.arr = _
        rw [mapM_eq_some.mpr hfrom]
        rfl
      · show (js.mapM (ss.value_to codec init t)).map Value.vector = _
        rw [mapM_eq_some.mpr hto]
        rfl
  | named n =>
    intro v hv
    obtain ⟨o, ho⟩ := hnames n (List.mem_singleton_self n) v hv
    exact ⟨.obj o, ho.value_from, ho.value_to o fun _ _ => rfl⟩

/-- **What the encoder writes is found by the decoder in every larger object.**  The induction is over
the acyclic set of structs. -/
theorem encodes_struct (hcodec : codec.Lawful) (hdistinct : ss.DistinctMembers) :
    ∀ n ∈ ss.names, ∀ v, ss.HasType (.named n) v → ∃ o, ss.Encodes codec init n v o := by
  refine ss.wellScoped.induction fun s n hs ih v hv => ?_
  have hs : ss.find n = some s := hs
  have hmem : s ∈ ss.structs := mem_of_find hs
  cases hv with
  | @struct _ s' bases fields hs' hb hf =>
    obtain rfl : s' = s := Option.some.inj (hs'.symm.trans hs)
    -- the bases round-trip by the induction hypothesis, and so do the types of the members
    have hbases : List.Forall₂ (fun base v => ∃ o, baseType base = .named base.name ∧
        ss.Encodes codec init base.name v o) s'.allOf_bases bases := by
      refine forall₂_imp_mem hb fun base hbase v _ hv => ?_
      have hname := ss.bases s' hmem base hbase
      obtain ⟨o, ho⟩ := ih base.name (base_mem_refs hmem hbase) v (hname ▸ hv)
      exact ⟨o, hname, ho⟩
    have hfields : List.Forall₂ (fun (field : Member) v => ∃ jv, ss.HasType field.cppType v ∧
        ss.value_from codec field.cppType v = some jv ∧
          ss.value_to codec init field.cppType jv = some v) s'.fields fields := by
      refine forall₂_imp_mem hf fun field hfield v _ hv => ?_
      have hrt : ∃ jv, ss.value_from codec field.cppType v = some jv ∧
          ss.value_to codec init field.cppType jv = some v :=
        roundtrip_of_names hcodec (fun m hm => ih m (field_names_refs hfield m hm)) v hv
      obtain ⟨jv, hjv⟩ := hrt
      exact ⟨jv, hv, hjv⟩
    obtain ⟨bs, hbs, rfl, hB⟩ := exists_triples hbases
    obtain ⟨fs, hfs, rfl, hF⟩ := exists_triples hfields
    have hencoded : List.Forall₂ (ss.EncodedMember codec) (ss.members n)
        ((bs.flatMap fun e => e.2.2) ++ fs.map fun e => (e.1.name, e.2.2)) := by
      rw [members_eq hs, ← hbs, ← hfs, List.flatMap_map, List.map_map]
      refine List.rel_append (forall₂_flatMap fun e he => (hB e he).2.members) ?_
      exact forall₂_map fun e he => ⟨rfl, e.2.1, (hF e he).1, (hF e he).2.1⟩
    have hnd : (Record.keys ((bs.flatMap fun e => e.2.2) ++
        fs.map fun e => (e.1.name, e.2.2))).Nodup := by
      rw [keys_of_encodedMembers codec hencoded]
      exact hdistinct n (names_of_find hs)
    refine ⟨_, encode_struct hs hbs hfs ?_ (fun e he => (hF e he).2.1) hnd, hencoded, fun o' ho' => ?_⟩
    · intro e he
      rw [(hB e he).1]
      exact (hB e he).2.value_from
    · -- every part is read as the whole object is
      have hagree : ∀ part : Record Str Json, part.Sublist ((bs.flatMap fun e => e.2.2) ++
          fs.map fun e => (e.1.name, e.2.2)) → ∀ k ∈ part.keys, o'.find k = part.find k := by
        intro part hsub k hk
        rw [Record.find_sublist hnd hsub hk]
        exact ho' k ((hsub.map Prod.fst).subset hk)
      have hbases' : s'.allOf_bases.mapM (fun base =>
          ss.value_to codec init (baseType base) (.obj o')) = some (bs.map fun e => e.2.1) := by
        rw [← hbs]
        refine mapM_eq_some.mpr (forall₂_map fun e he => ?_)
        have hsub : e.2.2.Sublist (bs.flatMap fun e => e.2.2) := by
          rw [List.flatMap_def]
          exact List.sublist_flatten_of_mem (List.mem_map_of_mem he)
        rw [(hB e he).1]
        exact (hB e he).2.value_to o' (hagree _ (hsub.trans (List.sublist_append_left ..)))
      have hfields' : s'.fields.mapM (decodeField (ss.value_to codec init) (init s') (.obj o')) =
          some (fs.map fun e => e.2.1) := by
        rw [← hfs]
        refine mapM_eq_some.mpr (forall₂_map fun e he => ?_)
        have hsub : [(e.1.name, e.2.2)].Sublist (fs.map fun e => (e.1.name, e.2.2)) :=
          List.singleton_sublist.mpr (List.mem_map.mpr ⟨e, he, rfl⟩)
        have hfind : o'.find e.1.name = some e.2.2 := by
          rw [hagree _ (hsub.trans (List.sublist_append_right ..)) e.1.name (by simp),
            Record.find_cons, if_pos rfl]
        simp [decodeField, Json.if_object, hfind, (hF e he).2.2]
      rw [structTo_eq codec hs, structValueTo, hbases', Option.bind_eq_bind, Option.bind_some, hfields']
      rfl

/-- **Values of generated structs round-trip.**  In an acyclic set of structs whose own and inherited
member names are distinct, decoding what was encoded gives the value back. -/
theorem struct_roundtrip (codec : PrimitiveCodec) (init : StructType → Member → Value)
    (ss : StructSet) (hcodec : codec.Lawful)
    (hdistinct : ss.DistinctMembers) {n : Str} {v : Value}
    (hv : ss.HasType (.named n) v) :
    (ss.value_from codec (.named n) v).bind (ss.value_to codec init (.named n)) = some v := by
  have hn : n ∈ ss.names := by
    cases hv with
    | struct hs => exact names_of_find hs
  have hall : ∃ o, ss.Encodes codec init n v o := encodes_struct hcodec hdistinct n hn v hv
  obtain ⟨o, ho⟩ := hall
  show (ss.structFrom codec n v).bind (ss.structTo codec init n) = some v
  rw [ho.value_from, Option.bind_some]
  exact ho.value_to o fun _ _ => rfl

end StructSet

end

/-! ### An instance -/

/-- The conversions of the JSON library for values and JSON of the same kind; an integer that does not
fit is an exception. -/
def exactCodec : PrimitiveCodec where
  value_from
    | .string s => .str s
    | .boolean b => .bool b
    | .integer i => .int i
  value_to
    | .string, .str s => some (.string s)
    | .boolean, .bool b => some (.boolean b)
    | .integer format, .int i =>
      if format.min ≤ i ∧ i ≤ format.max then some (.integer i) else none
    | _, _ => none

theorem exactCodec_lawful : exactCodec.Lawful where
  roundtrip h := by
    cases h with
    | string s => rfl
    | boolean b => rfl
    | integer hmin hmax => simp [exactCodec, hmin, hmax]

def petStructs : StructSet where
  structs :=
    [{ name := "Dog".toList, allOf_bases := [⟨"Pet".toList, false⟩],
       fields := [{ name := "age".toList, type := ⟨"int32_t".toList, true⟩ }] },
     { name := "Pet".toList,
       fields := [{ name := "name".toList, type := ⟨"std::string".toList, true⟩ },
         { name := "tags".toList, type := ⟨"std::vector<std::string>".toList, true⟩ }] }]
  wellScoped := by decide
  bases := by decide

/-- A dog named `a` with the tag `b`, three years old. -/
def petDog : Value :=
  .struct [.struct [] [.prim (.string ['a']), .vector [.prim (.string ['b'])]]] [.prim (.integer 3)]

theorem petDog_hasType : petStructs.HasType (.named "Dog".toList) petDog := by
  have hname : petStructs.HasType (.prim .string) (.prim (.string ['a'])) := .prim (.string _)
  have htags : petStructs.HasType (.vector (.prim .string)) (.vector [.prim (.string ['b'])]) := by
    refine .vector fun v hv => ?_
    rw [List.mem_singleton.mp hv]
    exact .prim (.string _)
  have hage : petStructs.HasType (.prim (.integer .Int32)) (.prim (.integer 3)) :=
    .prim (.integer (by decide) (by decide))
  have hpet : petStructs.HasType (.named "Pet".toList)
      (.struct [] [.prim (.string ['a']), .vector [.prim (.string ['b'])]]) :=
    .struct rfl .nil (.cons hname (.cons htags .nil))
  exact .struct rfl (.cons hpet .nil) (.cons hage .nil)

theorem struct_roundtrip_petDog :
    (petStructs.value_from exactCodec (.named "Dog".toList) petDog).bind
      (petStructs.value_to exactCodec (fun _ _ => .prim (.integer 0)) (.named "Dog".toList)) =
        some petDog :=
  StructSet.struct_roundtrip exactCodec (fun _ _ => .prim (.integer 0)) petStructs exactCodec_lawful
    (by decide) petDog_hasType

end Siesta
