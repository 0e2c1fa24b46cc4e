import Siesta.IR.StructSerialization

/-!
# Serialization of variants: `DefsGenerator::emitVariantSerialization`

The encoder of a variant writes the JSON of its alternative, the decoder tries the alternatives in
the order they were emitted and takes the first that does not throw.  `Accepts t u` says of two
types, by their declarations alone, that the decoder of `t` takes the JSON of some value of `u`
(`exists_accepted`, `accepts_of_decodes`); the values of a variant round-trip exactly when no
alternative accepts a later one (`variant_roundtrip_iff`).
-/

namespace Siesta

open Lib

/-! ### The generated functions -/

/-- A value of a variant: the index of the alternative it holds, and what it holds. -/
structure VariantValue where
  index : ℕ
  value : Value

/-- The type `cppTypeName(alt)` names. -/
def alternativeType (alt : TypeRef) : CppType := .read alt.name

namespace StructSet

variable (ss : StructSet) (codec : PrimitiveCodec) (init : StructType → Member → Value)

/-- The generated `tag_invoke(value_from_tag, jv, val)` of a variant with these alternatives. -/
def variantValueFrom (alternatives : List TypeRef) (val : VariantValue) : Option Json := do
  let alt ← alternatives[val.index]?
  ss.value_from codec (alternativeType alt) val.value

/-- The generated `tag_invoke(value_to_tag<V>, jv)`; `none` is the exception at its end. -/
def variantValueTo (alternatives : List TypeRef) (jv : Json) : Option VariantValue :=
  (firstSome (fun alt => ss.value_to codec init (alternativeType alt) jv) alternatives).map
    fun e => ⟨e.1, e.2⟩

/-- `val` is a value of a variant with these alternatives. -/
def VariantHasType (alternatives : List TypeRef) (val : VariantValue) : Prop :=
  ∃ alt, alternatives[val.index]? = some alt ∧ ss.HasType (alternativeType alt) val.value

/-- The decoder of the first type takes the JSON of some value of the second. -/
inductive Accepts : CppType → CppType → Prop
  | string : Accepts (.prim .string) (.prim .string)
  | boolean : Accepts (.prim .boolean) (.prim .boolean)
  /-- Zero fits every integer type. -/
  | integer (f g : IntegerFormat) : Accepts (.prim (.integer f)) (.prim (.integer g))
  /-- The empty array is a value of every vector. -/
  | vector (t u : CppType) : Accepts (.vector t) (.vector u)
  /-- The decoder of a struct takes every value that is no object. -/
  | skip (n : Str) {t : CppType} (h : ∀ m, t ≠ .named m) : Accepts (.named n) t
  /-- Of an object it reads the members it knows. -/
  | struct {n m : Str} (h : ∀ k t u, (k, t) ∈ ss.members n → (k, u) ∈ ss.members m → Accepts t u) :
      Accepts (.named n) (.named m)

end StructSet

/-- The conversions of the JSON library keep the kinds apart: a string is a JSON string and back, a
boolean a JSON boolean, an integer a JSON number. -/
structure PrimitiveCodec.KindExact (codec : PrimitiveCodec) : Prop extends codec.Lawful where
  from_string : ∀ s, codec.value_from (.string s) = .str s
  from_boolean : ∀ b, codec.value_from (.boolean b) = .bool b
  from_integer : ∀ i, codec.value_from (.integer i) = .int i
  to_string : ∀ jv x, codec.value_to .string jv = some x → ∃ s, jv = .str s
  to_boolean : ∀ jv x, codec.value_to .boolean jv = some x → ∃ b, jv = .bool b
  to_integer : ∀ format jv x, codec.value_to (.integer format) jv = some x →
    (∃ i, jv = .int i) ∨ ∃ text, jv = .double text

namespace StructSet

variable {ss : StructSet} {codec : PrimitiveCodec} {init : StructType → Member → Value}

/-! ### When the decoder of a struct succeeds -/

variable (codec init) in
theorem structTo_isSome_iff : ∀ n ∈ ss.names, ∀ jv, (∃ w, ss.structTo codec init n jv = some w) ↔
    ∀ k t, (k, t) ∈ ss.members n → ∀ fld, (jv.if_object.bind fun obj => obj.find k) = some fld →
      ∃ w, ss.value_to codec init t fld = some w := by
  refine ss.wellScoped.induction fun s n hs ih jv => ?_
  have hs : ss.find n = some s := hs
  have hmem : s ∈ ss.structs := mem_of_find hs
  have hsplit : (∃ w, ss.structTo codec init n jv = some w) ↔
      (∀ base ∈ s.allOf_bases, ∃ w, ss.structTo codec init base.name jv = some w) ∧
        ∀ field ∈ s.fields, ∃ w, decodeField (ss.value_to codec init) (init s) jv field = some w := by
    have hbases : s.allOf_bases.mapM (fun base => ss.value_to codec init (baseType base) jv) =
        s.allOf_bases.mapM fun base => ss.structTo codec init base.name jv :=
      mapM_congr fun base hb => by rw [ss.bases s hmem base hb]; rfl
    rw [structTo_eq codec hs, structValueTo, hbases, ← exists_mapM_eq_some, ← exists_mapM_eq_some]
    constructor
    · rintro ⟨w, hw⟩
      obtain ⟨bases, hb, hw⟩ := Option.bind_eq_some_iff.mp hw
      obtain ⟨fields, hf, -⟩ := Option.bind_eq_some_iff.mp hw
      exact ⟨⟨bases, hb⟩, fields, hf⟩
    · rintro ⟨⟨bases, hb⟩, fields, hf⟩
      exact ⟨.struct bases fields, by simp [hb, hf]⟩
  have hfield : ∀ field : Member,
      (∃ w, decodeField (ss.value_to codec init) (init s) jv field = some w) ↔
        ∀ fld, (jv.if_object.bind fun obj => obj.find field.name) = some fld →
          ∃ w, ss.value_to codec init field.cppType fld = some w := by
    intro field
    unfold decodeField
    cases hfind : jv.if_object.bind fun obj => obj.find field.name with
    | none => simp
    | some fld => simp
  rw [hsplit, members_eq hs]
  simp only [hfield, List.mem_append, List.mem_flatMap, List.mem_map, Prod.mk.injEq]
  constructor
  · rintro ⟨hb, hf⟩ k t (⟨base, hbase, hk⟩ | ⟨field, hfld, rfl, rfl⟩)
    · exact (ih base.name (base_mem_refs hmem hbase) jv).mp (hb base hbase) k t hk
    · exact hf field hfld
  · intro h
    refine ⟨fun base hbase => ?_, fun field hfld => h _ _ (.inr ⟨field, hfld, rfl, rfl⟩)⟩
    refine (ih base.name (base_mem_refs hmem hbase) jv).mpr fun k t hk => ?_
    exact h k t (.inl ⟨base, hbase, hk⟩)

/-! ### The values of a struct and their objects -/

theorem closed_member : ∀ n ∈ ss.names, ∀ k t, (k, t) ∈ ss.members n → ss.Closed t := by
  refine ss.wellScoped.induction fun s n hs ih k t hk => ?_
  have hs : ss.find n = some s := hs
  rw [members_eq hs] at hk
  rcases List.mem_append.mp hk with hk | hk
  · obtain ⟨base, hbase, hk⟩ := List.mem_flatMap.mp hk
    exact ih base.name (base_mem_refs (mem_of_find hs) hbase) k t hk
  · obtain ⟨field, hfield, heq⟩ := List.mem_map.mp hk
    obtain ⟨-, rfl⟩ := Prod.mk.inj heq
    exact closed_field (mem_of_find hs) hfield

theorem exists_hasType_of_names {t : CppType}
    (h : ∀ n ∈ t.names, ∃ v, ss.HasType (.named n) v) : ∃ v, ss.HasType t v := by
  cases t with
  | prim p =>
    cases p with
    | string => exact ⟨_, .prim (.string [])⟩
    | boolean => exact ⟨_, .prim (.boolean false)⟩
    | integer format =>
      refine ⟨_, .prim (.integer (i := 0) ?_ ?_)⟩ <;> cases format <;> decide
  | vector t => exact ⟨.vector [], .vector (by simp)⟩
  | named n => exact h n (List.mem_singleton_self n)

theorem exists_hasType_struct : ∀ n ∈ ss.names, ∃ v, ss.HasType (.named n) v := by
  refine ss.wellScoped.induction fun s n hs ih => ?_
  have hs : ss.find n = some s := hs
  obtain ⟨bases, hbases⟩ := exists_forall₂ (l := s.allOf_bases)
    (R := fun base v => ss.HasType (baseType base) v) fun base hbase => by
      rw [ss.bases s (mem_of_find hs) base hbase]
      exact ih base.name (base_mem_refs (mem_of_find hs) hbase)
  obtain ⟨fields, hfields⟩ := exists_forall₂ (l := s.fields)
    (R := fun field v => ss.HasType field.cppType v) fun field hfield =>
      exists_hasType_of_names fun m hm => ih m (field_names_refs hfield m hm)
  exact ⟨_, .struct hs hbases hfields⟩

theorem exists_value_of_encoded : ∀ n ∈ ss.names, ∀ o : Record Str Json,
    List.Forall₂ (ss.EncodedMember codec) (ss.members n) o → o.keys.Nodup →
    ∃ v, ss.HasType (.named n) v ∧ ss.structFrom codec n v = some (.obj o) := by
  refine ss.wellScoped.induction fun s n hs ih o ho hnd => ?_
  have hs : ss.find n = some s := hs
  have hmem : s ∈ ss.structs := mem_of_find hs
  rw [members_eq hs] at ho
  obtain ⟨oB, oF, rfl, hoB, hoF⟩ := forall₂_append_left ho
  obtain ⟨us, rfl, hus⟩ := forall₂_flatMap_left hoB
  -- the bases: a value for the part of each
  have hbases : List.Forall₂ (fun base part => ∃ v,
      baseType base = .named base.name ∧ ss.HasType (.named base.name) v ∧
        ss.structFrom codec base.name v = some (.obj part))
      s.allOf_bases us := by
    refine forall₂_imp_mem hus fun base hbase part hpart h => ?_
    have hsub : part.Sublist us.flatten := List.sublist_flatten_of_mem hpart
    rw [Record.keys_append] at hnd
    have hnd' : (Record.keys part).Nodup :=
      (List.nodup_append.mp hnd).1.sublist (hsub.map Prod.fst)
    obtain ⟨v, hv⟩ := ih base.name (base_mem_refs hmem hbase) part h hnd'
    exact ⟨v, ss.bases s hmem base hbase, hv⟩
  obtain ⟨bs, hbs, rfl, hB⟩ := exists_triples hbases
  -- the members: the value in each entry
  rw [List.forall₂_map_left_iff] at hoF
  have hfields : List.Forall₂ (fun (field : Member) (e : Str × Json) => ∃ x, e.1 = field.name ∧
      ss.HasType field.cppType x ∧ ss.value_from codec field.cppType x = some e.2) s.fields oF :=
    hoF.imp fun field e ⟨he, x, hx⟩ => ⟨x, he, hx⟩
  obtain ⟨fs, hfs, rfl, hF⟩ := exists_triples hfields
  have hentries : fs.map (fun e => e.2.1) = fs.map fun e => (e.1.name, e.2.1.2) :=
    List.map_congr_left fun e he => Prod.ext (hF e he).1 rfl
  have hobj : (bs.map fun e => e.2.1).flatten = (bs.map fun e => (e.1, e.2.2, e.2.1)).flatMap
      fun e => e.2.2 := by
    rw [List.flatMap_map, List.flatMap_def]
  have hflds : fs.map (fun e => (e.1.name, e.2.1.2)) = (fs.map fun e => (e.1, e.2.2, e.2.1.2)).map
      fun e => (e.1.name, e.2.2) := by
    rw [List.map_map]
    rfl
  rw [hentries, hobj, hflds] at hnd ⊢
  refine ⟨_, ?_, encode_struct hs (List.map_map.trans hbs) (List.map_map.trans hfs) ?_ ?_ hnd⟩
  · refine .struct hs ?_ ?_
    · rw [← hbs, List.map_map]
      refine forall₂_map fun e he => ?_
      rw [(hB e he).1]
      exact (hB e he).2.1
    · rw [← hfs, List.map_map]
      exact forall₂_map fun e he => (hF e he).2.1
  · intro e he
    obtain ⟨e', he', rfl⟩ := List.mem_map.mp he
    rw [(hB e' he').1]
    exact (hB e' he').2.2
  · intro e he
    obtain ⟨e', he', rfl⟩ := List.mem_map.mp he
    exact (hF e' he').2.2

variable (init) in
theorem type_roundtrip (hcodec : codec.Lawful) (hdistinct : ss.DistinctMembers) {t : CppType}
    (ht : ss.Closed t) : ∀ v, ss.HasType t v →
      ∃ jv, ss.value_from codec t v = some jv ∧ ss.value_to codec init t jv = some v :=
  roundtrip_of_names hcodec fun n hn => encodes_struct hcodec hdistinct n (ht n hn)

theorem exists_hasType {t : CppType} (ht : ss.Closed t) : ∃ v, ss.HasType t v :=
  exists_hasType_of_names fun n hn => exists_hasType_struct n (ht n hn)

/-! ### What a type accepts -/

/-- The kind of JSON a type is encoded as. -/
def HasKind : CppType → Json → Prop
  | .prim .string, jv => ∃ s, jv = .str s
  | .prim .boolean, jv => ∃ b, jv = .bool b
  | .prim (.integer _), jv => ∃ i, jv = .int i
  | .vector _, jv => ∃ items, jv = .arr items
  | .named _, jv => ∃ o, jv = .obj o

theorem hasKind_value_from (hcodec : codec.KindExact) (hdistinct : ss.DistinctMembers) {t : CppType}
    {v : Value} {jv : Json} (ht : ss.Closed t) (hv : ss.HasType t v)
    (hjv : ss.value_from codec t v = some jv) : HasKind t jv := by
  cases hv with
  | prim hx =>
    obtain rfl := Option.some.inj hjv
    cases hx with
    | string s => exact ⟨s, hcodec.from_string s⟩
    | boolean b => exact ⟨b, hcodec.from_boolean b⟩
    | integer => exact ⟨_, hcodec.from_integer _⟩
  | vector =>
    obtain ⟨items, -, rfl⟩ := Option.map_eq_some_iff.mp hjv
    exact ⟨items, rfl⟩
  | @struct n s bases fields hs hb hf =>
    have henc : ∃ o, ss.Encodes codec (fun _ _ => .struct [] []) n (.struct bases fields) o :=
      encodes_struct hcodec.toLawful hdistinct n (names_of_find hs) _ (.struct hs hb hf)
    obtain ⟨o, ho⟩ := henc
    exact ⟨o, Option.some.inj (hjv.symm.trans ho.value_from)⟩

/-- **A type takes what it accepts.**  If `t` accepts `u`, some value of `u` is decoded by `t`. -/
theorem exists_accepted (hcodec : codec.KindExact) (hdistinct : ss.DistinctMembers) {t u : CppType}
    (h : ss.Accepts t u) (ht : ss.Closed t) (hu : ss.Closed u) :
    ∃ v jv w, ss.HasType u v ∧ ss.value_from codec u v = some jv ∧
      ss.value_to codec init t jv = some w := by
  -- when the type of the value is the one that decodes, any value does
  have hself : ∀ {t}, ss.Closed t → ∃ v jv w, ss.HasType t v ∧ ss.value_from codec t v = some jv ∧
      ss.value_to codec init t jv = some w := by
    intro t ht
    obtain ⟨v, hv⟩ := exists_hasType ht
    obtain ⟨jv, hfrom, hto⟩ := type_roundtrip init hcodec.toLawful hdistinct ht v hv
    exact ⟨v, jv, v, hv, hfrom, hto⟩
  induction h with
  | string => exact hself ht
  | boolean => exact hself ht
  | integer f g =>
    have hzero : ∀ format, (PrimitiveValue.integer 0).HasType (.integer format) := fun format =>
      .integer (by cases format <;> decide) (by cases format <;> decide)
    refine ⟨.prim (.integer 0), _, .prim (.integer 0), .prim (hzero g), rfl, ?_⟩
    show (codec.value_to (.integer f) (codec.value_from (.integer 0))).map Value.prim = _
    rw [hcodec.roundtrip (hzero f)]
    rfl
  | vector t u => exact ⟨.vector [], .arr [], .vector [], .vector (by simp), rfl, rfl⟩
  | @skip n t hnamed =>
    -- nothing is read of a value that is no object
    obtain ⟨v, jv, -, hv, hfrom, -⟩ := hself hu
    have hkind := hasKind_value_from hcodec hdistinct hu hv hfrom
    have hnone : jv.if_object = none := by
      cases t with
      | prim p => cases p <;> (obtain ⟨x, rfl⟩ := hkind; rfl)
      | vector t => obtain ⟨items, rfl⟩ := hkind; rfl
      | named m => exact absurd rfl (hnamed m)
    obtain ⟨w, hw⟩ := (structTo_isSome_iff codec init n (closed_named.mp ht) jv).mpr
      fun k t _ fld hfld => by simp [hnone] at hfld
    exact ⟨v, jv, w, hv, hfrom, hw⟩
  | @struct n m hmembers ih =>
    have hn := closed_named.mp ht
    have hm := closed_named.mp hu
    -- an entry for every member of `m`, of which `n` reads what it knows
    have hentries : ∃ o, List.Forall₂ (fun (mem : Str × CppType) e => ss.EncodedMember codec mem e ∧
        ∀ t, (mem.1, t) ∈ ss.members n → ∃ w, ss.value_to codec init t e.2 = some w)
        (ss.members m) o := by
      refine exists_forall₂ fun mem hmem => ?_
      obtain ⟨k, u⟩ := mem
      have hu' := closed_member m hm k u hmem
      by_cases hk : ∃ t, (k, t) ∈ ss.members n
      · obtain ⟨t, hkt⟩ := hk
        obtain ⟨v, jv, w, hv, hfrom, hto⟩ := ih k t u hkt hmem (closed_member n hn k t hkt) hu'
        refine ⟨(k, jv), ⟨rfl, v, hv, hfrom⟩, fun t' hkt' => ?_⟩
        have htt : t' = t := congrArg Prod.snd
          (List.inj_on_of_nodup_map (hdistinct n hn) hkt' hkt rfl)
        exact ⟨w, htt ▸ hto⟩
      · obtain ⟨v, jv, -, hv, hfrom, -⟩ := hself hu'
        exact ⟨(k, jv), ⟨rfl, v, hv, hfrom⟩, fun t' hkt' => absurd ⟨t', hkt'⟩ hk⟩
    obtain ⟨o, ho⟩ := hentries
    have hencoded : List.Forall₂ (ss.EncodedMember codec) (ss.members m) o := ho.imp fun _ _ h => h.1
    have hnd : (Record.keys o).Nodup := by
      rw [keys_of_encodedMembers codec hencoded]
      exact hdistinct m hm
    obtain ⟨v, hv, hfrom⟩ := exists_value_of_encoded m hm o hencoded hnd
    have hdecodes : ∃ w, ss.structTo codec init n (.obj o) = some w := by
      refine (structTo_isSome_iff codec init n hn (.obj o)).mpr fun k t hkt fld hfld => ?_
      obtain ⟨mem, hmem, ⟨hkey, -⟩, hto⟩ := forall₂_exists_left ho (k, fld) (Record.mem_of_find hfld)
      exact hto t (by rw [← hkey]; exact hkt)
    obtain ⟨w, hw⟩ := hdecodes
    exact ⟨v, .obj o, w, hv, hfrom, hw⟩

/-- The decoder of `t` takes the JSON of no value of a type that `t` does not accept. -/
def Discerns (ss : StructSet) (codec : PrimitiveCodec) (init : StructType → Member → Value)
    (t : CppType) : Prop :=
  ∀ u v jv w, ss.Closed u → ss.HasType u v → ss.value_from codec u v = some jv →
    ss.value_to codec init t jv = some w → ss.Accepts t u

theorem discerns_of_names (hcodec : codec.KindExact) (hdistinct : ss.DistinctMembers) {t : CppType}
    (h : ∀ n ∈ t.names, ss.Discerns codec init (.named n)) : ss.Discerns codec init t := by
  cases t with
  | named n => exact h n (List.mem_singleton_self n)
  | vector t =>
    intro u v jv w hu hv hfrom hto
    have hkind := hasKind_value_from hcodec hdistinct hu hv hfrom
    cases u with
    | vector u => exact .vector t u
    | named m => obtain ⟨o, rfl⟩ := hkind; simp [value_to, typeValueTo] at hto
    | prim p => cases p <;> (obtain ⟨x, rfl⟩ := hkind; simp [value_to, typeValueTo] at hto)
  | prim p =>
    intro u v jv w hu hv hfrom hto
    have hkind := hasKind_value_from hcodec hdistinct hu hv hfrom
    obtain ⟨x, hx, -⟩ := Option.map_eq_some_iff.mp hto
    cases p with
    | string =>
      obtain ⟨s, rfl⟩ := hcodec.to_string jv x hx
      rcases u with (_ | _ | _) | _ | _ <;> first | exact .string | simp [HasKind] at hkind
    | boolean =>
      obtain ⟨b, rfl⟩ := hcodec.to_boolean jv x hx
      rcases u with (_ | _ | _) | _ | _ <;> first | exact .boolean | simp [HasKind] at hkind
    | integer format =>
      rcases hcodec.to_integer format jv x hx with ⟨i, rfl⟩ | ⟨text, rfl⟩
      · rcases u with (_ | _ | g) | _ | _ <;> first | exact .integer format g | simp [HasKind] at hkind
      · rcases u with (_ | _ | _) | _ | _ <;> simp [HasKind] at hkind

theorem discerns_struct (hcodec : codec.KindExact) (hdistinct : ss.DistinctMembers) :
    ∀ n ∈ ss.names, ss.Discerns codec init (.named n) ∧
      ∀ k t, (k, t) ∈ ss.members n → ss.Discerns codec init t := by
  refine ss.wellScoped.induction fun s n hs ih => ?_
  have hs : ss.find n = some s := hs
  have hmem : s ∈ ss.structs := mem_of_find hs
  have hmembers : ∀ k t, (k, t) ∈ ss.members n → ss.Discerns codec init t := by
    intro k t hk
    rw [members_eq hs] at hk
    rcases List.mem_append.mp hk with hk | hk
    · obtain ⟨base, hbase, hk⟩ := List.mem_flatMap.mp hk
      exact (ih base.name (base_mem_refs hmem hbase)).2 k t hk
    · obtain ⟨field, hfield, heq⟩ := List.mem_map.mp hk
      obtain ⟨-, rfl⟩ := Prod.mk.inj heq
      exact discerns_of_names hcodec hdistinct fun m hm => (ih m (field_names_refs hfield m hm)).1
  refine ⟨fun u v jv w hu hv hfrom hto => ?_, hmembers⟩
  cases u with
  | prim p => exact .skip n (by simp)
  | vector u => exact .skip n (by simp)
  | named m =>
    have hm : m ∈ ss.names := closed_named.mp hu
    have henc : ∃ o, ss.Encodes codec init m v o := encodes_struct hcodec.toLawful hdistinct m hm v hv
    obtain ⟨o, ho⟩ := henc
    obtain rfl : jv = .obj o := Option.some.inj (hfrom.symm.trans ho.value_from)
    have hnd : o.keys.Nodup := by
      rw [keys_of_encodedMembers codec ho.members]
      exact hdistinct m hm
    refine .struct fun k t u hkt hku => ?_
    -- the entry of the common member is read with its type in `n`
    obtain ⟨⟨k', fld⟩, he, hkey, x, hx, hfld⟩ := forall₂_exists_right ho.members (k, u) hku
    obtain rfl : k' = k := hkey
    have hdec := (structTo_isSome_iff codec init n (names_of_find hs) (.obj o)).mp ⟨w, hto⟩
    obtain ⟨w', hw'⟩ := hdec k' t hkt fld (Record.find_of_mem hnd he)
    exact hmembers k' t hkt u x fld w' (closed_member m hm k' u hku) hx hfld hw'

/-- **A type takes nothing else.**  A decoder that takes the JSON of a value of `u` accepts `u`. -/
theorem accepts_of_decodes (hcodec : codec.KindExact) (hdistinct : ss.DistinctMembers) {t u : CppType}
    (ht : ss.Closed t) (hu : ss.Closed u) {v w : Value} {jv : Json} (hv : ss.HasType u v)
    (hfrom : ss.value_from codec u v = some jv) (hto : ss.value_to codec init t jv = some w) :
    ss.Accepts t u :=
  discerns_of_names hcodec hdistinct (fun n hn => (discerns_struct hcodec hdistinct n (ht n hn)).1)
    u v jv w hu hv hfrom hto

/-! ### Round trips of variants -/

theorem variantValueTo_eq_some {alternatives : List TypeRef} {jv : Json} {val : VariantValue} :
    ss.variantValueTo codec init alternatives jv = some val ↔
      (∃ alt, alternatives[val.index]? = some alt ∧
        ss.value_to codec init (alternativeType alt) jv = some val.value) ∧
      ∀ i < val.index, ∀ alt, alternatives[i]? = some alt →
        ss.value_to codec init (alternativeType alt) jv = none := by
  rw [← firstSome_eq_some]
  unfold variantValueTo
  constructor
  · intro h
    obtain ⟨⟨i, v⟩, hfirst, rfl⟩ := Option.map_eq_some_iff.mp h
    exact hfirst
  · intro h
    rw [h]
    rfl

/-- **Values of a variant round-trip exactly when no alternative accepts a later one.** -/
theorem variant_roundtrip_iff (codec : PrimitiveCodec) (init : StructType → Member → Value)
    (ss : StructSet) (alternatives : List TypeRef) (hcodec : codec.KindExact)
    (hdistinct : ss.DistinctMembers)
    (hclosed : ∀ alt ∈ alternatives, ss.Closed (alternativeType alt)) :
    (∀ val, ss.VariantHasType alternatives val →
        (ss.variantValueFrom codec alternatives val).bind (ss.variantValueTo codec init alternatives) =
          some val) ↔
      alternatives.Pairwise fun earlier later =>
        ¬ ss.Accepts (alternativeType earlier) (alternativeType later) := by
  rw [List.pairwise_iff_getElem]
  constructor
  · -- an alternative that accepts a later one takes one of its values
    intro hround i j hi hj hij haccepts
    have hclosedi := hclosed alternatives[i] (List.getElem_mem hi)
    have hclosedj := hclosed alternatives[j] (List.getElem_mem hj)
    have hstolen : ∃ v jv w, ss.HasType (alternativeType alternatives[j]) v ∧
        ss.value_from codec (alternativeType alternatives[j]) v = some jv ∧
          ss.value_to codec init (alternativeType alternatives[i]) jv = some w :=
      exists_accepted hcodec hdistinct haccepts hclosedi hclosedj
    obtain ⟨v, jv, w, hv, hfrom, hto⟩ := hstolen
    have hj' : alternatives[j]? = some alternatives[j] := List.getElem?_eq_getElem hj
    have hback := hround ⟨j, v⟩ ⟨_, hj', hv⟩
    have hval : ss.variantValueFrom codec alternatives ⟨j, v⟩ = some jv := by
      simp [variantValueFrom, hj', hfrom]
    rw [hval, Option.bind_some] at hback
    have hnone := (variantValueTo_eq_some.mp hback).2 i hij alternatives[i]
      (List.getElem?_eq_getElem hi)
    simp [hto] at hnone
  · rintro hpair ⟨j, v⟩ ⟨alt, halt, hv⟩
    have hj : j < alternatives.length := (List.getElem?_eq_some_iff.mp halt).1
    obtain rfl : alternatives[j] = alt := (List.getElem?_eq_some_iff.mp halt).2
    have hclosedj := hclosed alternatives[j] (List.getElem_mem hj)
    obtain ⟨jv, hfrom, hto⟩ := type_roundtrip init hcodec.toLawful hdistinct hclosedj v hv
    have hval : ss.variantValueFrom codec alternatives ⟨j, v⟩ = some jv := by
      simp [variantValueFrom, halt, hfrom]
    rw [hval, Option.bind_some, variantValueTo_eq_some]
    refine ⟨⟨_, halt, hto⟩, fun i hij alt hi => ?_⟩
    have hi' : i < alternatives.length := (List.getElem?_eq_some_iff.mp hi).1
    obtain rfl : alternatives[i] = alt := (List.getElem?_eq_some_iff.mp hi).2
    cases hw : ss.value_to codec init (alternativeType alternatives[i]) jv with
    | none => rfl
    | some w =>
      have hclosedi := hclosed alternatives[i] (List.getElem_mem hi')
      exact absurd (accepts_of_decodes hcodec hdistinct hclosedi hclosedj hv hfrom hw)
        (hpair i j hi' hj hij)

end StructSet

/-! ### Instances -/

theorem exactCodec_kindExact : exactCodec.KindExact where
  toLawful := exactCodec_lawful
  from_string _ := rfl
  from_boolean _ := rfl
  from_integer _ := rfl
  to_string jv x h := by cases jv <;> simp [exactCodec] at h ⊢
  to_boolean jv x h := by cases jv <;> simp [exactCodec] at h ⊢
  to_integer format jv x h := by cases jv <;> simp [exactCodec] at h ⊢

theorem variant_roundtrip_iff_petStructs :
    (∀ val, petStructs.VariantHasType [⟨"std::string".toList, true⟩, ⟨"Dog".toList, true⟩] val →
        (petStructs.variantValueFrom exactCodec
            [⟨"std::string".toList, true⟩, ⟨"Dog".toList, true⟩] val).bind
          (petStructs.variantValueTo exactCodec (fun _ _ => .prim (.integer 0))
            [⟨"std::string".toList, true⟩, ⟨"Dog".toList, true⟩]) = some val) ↔
      [⟨"std::string".toList, true⟩, ⟨"Dog".toList, true⟩].Pairwise fun earlier later =>
        ¬ petStructs.Accepts (alternativeType earlier) (alternativeType later) :=
  StructSet.variant_roundtrip_iff exactCodec (fun _ _ => .prim (.integer 0)) petStructs
    [⟨"std::string".toList, true⟩, ⟨"Dog".toList, true⟩] exactCodec_kindExact (by decide) (by decide)

def catOrDogStructs : StructSet where
  structs :=
    [{ name := "Dog".toList, fields := [{ name := "age".toList, type := ⟨"int32_t".toList, true⟩ }] },
     { name := "Cat".toList,
       fields := [{ name := "lives".toList, type := ⟨"int32_t".toList, true⟩ }] }]
  wellScoped := by decide
  bases := by decide

/-- A struct with the one integer member `i`. -/
def oneMember (i : ℤ) : Value := .struct [] [.prim (.integer i)]

theorem oneMember_hasType {n : Str} (h : n = "Dog".toList ∨ n = "Cat".toList) :
    catOrDogStructs.HasType (.named n) (oneMember 3) := by
  have hint : catOrDogStructs.HasType (.prim (.integer .Int32)) (.prim (.integer 3)) :=
    .prim (.integer (by decide) (by decide))
  rcases h with rfl | rfl
  · exact .struct rfl .nil (.cons hint .nil)
  · exact .struct rfl .nil (.cons hint .nil)

/-- In whatever order the two alternatives are emitted, the first decodes the object of the second:
the value comes back as the other animal, with a member that was never assigned. -/
theorem variant_of_structs_fails :
    (catOrDogStructs.VariantHasType [⟨"Cat".toList, true⟩, ⟨"Dog".toList, true⟩] ⟨1, oneMember 3⟩ ∧
      (catOrDogStructs.variantValueFrom exactCodec
          [⟨"Cat".toList, true⟩, ⟨"Dog".toList, true⟩] ⟨1, oneMember 3⟩).bind
        (catOrDogStructs.variantValueTo exactCodec (fun _ _ => .prim (.integer 0))
          [⟨"Cat".toList, true⟩, ⟨"Dog".toList, true⟩]) ≠ some ⟨1, oneMember 3⟩) ∧
    (catOrDogStructs.VariantHasType [⟨"Dog".toList, true⟩, ⟨"Cat".toList, true⟩] ⟨1, oneMember 3⟩ ∧
      (catOrDogStructs.variantValueFrom exactCodec
          [⟨"Dog".toList, true⟩, ⟨"Cat".toList, true⟩] ⟨1, oneMember 3⟩).bind
        (catOrDogStructs.variantValueTo exactCodec (fun _ _ => .prim (.integer 0))
          [⟨"Dog".toList, true⟩, ⟨"Cat".toList, true⟩]) ≠ some ⟨1, oneMember 3⟩) := by
  refine ⟨⟨⟨_, rfl, oneMember_hasType (.inl rfl)⟩, ?_⟩, ⟨_, rfl, oneMember_hasType (.inr rfl)⟩, ?_⟩
  · show some (VariantValue.mk 0 (oneMember 0)) ≠ some ⟨1, oneMember 3⟩
    simp
  · show some (VariantValue.mk 0 (oneMember 0)) ≠ some ⟨1, oneMember 3⟩
    simp

end Siesta
