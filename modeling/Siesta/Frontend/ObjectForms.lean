import Siesta.Frontend.NameFree

/-!
# Objects with and without their type

`parseObjectSchema` and `parseImplicitObject` read the same fields of a schema, but the second one also
parses the inline members of `allOf`, and the schemas of the properties under the empty name.  So they
agree on a schema where neither matters: no struct is in an inline member, and no struct in a property is
stored under a name that is made of the property's (`objects_agree`).
-/

namespace Siesta

open Lib JsonObject

/-! ### Schemas that store nothing -/

/-- The program returns a value with `P`, and leaves the state as it was. -/
def OnlyReads {α : Type} (c : ParseM α) (P : α → Prop) : Prop := ∀ s, ∃ a, c s = .ok a s ∧ P a

namespace OnlyReads

variable {α β : Type} {c : ParseM α} {P : α → Prop}

theorem pure {a : α} (h : P a) : OnlyReads (Pure.pure a) P := fun _ => ⟨a, rfl, h⟩

theorem bind {f : α → ParseM β} {Q : β → Prop} (h : OnlyReads c P) (hf : ∀ a, P a → OnlyReads (f a) Q) :
    OnlyReads (c >>= f) Q := by
  intro s
  obtain ⟨a, hc, ha⟩ := h s
  obtain ⟨b, hb, hq⟩ := hf a ha s
  refine ⟨b, ?_, hq⟩
  change EStateM.bind c f s = _
  unfold EStateM.bind
  rw [hc]
  exact hb

theorem read {x : Except Fault α} {f : α → ParseM β} {Q : β → Prop} {a : α} (hx : x = .ok a)
    (h : OnlyReads (f a) Q) : OnlyReads ((liftM x : ParseM α) >>= f) Q := by
  subst hx
  exact h

theorem foldlM {γ : Type} {l : List γ} {f : α → γ → ParseM α} (h : ∀ x ∈ l, ∀ a, OnlyReads (f a x) fun _ => True)
    (a : α) : OnlyReads (l.foldlM f a) fun _ => True := by
  induction l generalizing a with
  | nil => exact pure trivial
  | cons x l ih =>
    rw [List.foldlM_cons]
    exact (h x (by simp) a).bind fun a' _ => ih (fun y hy => h y (by simp [hy])) a'

end OnlyReads

/-- The schema parses, and neither it nor a schema inside it is a struct. -/
inductive Structless (ir : InvalidRead) : JsonObject → Prop
  | null {v : JsonObject} (htype : type_ ir v = .ok .null) : Structless ir v
  | primitive {v : JsonObject} {kind : JsonSchemaType} {type : SchemaType} (htype : type_ ir v = .ok kind)
      (hkind : kind ∈ [.string, .integer, .number, .boolean])
      (hread : parsePrimitiveSchema ir v = .ok type) : Structless ir v
  | refArray {v u : JsonObject} (htype : type_ ir v = .ok .array) (hitems : items ir v = .ok u)
      (href : isRef ir u = .ok true) : Structless ir v
  | array {v u : JsonObject} (htype : type_ ir v = .ok .array) (hitems : items ir v = .ok u)
      (hinline : isRef ir u = .ok false) (inner : Structless ir u) : Structless ir v
  | variant {v : JsonObject} {alternatives : List Json} (hvariant : HasAlternatives ir v alternatives)
      (hsome : alternatives ≠ []) (hany : type_ ir v = .ok .object → ∃ l, anyOf ir v = .ok l)
      (hread : ∀ item ∈ alternatives, ∃ u ref, ofElement item = .ok u ∧ extractTypeRef ir u = .ok ref)
      (inner : ∀ item ∈ alternatives, ∀ u ref, ofElement item = .ok u → extractTypeRef ir u = .ok ref →
        ref.name = [] → Structless ir u) : Structless ir v
  | text {v : JsonObject} (htype : type_ ir v = .ok .unknown) (hone : oneOf ir v = .ok [])
      (hany : anyOf ir v = .ok []) (hkeys : ∀ key ∈ objectKeys, hasKey ir v key = .ok false) :
      Structless ir v

section

variable {ir : InvalidRead} {v : JsonObject}

theorem atKey_of_type {t : JsonSchemaType} (h : type_ ir v = .ok t) (key : Str) :
    ∃ r, atKey ir v key = .ok r := by
  cases v with
  | some members => exact ⟨_, rfl⟩
  | none =>
    cases ir with
    | crash => cases h
    | noSuchField => exact ⟨none, rfl⟩

theorem description_of_type {t : JsonSchemaType} (h : type_ ir v = .ok t) :
    ∃ d, description ir v = .ok d := by
  obtain ⟨r, hr⟩ := atKey_of_type h "description".toList
  exact ⟨_, by simp only [description, stringField, getValueIfExist, hr]; rfl⟩

theorem inlineAlternatives_onlyReads (name : Str) (n : ℕ) {type : SchemaType} (h : ∀ t, type ≠ .struct t) :
    OnlyReads (inlineAlternatives name n type) fun _ => True := by
  cases type with
  | struct t => exact absurd rfl (h t)
  | _ => exact .pure trivial

theorem inlineElementType_onlyReads (elem : Str) {type : SchemaType} (h : ∀ t, type ≠ .struct t) :
    OnlyReads (inlineElementType elem type) fun _ => True := by
  cases type with
  | struct t => exact absurd rfl (h t)
  | _ => exact .pure trivial

variable {parseInner : JsonObject → Str → ParseM SchemaType}

theorem buildVariant_onlyReads {items : List Json} {name desc : Str}
    (hread : ∀ item ∈ items, ∃ u ref, ofElement item = .ok u ∧ extractTypeRef ir u = .ok ref)
    (h : ∀ item ∈ items, ∀ u ref, ofElement item = .ok u → extractTypeRef ir u = .ok ref → ref.name = [] →
      OnlyReads (parseInner u (name ++ "_inline".toList)) fun type => ∀ t, type ≠ .struct t) :
    OnlyReads (buildVariant ir parseInner items name desc) fun type => ∀ t, type ≠ .struct t := by
  refine (OnlyReads.foldlM (fun item hitem alternatives => ?_) []).bind fun alternatives _ => .pure (by simp)
  obtain ⟨u, ref, hu, href⟩ := hread item hitem
  refine .read hu (.read href ?_)
  split
  · exact .pure trivial
  · rename_i hname
    refine (h item hitem u ref hu href (by simpa using hname)).bind fun type htype => ?_
    exact (inlineAlternatives_onlyReads _ _ htype).bind fun _ _ => .pure trivial

theorem HasAlternatives.depth_lt {alternatives : List Json} (h : HasAlternatives ir v alternatives)
    {item : Json} {u : JsonObject} (hitem : item ∈ alternatives) (hu : ofElement item = .ok u) :
    u.depth < v.depth := by
  rcases h.list with hone | ⟨-, hany⟩
  · exact depth_lt_of_inside (inside_of_listField hone hitem hu)
  · exact depth_lt_of_inside (inside_of_listField hany hitem hu)

/-- With and without a type, a schema with alternatives is a variant. -/
theorem parseSchemaBody_variant_onlyReads {alternatives : List Json} {name : Str} {P : SchemaType → Prop}
    (hvariant : HasAlternatives ir v alternatives) (hsome : alternatives ≠ [])
    (hany : type_ ir v = .ok .object → ∃ l, anyOf ir v = .ok l)
    (hbuild : ∀ desc, OnlyReads (buildVariant ir parseInner alternatives name desc) P) :
    OnlyReads (parseSchemaBody ir parseInner v name) P := by
  have hbool : (!alternatives.isEmpty) = true := by simpa using hsome
  obtain ⟨htype | htype, hlist⟩ := hvariant
  · obtain ⟨d, hd⟩ := description_of_type htype
    refine .read htype (.read hd ?_)
    rcases hlist with hone | ⟨hone, hany'⟩
    · obtain ⟨l, hl⟩ := hany htype
      refine .read hone (.read hl ?_)
      simp only [hbool, Bool.true_or, if_true]
      exact hbuild d
    · refine .read hone (.read hany' ?_)
      simp only [hbool, Bool.or_true, if_true, List.isEmpty_nil, Bool.not_true, Bool.false_eq_true, if_false]
      exact hbuild d
  · obtain ⟨d, hd⟩ := description_of_type htype
    refine .read htype (.read hd ?_)
    rcases hlist with hone | ⟨hone, hany'⟩
    · refine .read hone ?_
      simp only [hbool, if_true]
      exact hbuild d
    · refine .read hone (.read hany' ?_)
      simp only [hbool, if_true]
      exact hbuild d

theorem extractTypeRef_of_isRef {r : Bool} (h : isRef ir v = .ok r) : ∃ ref, extractTypeRef ir v = .ok ref := by
  unfold extractTypeRef
  unfold isRef at h ⊢
  cases href : JsonObject.ref ir v with
  | error fault => rw [href] at h; cases h
  | ok text => cases htext : (!text.isEmpty) <;> simp [bind, Except.bind, pure, Except.pure, htext]

end

/-- A schema without structs is parsed, and nothing is stored. -/
theorem Structless.onlyReads {ir : InvalidRead} {v : JsonObject} (h : Structless ir v) :
    ∀ (fuel : ℕ), v.depth < fuel → ∀ name : Str,
      OnlyReads (parseSchemaUpTo ir fuel v name) fun type => ∀ t, type ≠ .struct t := by
  induction h with
  | null htype =>
    intro fuel hfuel name
    obtain ⟨fuel, rfl⟩ := Nat.exists_eq_succ_of_ne_zero (by omega : fuel ≠ 0)
    obtain ⟨d, hd⟩ := description_of_type htype
    exact .read htype (.read hd (.pure (by simp)))
  | primitive htype hkind hread =>
    intro fuel hfuel name
    obtain ⟨fuel, rfl⟩ := Nat.exists_eq_succ_of_ne_zero (by omega : fuel ≠ 0)
    obtain ⟨t, rfl⟩ := parsePrimitiveSchema_primitive hread
    refine .read htype fun s => ⟨.primitive t, ?_, by simp⟩
    rcases (by simpa using hkind) with rfl | rfl | rfl | rfl <;>
      · show (liftM (parsePrimitiveSchema ir _) : ParseM SchemaType) s = _
        rw [hread]
        rfl
  | @refArray v u htype hitems href =>
    intro fuel hfuel name
    obtain ⟨fuel, rfl⟩ := Nat.exists_eq_succ_of_ne_zero (by omega : fuel ≠ 0)
    obtain ⟨d, hd⟩ := description_of_type htype
    refine .read htype (.read hd (.read hitems (.read href ?_)))
    obtain ⟨ref, href'⟩ := extractTypeRef_of_isRef href
    exact .read href' (.pure (by simp))
  | @array v u htype hitems hinline _ ih =>
    intro fuel hfuel name
    obtain ⟨fuel, rfl⟩ := Nat.exists_eq_succ_of_ne_zero (by omega : fuel ≠ 0)
    obtain ⟨d, hd⟩ := description_of_type htype
    obtain ⟨members, rfl⟩ := valid_of_type htype (by simp)
    have hdepth := depth_lt_of_inside (inside_of_objectField hitems)
    refine .read htype (.read hd (.read hitems (.read hinline ?_)))
    intro s
    refine ((ih fuel (by omega) _).bind fun type hno => ?_) s
    exact (inlineElementType_onlyReads _ hno).bind fun _ _ => .pure (by simp)
  | @variant v alternatives hvariant hsome hany hread _ ih =>
    intro fuel hfuel name
    obtain ⟨fuel, rfl⟩ := Nat.exists_eq_succ_of_ne_zero (by omega : fuel ≠ 0)
    refine parseSchemaBody_variant_onlyReads hvariant hsome hany fun desc => buildVariant_onlyReads hread ?_
    intro item hitem u ref hu href hname
    exact ih item hitem u ref hu href hname fuel (by have := hvariant.depth_lt hitem hu; omega) _
  | text htype hone hany hkeys =>
    intro fuel hfuel name
    obtain ⟨fuel, rfl⟩ := Nat.exists_eq_succ_of_ne_zero (by omega : fuel ≠ 0)
    obtain ⟨d, hd⟩ := description_of_type htype
    refine .read htype (.read hd (.read hone (.read hany ?_)))
    refine .read (hkeys _ (by simp [objectKeys])) (.read (hkeys _ (by simp [objectKeys])) ?_)
    exact .read (hkeys _ (by simp [objectKeys])) (.pure (by simp))

/-! ### The bases of a schema -/

section

variable {ir : InvalidRead} {v : JsonObject} {parseInner : JsonObject → Str → ParseM SchemaType}

/-- An inline member of `allOf` that stores nothing is as good as not looked at. -/
theorem parseBase_eq {item : Json} {name : Str} (bases : List TypeRef)
    (h : ∀ u, ofElement item = .ok u → isRef ir u = .ok false → ∀ inline,
      OnlyReads (parseInner u inline) fun type => ∀ t, type ≠ .struct t) :
    parseBase ir parseInner name bases item = (liftM (refBase ir bases item) : ParseM (List TypeRef)) := by
  funext s
  unfold parseBase refBase
  cases hu : ofElement item with
  | error fault => rfl
  | ok u =>
    cases hr : isRef ir u with
    | error fault =>
      simp only [bind, Except.bind, liftM, monadLift, MonadLift.monadLift, EStateM.bind, hr]
    | ok r =>
      cases r with
      | true =>
        obtain ⟨ref, href⟩ := extractTypeRef_of_isRef hr
        simp only [bind, Except.bind, liftM, monadLift, MonadLift.monadLift, EStateM.bind, hr, href]
        rfl
      | false =>
        obtain ⟨type, hrun, hno⟩ := h u hu hr (name ++ "_base_".toList ++ (toString bases.length).toList) s
        simp only [bind, Except.bind, liftM, monadLift, MonadLift.monadLift, hr, EStateM.bind,
          Bool.false_eq_true, if_false, hrun]
        cases type with
        | struct t => exact absurd rfl (hno t)
        | _ => rfl

theorem foldlM_parseBase_eq {items : List Json} {name : Str}
    (h : ∀ item ∈ items, ∀ u, ofElement item = .ok u → isRef ir u = .ok false → ∀ inline,
      OnlyReads (parseInner u inline) fun type => ∀ t, type ≠ .struct t) (bases : List TypeRef) :
    items.foldlM (parseBase ir parseInner name) bases =
      (liftM (items.foldlM (refBase ir) bases) : ParseM (List TypeRef)) := by
  induction items generalizing bases with
  | nil => rfl
  | cons item items ih =>
    rw [List.foldlM_cons, List.foldlM_cons, parseBase_eq bases (h item (by simp))]
    funext s
    cases hb : refBase ir bases item with
    | error fault => rfl
    | ok bases' => exact congrFun (ih (fun i hi => h i (by simp [hi])) bases') s

/-- An object schema without alternatives is parsed as a struct, if it is parsed. -/
theorem IsStruct.parsed (h : IsStruct ir v) (name : Str) :
    SameEffect (parseSchemaBody ir parseInner v name) (parseSchemaBody ir parseInner v name) fun a _ =>
      ∃ t, a = .struct t := by
  refine .effect_read fun type htype => ?_
  rcases h.kind with hobject | ⟨hunknown, key, hkey, hhas⟩
  · obtain rfl := Except.ok.inj (hobject.symm.trans htype)
    refine .effect_read fun desc _ => .effect_read fun oneOf hone => .effect_read fun anyOf hany => ?_
    obtain rfl := Except.ok.inj (h.oneOf.symm.trans hone)
    obtain rfl := Except.ok.inj (h.anyOf.symm.trans hany)
    refine .effect_read fun allOf _ => .effect_read fun bases _ => .effect_read fun props _ => ?_
    exact (sameEffect_refl _).bind fun _ _ _ => .pure ⟨_, rfl⟩
  · obtain rfl := Except.ok.inj (hunknown.symm.trans htype)
    refine .effect_read fun desc _ => .effect_read fun oneOf hone => ?_
    obtain rfl := Except.ok.inj (h.oneOf.symm.trans hone)
    refine .effect_read fun anyOf hany => ?_
    obtain rfl := Except.ok.inj (h.anyOf.symm.trans hany)
    refine .effect_read fun p hp => .effect_read fun a ha => .effect_read fun m hm => ?_
    have hkeys : (p || a || m) = true := by
      rcases (by simpa [objectKeys] using hkey) with rfl | rfl | rfl
      · simp [Except.ok.inj (hp.symm.trans hhas)]
      · simp [Except.ok.inj (ha.symm.trans hhas)]
      · simp [Except.ok.inj (hm.symm.trans hhas)]
    rw [if_pos hkeys]
    refine .effect_read fun desc _ => .effect_read fun allOf _ => ?_
    refine (sameEffect_refl _).bind fun _ _ _ => .effect_read fun props _ => ?_
    exact (sameEffect_refl _).bind fun _ _ _ => .pure ⟨_, rfl⟩

end

/-! ### With and without the type -/

section

variable (before after : Record Str Json)

def explicitObject : JsonObject := some (before ++ ("type".toList, .str "object".toList) :: after)

def implicitObject : JsonObject := some (before ++ after)

theorem depth_explicitObject : (explicitObject before after).depth = (implicitObject before after).depth := by
  have hmembers : ∀ l : Record Str Json, Json.depthMembers (l ++ ("type".toList, .str "object".toList) :: after) =
      Json.depthMembers (l ++ after) := by
    intro l
    induction l with
    | nil =>
      have hzero : Json.depthMember ("type".toList, .str "object".toList) = 0 := by
        simp [Json.depthMember, Json.depth]
      rw [List.nil_append, List.nil_append, Json.depthMembers, hzero, Nat.zero_max]
    | cons m l ih => rw [List.cons_append, List.cons_append, Json.depthMembers, Json.depthMembers, ih]
  rw [explicitObject, implicitObject, depth, depth, Json.depth, Json.depth, hmembers]

variable (ir : InvalidRead) {before after} {key : Str}

theorem find_explicitObject (hkey : key ≠ "type".toList) :
    Record.find (before ++ ("type".toList, .str "object".toList) :: after) key =
      Record.find (before ++ after) key := by
  induction before with
  | nil => rw [List.nil_append, List.nil_append, Record.find_cons, if_neg hkey]
  | cons e l ih => rw [List.cons_append, List.cons_append, Record.find_cons, Record.find_cons, ih]

theorem atKey_explicitObject (hkey : key ≠ "type".toList) :
    atKey ir (explicitObject before after) key = atKey ir (implicitObject before after) key :=
  congrArg Except.ok (find_explicitObject hkey)

theorem stringField_explicitObject (hkey : key ≠ "type".toList) :
    stringField ir (explicitObject before after) key = stringField ir (implicitObject before after) key := by
  rw [stringField, stringField, getValueIfExist, getValueIfExist, atKey_explicitObject ir hkey]

theorem listField_explicitObject (hkey : key ≠ "type".toList) :
    listField ir (explicitObject before after) key = listField ir (implicitObject before after) key := by
  rw [listField, listField, getObjectIfExist, getObjectIfExist, atKey_explicitObject ir hkey]

theorem mapField_explicitObject (hkey : key ≠ "type".toList) :
    mapField ir (explicitObject before after) key = mapField ir (implicitObject before after) key := by
  rw [mapField, mapField, getObjectIfExist, getObjectIfExist, atKey_explicitObject ir hkey]

variable (htype : Record.find (before ++ after) "type".toList = none)

include htype

theorem type_implicitObject : type_ ir (implicitObject before after) = .ok .unknown := by
  have hread : atKey ir (implicitObject before after) "type".toList = .ok none := congrArg Except.ok htype
  unfold type_ JsonObject.type
  rw [hread]
  rfl

theorem type_explicitObject : type_ ir (explicitObject before after) = .ok .object := by
  have hfind : Record.find (before ++ ("type".toList, .str "object".toList) :: after) "type".toList =
      some (.str "object".toList) := by
    induction before with
    | nil => rw [List.nil_append, Record.find_cons, if_pos rfl]
    | cons e l ih =>
      rw [List.cons_append, Record.find_cons] at htype ⊢
      split at htype
      · cases htype
      · rename_i hne
        rw [if_neg hne]
        exact ih htype
  have hread : atKey ir (explicitObject before after) "type".toList = .ok (some (.str "object".toList)) :=
    congrArg Except.ok hfind
  unfold type_ JsonObject.type
  rw [hread]
  rfl

end

/-- The members of `allOf` and the properties are read alike: no struct is in an inline member, and none in
an inline property is stored under a name made of the property's. -/
structure ObjectsFit (ir : InvalidRead) (v : JsonObject) : Prop where
  bases : ∀ allOf, JsonObject.allOf ir v = .ok allOf → ∀ item ∈ allOf, ∀ u, ofElement item = .ok u →
    isRef ir u = .ok false → Structless ir u
  properties : ∀ props, JsonObject.properties ir v = .ok props → ∀ p ∈ props,
    isRef ir (ofMember p.2) = .ok false → NameFree ir (ofMember p.2)

section

variable {ir : InvalidRead} {before after : Record Str Json}
  (htype : Record.find (before ++ after) "type".toList = none)
  (hone : oneOf ir (implicitObject before after) = .ok [])
  (hany : anyOf ir (implicitObject before after) = .ok [])
  (hkeys : hasKey ir (implicitObject before after) "properties".toList = .ok true ∨
    hasKey ir (implicitObject before after) "allOf".toList = .ok true)

include htype hone hany

theorem parseSchemaBody_explicit {desc : Str} (hd : description ir (implicitObject before after) = .ok desc)
    (parseInner : JsonObject → Str → ParseM SchemaType) (name : Str) :
    parseSchemaBody ir parseInner (explicitObject before after) name =
      parseStructSchema ir parseInner (implicitObject before after) name desc := by
  have hdesc : description ir (explicitObject before after) = .ok desc :=
    (stringField_explicitObject ir (by decide)).trans hd
  have hone' : oneOf ir (explicitObject before after) = .ok [] :=
    (listField_explicitObject ir (by decide)).trans hone
  have hany' : anyOf ir (explicitObject before after) = .ok [] :=
    (listField_explicitObject ir (by decide)).trans hany
  have hall : allOf ir (explicitObject before after) = allOf ir (implicitObject before after) :=
    listField_explicitObject ir (by decide)
  have hprops : properties ir (explicitObject before after) = properties ir (implicitObject before after) :=
    mapField_explicitObject ir (by decide)
  unfold parseSchemaBody
  rw [read_bind (type_explicitObject ir htype)]
  dsimp only
  unfold parseObjectSchema parseStructSchema
  rw [read_bind hdesc, read_bind hone', read_bind hany', hall, hprops]
  rfl

include hkeys

theorem parseSchemaBody_implicit (parseInner : JsonObject → Str → ParseM SchemaType) (name : Str) :
    parseSchemaBody ir parseInner (implicitObject before after) name =
      parseImplicitObject ir parseInner (implicitObject before after) name := by
  have hunknown := type_implicitObject ir htype
  obtain ⟨desc, hd⟩ := description_of_type hunknown
  have hread : ∀ key, ∃ b, hasKey ir (implicitObject before after) key = .ok b := by
    intro key
    obtain ⟨r, hr⟩ := atKey_of_type hunknown key
    exact ⟨r.isSome, by rw [hasKey, hr]; rfl⟩
  obtain ⟨p, hp⟩ := hread "properties".toList
  obtain ⟨a, ha⟩ := hread "allOf".toList
  obtain ⟨m, hm⟩ := hread "additionalProperties".toList
  have hor : (p || a || m) = true := by
    rcases hkeys with hk | hk
    · simp [Except.ok.inj (hp.symm.trans hk)]
    · simp [Except.ok.inj (ha.symm.trans hk)]
  unfold parseSchemaBody
  rw [read_bind hunknown]
  dsimp only
  unfold parseUnknownSchema
  rw [read_bind hd, read_bind hone, if_neg (by simp), read_bind hany, if_neg (by simp), read_bind hp,
    read_bind ha, read_bind hm, if_pos hor]

end

section

variable {ir : InvalidRead} {before after : Record Str Json}
  (htype : Record.find (before ++ after) "type".toList = none)
  (hone : oneOf ir (implicitObject before after) = .ok [])
  (hany : anyOf ir (implicitObject before after) = .ok [])
  (hkeys : hasKey ir (implicitObject before after) "properties".toList = .ok true ∨
    hasKey ir (implicitObject before after) "allOf".toList = .ok true)

include htype hone hany hkeys

/-- Where the inline members and the names do not matter, the two parses are one. -/
theorem parseSchema_agree (h : ObjectsFit ir (implicitObject before after)) (name : Str) :
    SameEffect (parseSchema ir (explicitObject before after) name)
      (parseSchema ir (implicitObject before after) name) fun a b => a = b ∧ ∃ t, a = .struct t := by
  obtain ⟨desc, hd⟩ := description_of_type (type_implicitObject ir htype)
  unfold parseSchema
  rw [depth_explicitObject, parseSchemaUpTo, parseSchemaUpTo, parseSchemaBody_explicit htype hone hany hd,
    parseSchemaBody_implicit htype hone hany hkeys, parseStructSchema, parseImplicitObject, read_bind hd]
  refine .effect_read fun allOf hallOf => ?_
  rw [foldlM_parseBase_eq fun item hitem u hu hinline inline =>
    (h.bases allOf hallOf item hitem u hu hinline).onlyReads _
      (depth_lt_of_inside (inside_of_listField hallOf hitem hu)) inline]
  refine .effect_read fun bases _ => .effect_read fun props hprops => ?_
  refine (mapM_parseProperty_effect fun p hp hinline => ?_).bind fun fields fields' hfields => .pure ?_
  · have hfree := h.properties props hprops p hp hinline
    exact (parseSchemaUpTo_nameFree _ _ _ _ hfree).post fun a b hab => ⟨hab.1, .inl rfl⟩
  · rw [hfields]
    exact ⟨rfl, _, rfl⟩

end

/-! ### Inline structs among the bases -/

/-- The member of `allOf` is inline and a struct. -/
def InlineStruct (ir : InvalidRead) (item : Json) : Prop :=
  ∃ u, ofElement item = .ok u ∧ isRef ir u = .ok false ∧ IsStruct ir u

section

variable {ir : InvalidRead} {parseInner : JsonObject → Str → ParseM SchemaType}
  (hparsed : ∀ u name, IsStruct ir u →
    SameEffect (parseInner u name) (parseInner u name) fun a _ => ∃ t, a = .struct t)

include hparsed

/-- Looked at, a member of `allOf` adds no less than a reference does, and an inline struct adds more. -/
theorem parseBase_longer {item : Json} {name : Str} {bases bases' l : List TypeRef}
    (href : refBase ir bases item = .ok l) :
    SameEffect (parseBase ir parseInner name bases' item) (parseBase ir parseInner name bases' item)
      fun l' _ => ∃ k k', l.length = bases.length + k ∧ l'.length = bases'.length + k' ∧ k ≤ k' ∧
        (InlineStruct ir item → k < k') := by
  refine .effect_read fun u hu => .effect_read fun r hr => ?_
  have hread : refBase ir bases item = (isRef ir u >>= fun r => if r = true then do
      let base_ref ← extractTypeRef ir u
      return if base_ref.name.isEmpty then bases else bases ++ [base_ref]
    else return bases) := by
    rw [refBase, hu]
    rfl
  rw [hread, hr] at href
  cases r with
  | true =>
    have hno : ¬ InlineStruct ir item := by
      rintro ⟨w, hw, hinline, -⟩
      obtain rfl := Except.ok.inj (hu.symm.trans hw)
      exact Bool.noConfusion (Except.ok.inj (hr.symm.trans hinline))
    refine .effect_read fun ref href' => .pure ?_
    have hl : (do
        let base_ref ← extractTypeRef ir u
        return if base_ref.name.isEmpty then bases else bases ++ [base_ref] : Except Fault _) = .ok l := href
    rw [href'] at hl
    obtain rfl := Except.ok.inj hl
    split
    · exact ⟨0, 0, rfl, rfl, le_rfl, fun h => absurd h hno⟩
    · exact ⟨1, 1, by simp, by simp, le_rfl, fun h => absurd h hno⟩
  | false =>
    obtain rfl : bases = l := Except.ok.inj href
    have hstruct : SameEffect (parseInner u (name ++ "_base_".toList ++ (toString bases'.length).toList))
        (parseInner u (name ++ "_base_".toList ++ (toString bases'.length).toList))
        fun a b => a = b ∧ (InlineStruct ir item → ∃ t, a = .struct t) := by
      refine (sameEffect_refl _).and ?_
      by_cases h : InlineStruct ir item
      · obtain ⟨w, hw, -, hstruct⟩ := h
        obtain rfl := Except.ok.inj (hu.symm.trans hw)
        exact (hparsed _ _ hstruct).post fun a b hab _ => hab
      · exact (sameEffect_refl _).post fun _ _ _ hno => absurd hno h
    refine hstruct.bind fun a b hab => ?_
    obtain ⟨rfl, hkind⟩ := hab
    cases a with
    | struct t =>
      exact (sameEffect_refl _).bind fun _ _ _ => .pure ⟨0, 1, rfl, by simp, by omega, fun _ => by omega⟩
    | _ =>
      refine .pure ⟨0, 0, rfl, rfl, le_rfl, fun h => ?_⟩
      obtain ⟨t, ht⟩ := hkind h
      cases ht

theorem foldlM_parseBase_longer {items : List Json} {name : Str} {bases bases' l : List TypeRef}
    (href : items.foldlM (refBase ir) bases = .ok l) :
    SameEffect (items.foldlM (parseBase ir parseInner name) bases')
      (items.foldlM (parseBase ir parseInner name) bases')
      fun l' _ => ∃ k k', l.length = bases.length + k ∧ l'.length = bases'.length + k' ∧ k ≤ k' ∧
        ((∃ item ∈ items, InlineStruct ir item) → k < k') := by
  induction items generalizing bases bases' with
  | nil =>
    obtain rfl : bases = l := Except.ok.inj href
    exact .pure ⟨0, 0, rfl, rfl, le_rfl, by simp⟩
  | cons item items ih =>
    rw [List.foldlM_cons] at href
    rw [List.foldlM_cons]
    cases hstep : refBase ir bases item with
    | error fault => rw [hstep] at href; cases href
    | ok bases₁ =>
      rw [hstep] at href
      refine ((sameEffect_refl _).and (parseBase_longer hparsed hstep)).bind fun a b hab => ?_
      obtain ⟨rfl, k, k', hk, hk', hle, hlt⟩ := hab
      refine (ih href).post fun l' _ hl => ?_
      obtain ⟨m, m', hm, hm', hle', hlt'⟩ := hl
      refine ⟨k + m, k' + m', by omega, by omega, by omega, ?_⟩
      rintro ⟨i, hi, hstruct⟩
      rcases List.mem_cons.mp hi with rfl | hi
      · have := hlt hstruct
        omega
      · have := hlt' ⟨i, hi, hstruct⟩
        omega

end

section

variable {ir : InvalidRead} {before after : Record Str Json}
  (htype : Record.find (before ++ after) "type".toList = none)
  (hone : oneOf ir (implicitObject before after) = .ok [])
  (hany : anyOf ir (implicitObject before after) = .ok [])
  (hkeys : hasKey ir (implicitObject before after) "properties".toList = .ok true ∨
    hasKey ir (implicitObject before after) "allOf".toList = .ok true)

include htype hone hany

/-- With a type, the bases are the references of `allOf`. -/
theorem parseSchema_explicit_bases (name : Str) :
    SameEffect (parseSchema ir (explicitObject before after) name)
      (parseSchema ir (explicitObject before after) name) fun a _ =>
        ∃ t items, a = .struct t ∧ allOf ir (implicitObject before after) = .ok items ∧
          items.foldlM (refBase ir) [] = .ok t.allOf_bases := by
  obtain ⟨desc, hd⟩ := description_of_type (type_implicitObject ir htype)
  unfold parseSchema
  rw [parseSchemaUpTo, parseSchemaBody_explicit htype hone hany hd, parseStructSchema]
  refine .effect_read fun items hitems => .effect_read fun bases hbases => .effect_read fun props _ => ?_
  exact (sameEffect_refl _).bind fun _ _ _ => .pure ⟨_, items, rfl, hitems, hbases⟩

include hkeys

theorem parseSchema_implicit_bases {items : List Json} {bases : List TypeRef}
    (hitems : allOf ir (implicitObject before after) = .ok items)
    (hinline : ∃ item ∈ items, InlineStruct ir item) (hbases : items.foldlM (refBase ir) [] = .ok bases)
    (name : Str) :
    SameEffect (parseSchema ir (implicitObject before after) name)
      (parseSchema ir (implicitObject before after) name) fun b _ =>
        ∃ t, b = .struct t ∧ bases.length < t.allOf_bases.length := by
  have hparsed : ∀ fuel u name, IsStruct ir u →
      SameEffect (parseSchemaUpTo ir fuel u name) (parseSchemaUpTo ir fuel u name) fun a _ =>
        ∃ t, a = .struct t := by
    intro fuel u name hu
    cases fuel with
    | zero => exact .throw
    | succ fuel => exact hu.parsed name
  obtain ⟨desc, hd⟩ := description_of_type (type_implicitObject ir htype)
  unfold parseSchema
  rw [parseSchemaUpTo, parseSchemaBody_implicit htype hone hany hkeys, parseImplicitObject, read_bind hd,
    read_bind hitems]
  refine ((sameEffect_refl _).and (foldlM_parseBase_longer (hparsed _) hbases)).bind fun l l' hl =>
    .effect_read fun props _ => ?_
  obtain ⟨-, k, k', hk, hk', -, hlt⟩ := hl
  have hlt := hlt hinline
  refine (sameEffect_refl _).bind fun _ _ _ => .pure ⟨_, rfl, ?_⟩
  show bases.length < l.length
  simp only [List.length_nil] at hk hk'
  omega

end

/-! ### The two parses -/

/-- The two parses return the same struct and leave the same types, or fail alike. -/
def SameOutcome (r r' : EStateM.Result Stop ParseState SchemaType) : Prop :=
  match r, r' with
  | .ok a s, .ok b s' => a = b ∧ (∃ t, a = .struct t) ∧ ∀ n, s.ast.getType n = s'.ast.getType n
  | .error e s, .error e' s' => e = e' ∧ ∀ n, s.ast.getType n = s'.ast.getType n
  | _, _ => False

theorem SameOutcome.of_effect {c d : ParseM SchemaType}
    (h : SameEffect c d fun a b => a = b ∧ ∃ t, a = .struct t) (s : ParseState) : SameOutcome (c s) (d s) := by
  cases hc : c s with
  | ok a s' =>
    obtain ⟨b, t', hd, rfl, rfl, hstruct⟩ := h.of_ok rfl hc
    rw [hd]
    exact ⟨rfl, hstruct, fun _ => rfl⟩
  | error e s' =>
    obtain ⟨t', hd, rfl⟩ := h.of_error rfl hc
    rw [hd]
    exact ⟨rfl, fun _ => rfl⟩

/-- **With and without its type, an object schema is parsed the same**, where it has no structs in inline
members of `allOf`, and none that are stored under a name made of a property's.  With an inline struct
among the members, no two parses agree. -/
theorem objects_agree (ir : InvalidRead) (before after : Record Str Json)
    (htype : Record.find (before ++ after) "type".toList = none)
    (hone : oneOf ir (implicitObject before after) = .ok [])
    (hany : anyOf ir (implicitObject before after) = .ok [])
    (hkeys : hasKey ir (implicitObject before after) "properties".toList = .ok true ∨
      hasKey ir (implicitObject before after) "allOf".toList = .ok true) :
    (ObjectsFit ir (implicitObject before after) → ∀ name s,
      SameOutcome (parseSchema ir (explicitObject before after) name s)
        (parseSchema ir (implicitObject before after) name s)) ∧
    ((∃ items, allOf ir (implicitObject before after) = .ok items ∧ ∃ item ∈ items, InlineStruct ir item) →
      ∀ name s t s', parseSchema ir (implicitObject before after) name s = .ok t s' →
        ¬ SameOutcome (parseSchema ir (explicitObject before after) name s)
          (parseSchema ir (implicitObject before after) name s)) := by
  constructor
  · intro hfit name s
    exact .of_effect (parseSchema_agree htype hone hany hkeys hfit name) s
  · rintro ⟨items, hitems, hinline⟩ name s t s' hrun hsame
    rw [hrun] at hsame
    cases hexplicit : parseSchema ir (explicitObject before after) name s with
    | error e s₁ => rw [hexplicit] at hsame; exact hsame.elim
    | ok u s₁ =>
      rw [hexplicit] at hsame
      obtain ⟨rfl, -, -⟩ := hsame
      obtain ⟨-, -, -, -, w, items', hw, hitems', hbases⟩ :=
        (parseSchema_explicit_bases htype hone hany name).of_ok rfl hexplicit
      obtain rfl := Except.ok.inj (hitems.symm.trans hitems')
      obtain ⟨-, -, -, -, w', hw', hlt⟩ :=
        (parseSchema_implicit_bases htype hone hany hkeys hitems hinline hbases name).of_ok rfl hrun
      obtain rfl := SchemaType.struct.inj (hw.symm.trans hw')
      exact absurd hlt (lt_irrefl _)

/-- An order has a base and a place. -/
def orderMembers : Record Str Json :=
  [("allOf".toList, .arr [.obj [("$ref".toList, .str "#/components/schemas/Base".toList)]]),
    ("properties".toList, .obj [("place".toList, .obj [("type".toList, .str "object".toList)])])]

theorem objects_agree_order :
    SameOutcome (parseSchema .crash (explicitObject [] orderMembers) "Order".toList {})
      (parseSchema .crash (implicitObject [] orderMembers) "Order".toList {}) := by
  refine (objects_agree .crash [] orderMembers rfl rfl rfl (.inl rfl)).1 ⟨?_, ?_⟩ "Order".toList {}
  · intro items hitems item hitem u hu hinline
    obtain rfl := Except.ok.inj hitems
    obtain rfl := List.mem_singleton.mp hitem
    obtain rfl := Except.ok.inj hu
    cases hinline
  · intro props hprops p hp hinline
    obtain rfl := Except.ok.inj hprops
    obtain rfl := List.mem_singleton.mp hp
    have hinside : ∀ u, ¬ StoredInside .crash (ofMember (.obj [("type".toList, .str "object".toList)])) u := by
      intro u hu
      cases hu with
      | named hu =>
        cases hu with
        | items htype => cases htype
        | alternative hvariant hitem =>
          rcases hvariant.list with hone | ⟨-, hany⟩
          · obtain rfl := Except.ok.inj hone
            cases hitem
          · obtain rfl := Except.ok.inj hany
            cases hitem
        | property _ _ hprops hp =>
          obtain rfl := Except.ok.inj hprops
          cases hp
        | base htype => cases htype
      | property htype => cases htype
    exact ⟨fun u hu => absurd (.named hu) (hinside u), fun u hu => absurd hu (hinside u)⟩

def placeMembers : Record Str Json :=
  [("properties".toList, .obj [("place".toList, .obj [("type".toList, .str "object".toList),
    ("properties".toList, .obj [("point".toList, .obj [("type".toList, .str "object".toList)])])])])]

/-- The struct of the point is called `Order_place_point` or `_point`. -/
theorem object_forms_differ :
    ¬ SameOutcome (parseSchema .crash (explicitObject [] placeMembers) "Order".toList {})
      (parseSchema .crash (implicitObject [] placeMembers) "Order".toList {}) := by
  rintro ⟨-, -, htypes⟩
  have hpoint := htypes "_point".toList
  revert hpoint
  decide

end Siesta
