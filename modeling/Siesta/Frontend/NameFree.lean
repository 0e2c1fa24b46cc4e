import Siesta.Frontend.Naming

/-!
# The schemas that are parsed the same under any name

The name a schema is parsed under is in its type, as the name of a struct or a variant, and in the names
of the structs the parser stores for the schemas inside.  `NameFree` schemas have no such structs, so two
parses of one of them, under two names, do the same to a state (`parseSchemaUpTo_nameFree`).
-/

namespace Siesta

open Lib JsonObject

/-! ### The schemas inside a schema -/

section

variable (ir : InvalidRead)

/-- The keys that make an object of a schema without a type. -/
def objectKeys : List Str := ["properties".toList, "allOf".toList, "additionalProperties".toList]

structure IsStruct (v : JsonObject) : Prop where
  kind : type_ ir v = .ok .object ∨
    type_ ir v = .ok .unknown ∧ ∃ key ∈ objectKeys, hasKey ir v key = .ok true
  oneOf : JsonObject.oneOf ir v = .ok []
  anyOf : JsonObject.anyOf ir v = .ok []

/-- The schema is parsed as a variant of these alternatives. -/
structure HasAlternatives (v : JsonObject) (alternatives : List Json) : Prop where
  kind : type_ ir v = .ok .object ∨ type_ ir v = .ok .unknown
  list : oneOf ir v = .ok alternatives ∨ oneOf ir v = .ok [] ∧ anyOf ir v = .ok alternatives

/-- `u` is parsed under a name that is made of the name of `v`. -/
inductive NamedInside (v : JsonObject) : JsonObject → Prop
  | items {u : JsonObject} (htype : type_ ir v = .ok .array) (hitems : items ir v = .ok u)
      (hinline : isRef ir u = .ok false) : NamedInside v u
  | alternative {alternatives : List Json} {item : Json} {u : JsonObject} {ref : TypeRef}
      (hvariant : HasAlternatives ir v alternatives) (hitem : item ∈ alternatives) (hu : ofElement item = .ok u)
      (href : extractTypeRef ir u = .ok ref) (hinline : ref.name = []) : NamedInside v u
  | property {props : List (Str × Json)} {p : Str × Json} (htype : type_ ir v = .ok .object)
      (hstruct : IsStruct ir v) (hprops : properties ir v = .ok props) (hp : p ∈ props)
      (hinline : isRef ir (ofMember p.2) = .ok false) : NamedInside v (ofMember p.2)
  | base {allOf : List Json} {item : Json} {u : JsonObject} (htype : type_ ir v = .ok .unknown)
      (hstruct : IsStruct ir v) (hallOf : JsonObject.allOf ir v = .ok allOf) (hitem : item ∈ allOf)
      (hu : ofElement item = .ok u) (hinline : isRef ir u = .ok false) : NamedInside v u

/-- If `u` is parsed as a struct, it is stored under a name that is made of the name of `v`. -/
inductive StoredInside (v : JsonObject) : JsonObject → Prop
  | named {u : JsonObject} (h : NamedInside ir v u) : StoredInside v u
  | property {props : List (Str × Json)} {p : Str × Json} (htype : type_ ir v = .ok .unknown)
      (hstruct : IsStruct ir v) (hprops : properties ir v = .ok props) (hp : p ∈ props)
      (hinline : isRef ir (ofMember p.2) = .ok false) : StoredInside v (ofMember p.2)

/-- No struct is stored under a name that is made of the name of the schema. -/
inductive NameFree : JsonObject → Prop
  | mk {v : JsonObject} (named : ∀ u, NamedInside ir v u → NameFree u)
      (stored : ∀ u, StoredInside ir v u → ¬ IsStruct ir u) : NameFree v

end

def SchemaType.unnamed : SchemaType → SchemaType
  | .struct t => .struct { t with name := [] }
  | .variant t => .variant { t with name := [] }
  | t => t

abbrev SameEffect {α β : Type} (c : ParseM α) (d : ParseM β) (Q : α → β → Prop) : Prop :=
  Lockstep (fun s t : ParseState => s = t) c d Q

section

variable {α β γ : Type}

theorem sameEffect_refl (c : ParseM α) : SameEffect c c fun a b => a = b := by
  rintro s t rfl
  cases c s <;> exact ⟨rfl, rfl⟩

theorem sameEffect_run (c : ParseM α) : SameEffect c c fun a _ => ∃ s s', c s = .ok a s' := by
  rintro s t rfl
  cases hrun : c s with
  | ok a s' => exact ⟨rfl, s, s', hrun⟩
  | error e s' => exact ⟨rfl, rfl⟩

theorem read_bind {x : Except Fault α} {a : α} (hx : x = .ok a) (f : α → ParseM β) :
    ((liftM x : ParseM α) >>= f) = f a := by
  subst hx
  rfl

theorem Lib.Lockstep.effect_read {x : Except Fault α} {f : α → ParseM β} {g : α → ParseM γ}
    {Q : β → γ → Prop} (h : ∀ a, x = .ok a → SameEffect (f a) (g a) Q) :
    SameEffect ((liftM x : ParseM α) >>= f) ((liftM x : ParseM α) >>= g) Q := by
  cases x with
  | ok a => exact h a rfl
  | error fault => rintro s t rfl; exact ⟨rfl, rfl⟩

end

/-! ### What is made of an inline type -/

theorem addInlineStruct_unnamed (raw : Str) {t u : StructType}
    (h : ({ t with name := [] } : StructType) = { u with name := [] }) :
    addInlineStruct raw t = addInlineStruct raw u := by
  have hnamed : ∀ n : Str, ({ t with name := n } : StructType) = { u with name := n } := fun n =>
    congrArg (fun w : StructType => { w with name := n }) h
  funext s
  simp only [addInlineStruct, hnamed]

section

variable {a b : SchemaType} (h : a.unnamed = b.unnamed)

include h

/-- The types are of one kind, and the same but for their names. -/
theorem unnamed_cases :
    (∃ t u, a = .struct t ∧ b = .struct u ∧ ({ t with name := [] } : StructType) = { u with name := [] }) ∨
      (∃ t u, a = .variant t ∧ b = .variant u ∧
        ({ t with name := [] } : VariantType) = { u with name := [] }) ∨
      (a = b ∧ (∀ t, a ≠ .struct t) ∧ ∀ t, a ≠ .variant t) := by
  cases a <;> cases b <;> simp_all [SchemaType.unnamed]

/-- The name a struct is stored under only matters if there is one. -/
theorem inlineMemberType_unnamed {raw raw' : Str} (hraw : raw = raw' ∨ ∀ t, a ≠ .struct t) :
    inlineMemberType raw a = inlineMemberType raw' b := by
  rcases unnamed_cases h with ⟨t, u, rfl, rfl, htu⟩ | ⟨t, u, rfl, rfl, -⟩ | ⟨rfl, hstruct, -⟩
  · obtain rfl := hraw.resolve_right fun hno => hno t rfl
    exact addInlineStruct_unnamed raw htu
  · rfl
  · cases a with
    | struct t => exact absurd rfl (hstruct t)
    | _ => rfl

theorem inlineElementType_unnamed {elem elem' : Str} (hstruct : ∀ t, a ≠ .struct t) :
    inlineElementType elem a = inlineElementType elem' b := by
  rcases unnamed_cases h with ⟨t, u, rfl, -⟩ | ⟨t, u, rfl, rfl, -⟩ | ⟨rfl, -, -⟩
  · exact absurd rfl (hstruct t)
  · rfl
  · cases a with
    | struct t => exact absurd rfl (hstruct t)
    | _ => rfl

theorem inlineAlternatives_unnamed {name name' : Str} (n : ℕ) (hstruct : ∀ t, a ≠ .struct t) :
    inlineAlternatives name n a = inlineAlternatives name' n b := by
  rcases unnamed_cases h with ⟨t, u, rfl, -⟩ | ⟨t, u, rfl, rfl, htu⟩ | ⟨rfl, -, -⟩
  · exact absurd rfl (hstruct t)
  · have halternatives := congrArg (fun w : VariantType => w.alternatives) htu
    dsimp only at halternatives
    rw [inlineAlternatives, inlineAlternatives, halternatives]
  · cases a with
    | struct t => exact absurd rfl (hstruct t)
    | _ => rfl

end

/-! ### One level of a schema -/

section

variable {ir : InvalidRead} {v : JsonObject} {parseInner : JsonObject → Str → ParseM SchemaType}

theorem parseProperty_effect {u : JsonObject} {inner inner' raw raw' prop_name : Str}
    (h : isRef ir u = .ok false → SameEffect (parseInner u inner) (parseInner u inner') fun a b =>
      a.unnamed = b.unnamed ∧ (raw = raw' ∨ ∀ t, a ≠ .struct t)) :
    SameEffect (parseProperty ir parseInner inner raw prop_name u)
      (parseProperty ir parseInner inner' raw' prop_name u) fun a b => a = b := by
  refine .effect_read fun description _ => ?_
  have htype : SameEffect (propertyType ir parseInner inner raw u) (propertyType ir parseInner inner' raw' u)
      fun a b => a = b := by
    refine .effect_read fun r hr => ?_
    cases r with
    | true => exact sameEffect_refl _
    | false =>
      refine (h hr).bind fun a b hab => ?_
      rw [inlineMemberType_unnamed hab.1 hab.2]
      refine (sameEffect_refl _).bind fun c d hcd => .pure ?_
      rw [hcd]
  exact htype.bind fun a b hab => .pure (by rw [hab])

theorem mapM_parseProperty_effect {props : List (Str × Json)} {inner inner' raw raw' : Str × Json → Str}
    (h : ∀ p ∈ props, isRef ir (ofMember p.2) = .ok false →
      SameEffect (parseInner (ofMember p.2) (inner p)) (parseInner (ofMember p.2) (inner' p)) fun a b =>
        a.unnamed = b.unnamed ∧ (raw p = raw' p ∨ ∀ t, a ≠ .struct t)) :
    SameEffect (props.mapM fun p => parseProperty ir parseInner (inner p) (raw p) p.1 (ofMember p.2))
      (props.mapM fun p => parseProperty ir parseInner (inner' p) (raw' p) p.1 (ofMember p.2))
      fun fields fields' => fields = fields' :=
  (Lockstep.mapM_forall₂ fun p hp => parseProperty_effect (h p hp)).post fun _ _ hfields =>
    List.forall₂_eq_eq_eq ▸ hfields

theorem buildVariant_effect {items : List Json} {name name' desc : Str}
    (h : ∀ item ∈ items, ∀ u ref, ofElement item = .ok u → extractTypeRef ir u = .ok ref → ref.name = [] →
      SameEffect (parseInner u (name ++ "_inline".toList)) (parseInner u (name' ++ "_inline".toList)) fun a b =>
        a.unnamed = b.unnamed ∧ ∀ t, a ≠ .struct t) :
    SameEffect (buildVariant ir parseInner items name desc) (buildVariant ir parseInner items name' desc)
      fun a b => a.unnamed = b.unnamed ∧ ∀ t, a ≠ .struct t := by
  have hloop : SameEffect (items.foldlM (parseAlternative ir parseInner name) [])
      (items.foldlM (parseAlternative ir parseInner name') []) fun a b => a = b := by
    refine .foldlM (fun item hitem alternatives alternatives' hsame => ?_) rfl
    subst hsame
    refine .effect_read fun u hu => .effect_read fun ref href => ?_
    split
    · exact .pure rfl
    · rename_i hname
      refine (h item hitem u ref hu href (by simpa using hname)).bind fun a b hab => ?_
      rw [inlineAlternatives_unnamed hab.1 _ hab.2]
      exact (sameEffect_refl _).bind fun c d hcd => .pure (by rw [hcd])
  refine hloop.bind fun alternatives alternatives' hsame => .pure ⟨?_, by simp⟩
  rw [hsame]
  rfl

theorem foldlM_parseBase_effect {items : List Json} {name name' : Str}
    (h : ∀ item ∈ items, ∀ u, ofElement item = .ok u → isRef ir u = .ok false → ∀ inline inline',
      SameEffect (parseInner u inline) (parseInner u inline') fun a b =>
        a.unnamed = b.unnamed ∧ ∀ t, a ≠ .struct t) :
    SameEffect (items.foldlM (parseBase ir parseInner name) [])
      (items.foldlM (parseBase ir parseInner name') []) fun bases bases' => bases = bases' := by
  refine .foldlM (fun item hitem bases bases' hsame => ?_) rfl
  subst hsame
  refine .effect_read fun u hu => .effect_read fun r hr => ?_
  cases r with
  | true => exact sameEffect_refl _
  | false =>
    refine (h item hitem u hu hr _ _).bind fun a b hab => ?_
    rcases unnamed_cases hab.1 with ⟨t, _, rfl, -⟩ | ⟨t, t', rfl, rfl, -⟩ | ⟨rfl, hstruct, -⟩
    · exact absurd rfl (hab.2 t)
    · exact .pure rfl
    · cases a with
      | struct t => exact absurd rfl (hstruct t)
      | _ => exact .pure rfl

/-- `parseObjectSchema` of a schema without alternatives. -/
def parseStructSchema (ir : InvalidRead) (parseInner : JsonObject → Str → ParseM SchemaType)
    (schema : JsonObject) (name desc : Str) : ParseM SchemaType := do
  let allOf ← schema.allOf ir
  let allOf_bases ← (allOf.foldlM (refBase ir) [] : Except Fault (List TypeRef))
  let props ← schema.properties ir
  let fields ← props.mapM fun p =>
    let child := name ++ ['_'] ++ p.1
    parseProperty ir parseInner child child p.1 (ofMember p.2)
  return .struct { name, fields, allOf_bases, description := desc }

theorem isStruct_of_keys {p a m : Bool} (htype : type_ ir v = .ok .unknown) (hone : oneOf ir v = .ok [])
    (hany : anyOf ir v = .ok []) (hp : hasKey ir v "properties".toList = .ok p)
    (ha : hasKey ir v "allOf".toList = .ok a) (hm : hasKey ir v "additionalProperties".toList = .ok m)
    (hkeys : (p || a || m) = true) : IsStruct ir v := by
  refine ⟨.inr ⟨htype, ?_⟩, hone, hany⟩
  simp only [Bool.or_eq_true] at hkeys
  rcases hkeys with (rfl | rfl) | rfl
  · exact ⟨_, by simp [objectKeys], hp⟩
  · exact ⟨_, by simp [objectKeys], ha⟩
  · exact ⟨_, by simp [objectKeys], hm⟩

/-- Only an object schema is parsed as a struct, in one of two ways. -/
theorem parseSchemaBody_structs {name : Str} {P : SchemaType → Prop}
    (hother : ∀ a, (∀ t, a ≠ .struct t) → P a)
    (hobject : IsStruct ir v → ∀ desc, SameEffect (parseStructSchema ir parseInner v name desc)
      (parseStructSchema ir parseInner v name desc) fun a _ => P a)
    (himplicit : IsStruct ir v → SameEffect (parseImplicitObject ir parseInner v name)
      (parseImplicitObject ir parseInner v name) fun a _ => P a) :
    SameEffect (parseSchemaBody ir parseInner v name) (parseSchemaBody ir parseInner v name) fun a _ => P a := by
  have hvariant : ∀ items desc, SameEffect (buildVariant ir parseInner items name desc)
      (buildVariant ir parseInner items name desc) fun a _ => P a := by
    intro items desc
    exact (sameEffect_refl (items.foldlM (parseAlternative ir parseInner name) [])).bind
      fun _ _ _ => .pure (hother _ (by simp))
  have hempty : ∀ {l : List Json}, ¬ (!l.isEmpty) = true → l = [] := by simp
  have hprimitive : SameEffect (liftM (parsePrimitiveSchema ir v) : ParseM SchemaType)
      (liftM (parsePrimitiveSchema ir v) : ParseM SchemaType) fun a _ => P a := by
    rintro s t rfl
    cases hread : parsePrimitiveSchema ir v with
    | error fault => exact ⟨rfl, rfl⟩
    | ok type =>
      obtain ⟨t, rfl⟩ := parsePrimitiveSchema_primitive hread
      exact ⟨rfl, hother _ (by simp)⟩
  refine .effect_read fun type htype => ?_
  cases type with
  | object =>
    refine .effect_read fun desc _ => .effect_read fun oneOf hone => .effect_read fun anyOf hany => ?_
    split
    · exact hvariant _ desc
    · rename_i hno
      obtain ⟨rfl, rfl⟩ : oneOf = [] ∧ anyOf = [] := by simpa using hno
      exact hobject ⟨.inl htype, hone, hany⟩ desc
  | unknown =>
    refine .effect_read fun desc _ => .effect_read fun oneOf hone => ?_
    split
    · exact hvariant oneOf desc
    · rename_i hno
      refine .effect_read fun anyOf hany => ?_
      split
      · exact hvariant anyOf desc
      · rename_i hno'
        refine .effect_read fun p hp => .effect_read fun a ha => .effect_read fun m hm => ?_
        split
        · rename_i hkeys
          exact himplicit (isStruct_of_keys htype (hempty hno ▸ hone) (hempty hno' ▸ hany) hp ha hm hkeys)
        · exact .pure (hother _ (by simp))
  | array =>
    refine .effect_read fun description _ => .effect_read fun items _ => .effect_read fun r _ => ?_
    split
    · exact .effect_read fun _ _ => .pure (hother _ (by simp))
    · refine (sameEffect_refl _).bind fun s s' hs => ?_
      subst hs
      refine (sameEffect_refl _).bind fun t t' ht => ?_
      subst ht
      exact (sameEffect_refl _).bind fun _ _ _ => .pure (hother _ (by simp))
  | null => exact .effect_read fun description _ => .pure (hother _ (by simp))
  | string => exact hprimitive
  | number => exact hprimitive
  | integer => exact hprimitive
  | boolean => exact hprimitive

theorem parseSchemaBody_struct (name : Str) :
    SameEffect (parseSchemaBody ir parseInner v name) (parseSchemaBody ir parseInner v name) fun a b =>
      a = b ∧ ((∃ t, a = .struct t) → IsStruct ir v) :=
  (sameEffect_refl _).and (parseSchemaBody_structs
    (fun _ hno hstruct => hstruct.elim fun t ht => absurd ht (hno t))
    (fun hstruct _ => (sameEffect_refl _).post fun _ _ _ _ => hstruct)
    fun hstruct => (sameEffect_refl _).post fun _ _ _ _ => hstruct)

-- The schemas inside: the name matters only to a struct, and to the structs in it.
variable (hself : ∀ u name, SameEffect (parseInner u name) (parseInner u name) fun a b =>
    a = b ∧ ((∃ t, a = .struct t) → IsStruct ir u))
  (hfree : ∀ u name name', NameFree ir u → SameEffect (parseInner u name) (parseInner u name') fun a b =>
    a.unnamed = b.unnamed ∧ ((∃ t, a = .struct t) → IsStruct ir u))

include hfree in
/-- A schema that is parsed under a name of `v`'s, and is not stored. -/
theorem parseInner_named (h : NameFree ir v) {u : JsonObject} (hu : NamedInside ir v u) (name name' : Str) :
    SameEffect (parseInner u name) (parseInner u name') fun a b =>
      a.unnamed = b.unnamed ∧ ∀ t, a ≠ .struct t := by
  obtain ⟨hnamed, hstored⟩ := h
  refine (hfree u name name' (hnamed u hu)).post fun a b hab => ⟨hab.1, fun t ht => ?_⟩
  exact hstored u (.named hu) (hab.2 ⟨t, ht⟩)

include hself hfree in
theorem parseSchemaBody_nameFree (h : NameFree ir v) (name name' : Str) :
    SameEffect (parseSchemaBody ir parseInner v name) (parseSchemaBody ir parseInner v name') fun a b =>
      a.unnamed = b.unnamed := by
  have hvariant : ∀ items desc, HasAlternatives ir v items →
      SameEffect (buildVariant ir parseInner items name desc) (buildVariant ir parseInner items name' desc)
        fun a b => a.unnamed = b.unnamed := by
    intro items desc hitems
    refine (buildVariant_effect fun item hitem u ref hu href hname => ?_).post fun a b hab => hab.1
    exact parseInner_named hfree h (.alternative hitems hitem hu href hname) _ _
  have hempty : ∀ {l : List Json}, ¬ (!l.isEmpty) = true → l = [] := by simp
  refine .effect_read fun type htype => ?_
  cases type with
  | object =>
    refine .effect_read fun desc _ => .effect_read fun oneOf hone => .effect_read fun anyOf hany => ?_
    split
    · by_cases hnil : oneOf = []
      · subst hnil
        exact hvariant anyOf desc ⟨.inl htype, .inr ⟨hone, hany⟩⟩
      · have hif : (if (!oneOf.isEmpty) = true then oneOf else anyOf) = oneOf := by simp [hnil]
        rw [hif]
        exact hvariant oneOf desc ⟨.inl htype, .inl hone⟩
    · rename_i hno
      obtain ⟨rfl, rfl⟩ : oneOf = [] ∧ anyOf = [] := by simpa using hno
      have hstruct : IsStruct ir v := ⟨.inl htype, hone, hany⟩
      refine .effect_read fun allOf _ => .effect_read fun bases _ => .effect_read fun props hprops => ?_
      refine (mapM_parseProperty_effect fun p hp hinline => ?_).bind fun fields fields' hsame => .pure ?_
      · exact (parseInner_named hfree h (.property htype hstruct hprops hp hinline) _ _).post
          fun a b hab => ⟨hab.1, .inr hab.2⟩
      · rw [hsame]
        rfl
  | unknown =>
    refine .effect_read fun desc _ => .effect_read fun oneOf hone => ?_
    split
    · exact hvariant oneOf desc ⟨.inr htype, .inl hone⟩
    · rename_i hno
      refine .effect_read fun anyOf hany => ?_
      split
      · exact hvariant anyOf desc ⟨.inr htype, .inr ⟨hempty hno ▸ hone, hany⟩⟩
      · rename_i hno'
        refine .effect_read fun p hp => .effect_read fun a ha => .effect_read fun m hm => ?_
        split
        · rename_i hkeys
          have hstruct := isStruct_of_keys htype (hempty hno ▸ hone) (hempty hno' ▸ hany) hp ha hm hkeys
          refine .effect_read fun description _ => .effect_read fun allOf hallOf => ?_
          refine (foldlM_parseBase_effect fun item hitem u hu hinline =>
            parseInner_named hfree h (.base htype hstruct hallOf hitem hu hinline)).bind
              fun bases bases' hbases => ?_
          refine .effect_read fun props hprops => ?_
          refine (mapM_parseProperty_effect fun p hp hinline => ?_).bind fun fields fields' hfields => .pure ?_
          · refine (hself _ _).post fun a b hab => ⟨congrArg _ hab.1, .inr fun t ht => ?_⟩
            obtain ⟨-, hstored⟩ := h
            exact hstored _ (.property htype hstruct hprops hp hinline) (hab.2 ⟨t, ht⟩)
          · rw [hbases, hfields]
            rfl
        · exact .pure rfl
  | array =>
    refine .effect_read fun description _ => .effect_read fun items hitems => .effect_read fun r hr => ?_
    cases r with
    | true => exact (sameEffect_refl _).post fun a b hab => by rw [hab]
    | false =>
      refine (sameEffect_refl _).bind fun s s' hs => ?_
      subst hs
      refine (parseInner_named hfree h (.items htype hitems hr) _ _).bind fun a b hab => ?_
      rw [inlineElementType_unnamed hab.1 hab.2]
      exact (sameEffect_refl _).bind fun c d hcd => .pure (by rw [hcd])
  | null => exact (sameEffect_refl _).post fun a b hab => by rw [hab]
  | string => exact (sameEffect_refl _).post fun a b hab => by rw [hab]
  | number => exact (sameEffect_refl _).post fun a b hab => by rw [hab]
  | integer => exact (sameEffect_refl _).post fun a b hab => by rw [hab]
  | boolean => exact (sameEffect_refl _).post fun a b hab => by rw [hab]

end

/-! ### The names of a schema -/

section

variable {ir : InvalidRead}

theorem parseSchemaUpTo_struct (fuel : ℕ) (v : JsonObject) (name : Str) :
    SameEffect (parseSchemaUpTo ir fuel v name) (parseSchemaUpTo ir fuel v name) fun a b =>
      a = b ∧ ((∃ t, a = .struct t) → IsStruct ir v) := by
  cases fuel with
  | zero => exact .throw
  | succ fuel => exact parseSchemaBody_struct name

/-- **The name of a schema is not in its type** but as the name of the type, and not in the AST, where
no struct is stored under a name made of it. -/
theorem parseSchemaUpTo_nameFree (fuel : ℕ) : ∀ (v : JsonObject) (name name' : Str), NameFree ir v →
    SameEffect (parseSchemaUpTo ir fuel v name) (parseSchemaUpTo ir fuel v name') fun a b =>
      a.unnamed = b.unnamed ∧ ((∃ t, a = .struct t) → IsStruct ir v) := by
  induction fuel with
  | zero => exact fun _ _ _ _ => .throw
  | succ fuel ih =>
    intro v name name' h
    have hsame : SameEffect (parseSchemaUpTo ir (fuel + 1) v name) (parseSchemaUpTo ir (fuel + 1) v name')
        fun a b => a.unnamed = b.unnamed :=
      parseSchemaBody_nameFree (parseSchemaUpTo_struct fuel) ih h name name'
    refine .mk (fun s t a s' hst hrun => ?_) fun s t e s' hst hrun => hsame.of_error hst hrun
    obtain ⟨b, t', hb, hst', hab⟩ := hsame.of_ok hst hrun
    obtain ⟨-, -, -, -, -, hstruct⟩ := (parseSchemaUpTo_struct (fuel + 1) v name).of_ok rfl hrun
    exact ⟨b, t', hb, hst', hab, hstruct⟩

end

end Siesta
