import Siesta.Frontend.ParserInvariant

/-!
# Where the structs of the AST come from

The parser stores the structs that it made of the schemas inside, and no others.  An invariant of its
state that storing such a struct keeps is therefore kept by all of the parser
(`parseSchemaUpTo_maintains`).  From this every struct of the AST has an origin: an object schema of the
document whose properties it has as members, under their sanitized names (`exists_origins`).
-/

namespace Siesta

open Lib JsonObject

/-! ### What storing a struct keeps -/

theorem Lib.Maintains.read_bind {α β : Type} {P : ParseState → Prop} {x : Except Fault α} {f : α → ParseM β}
    {Q : β → Prop} (h : ∀ a, x = .ok a → Maintains P (f a) Q) :
    Maintains P ((liftM x : ParseM α) >>= f) Q := by
  cases x with
  | ok a => exact h a rfl
  | error fault => exact fun s hs => ⟨le_rfl, hs⟩

theorem Lib.Maintains.read {α : Type} {P : ParseState → Prop} {x : Except Fault α} {Q : α → Prop}
    (h : ∀ a, x = .ok a → Q a) : Maintains P (liftM x : ParseM α) Q := by
  cases x with
  | ok a => exact fun s hs => ⟨le_rfl, hs, h a rfl⟩
  | error fault => exact fun s hs => ⟨le_rfl, hs⟩

section

variable {P : ParseState → Prop} {S : StructType → Prop}

-- Storing a struct of `S` keeps `P`.
variable (hstore : ∀ raw t, S t → Maintains P (addInlineStruct raw t) fun _ => True)

include hstore

theorem inlineMemberType_maintains (raw : Str) {type : SchemaType} (h : ∀ t, type = .struct t → S t) :
    Maintains P (inlineMemberType raw type) fun _ => True := by
  cases type with
  | struct t => exact hstore raw t (h t rfl)
  | primitive t => exact .pure trivial
  | array t => exact .pure trivial
  | map t => exact .pure trivial
  | variant t => exact .pure trivial
  | enum t => exact .pure trivial

theorem inlineElementType_maintains (elem_name : Str) {type : SchemaType}
    (h : ∀ t, type = .struct t → S t) :
    Maintains P (inlineElementType elem_name type) fun _ => True := by
  cases type with
  | struct t => exact hstore elem_name t (h t rfl)
  | primitive t => exact .pure trivial
  | array t => exact .pure trivial
  | map t => exact .pure trivial
  | variant t => exact .pure trivial
  | enum t => exact .pure trivial

theorem inlineAlternatives_maintains (name : Str) (n : ℕ) {type : SchemaType}
    (h : ∀ t, type = .struct t → S t) :
    Maintains P (inlineAlternatives name n type) fun _ => True := by
  cases type with
  | struct t => exact (hstore _ t (h t rfl)).bind fun _ _ => .pure trivial
  | primitive t => exact .pure trivial
  | array t => exact .pure trivial
  | map t => exact .pure trivial
  | variant t => exact .pure trivial
  | enum t => exact .pure trivial

section

variable {ir : InvalidRead} {o : JsonObject} {parseInner : JsonObject → Str → ParseM SchemaType}

-- The schemas inside are parsed so.
variable (hinner : ∀ v name, v.Inside o →
  Maintains P (parseInner v name) fun type => ∀ t, type = .struct t → S t)

include hinner

theorem parseProperty_maintains {v : JsonObject} (hv : v.Inside o) (inner raw prop_name : Str) :
    Maintains P (parseProperty ir parseInner inner raw prop_name v)
      fun m => m.name = sanitize prop_name := by
  have htype : Maintains P (propertyType ir parseInner inner raw v) fun _ => True := by
    refine .read_bind fun r _ => ?_
    split
    · exact .read fun _ _ => trivial
    · refine (hinner v inner hv).bind fun type htype => ?_
      exact (inlineMemberType_maintains hstore raw htype).bind fun _ _ => .pure trivial
  exact .read_bind fun _ _ => htype.bind fun _ _ => .pure rfl

theorem mapM_parseProperty_maintains {props : List (Str × Json)} (hprops : properties ir o = .ok props)
    (inner raw : Str × Json → Str) :
    Maintains P (props.mapM fun p => parseProperty ir parseInner (inner p) (raw p) p.1 (ofMember p.2))
      fun fields => List.Forall₂ (fun p field => field.name = sanitize p.1) props fields :=
  .mapM fun p hp =>
    parseProperty_maintains hstore hinner (inside_of_mapField hprops hp) (inner p) (raw p) p.1

theorem buildVariant_maintains {items : List Json} {key : Str} (hitems : listField ir o key = .ok items)
    (name desc : Str) :
    Maintains P (buildVariant ir parseInner items name desc) fun type => ∃ t, type = .variant t := by
  have hloop : Maintains P (items.foldlM (parseAlternative ir parseInner name) []) fun _ => True := by
    refine .foldlM (fun item hitem alternatives _ => ?_) trivial
    refine .read_bind fun alt halt => .read_bind fun alt_ref _ => ?_
    split
    · exact .pure trivial
    · refine (hinner alt _ (inside_of_listField hitems hitem halt)).bind fun type htype => ?_
      exact (inlineAlternatives_maintains hstore name _ htype).bind fun _ _ => .pure trivial
  exact hloop.bind fun _ _ => .pure ⟨_, rfl⟩

/-- The members of the struct are the properties of the schema, under their sanitized names. -/
def HasProperties (ir : InvalidRead) (o : JsonObject) (t : StructType) : Prop :=
  ∃ props, properties ir o = .ok props ∧
    List.Forall₂ (fun p field => field.name = sanitize p.1) props t.fields

omit hstore hinner in
theorem hasProperties_of_variant {type : SchemaType} (h : ∃ t, type = .variant t) (t : StructType)
    (ht : type = .struct t) : HasProperties ir o t := by
  obtain ⟨v, rfl⟩ := h
  cases ht

theorem parseObjectSchema_maintains (name : Str) :
    Maintains P (parseObjectSchema ir parseInner o name)
      fun type => ∀ t, type = .struct t → HasProperties ir o t := by
  refine .read_bind fun desc _ => .read_bind fun oneOf hone => .read_bind fun anyOf hany => ?_
  split
  · split
    · exact (buildVariant_maintains hstore hinner hone name desc).post fun _ => hasProperties_of_variant
    · exact (buildVariant_maintains hstore hinner hany name desc).post fun _ => hasProperties_of_variant
  · refine .read_bind fun allOf _ => .read_bind fun bases _ => .read_bind fun props hprops => ?_
    refine (mapM_parseProperty_maintains hstore hinner hprops _ _).bind fun fields hfields =>
      .pure fun t ht => ?_
    obtain rfl := SchemaType.struct.inj ht
    exact ⟨props, hprops, hfields⟩

theorem parseImplicitObject_maintains (name : Str) :
    Maintains P (parseImplicitObject ir parseInner o name)
      fun type => ∀ t, type = .struct t → HasProperties ir o t := by
  refine .read_bind fun description _ => .read_bind fun allOf hall => ?_
  have hbases : Maintains P (allOf.foldlM (parseBase ir parseInner name) []) fun _ => True := by
    refine .foldlM (fun item hitem bases _ => ?_) trivial
    refine .read_bind fun v hv => .read_bind fun r _ => ?_
    split
    · exact .read_bind fun _ _ => .pure trivial
    · refine (hinner v _ (inside_of_listField hall hitem hv)).bind fun type htype => ?_
      cases type with
      | struct t => exact (hstore t.name t (htype t rfl)).bind fun _ _ => .pure trivial
      | primitive t => exact .pure trivial
      | array t => exact .pure trivial
      | map t => exact .pure trivial
      | variant t => exact .pure trivial
      | enum t => exact .pure trivial
  refine hbases.bind fun bases _ => .read_bind fun props hprops => ?_
  refine (mapM_parseProperty_maintains hstore hinner hprops _ _).bind fun fields hfields =>
    .pure fun t ht => ?_
  obtain rfl := SchemaType.struct.inj ht
  exact ⟨props, hprops, hfields⟩

theorem parseUnknownSchema_maintains (name : Str) :
    Maintains P (parseUnknownSchema ir parseInner o name)
      fun type => ∀ t, type = .struct t → HasProperties ir o t := by
  refine .read_bind fun desc _ => .read_bind fun oneOf hone => ?_
  split
  · exact (buildVariant_maintains hstore hinner hone name desc).post fun _ => hasProperties_of_variant
  · refine .read_bind fun anyOf hany => ?_
    split
    · exact (buildVariant_maintains hstore hinner hany name desc).post fun _ => hasProperties_of_variant
    · refine .read_bind fun p _ => .read_bind fun a _ => .read_bind fun m _ => ?_
      split
      · exact parseImplicitObject_maintains hstore hinner name
      · exact .pure fun t ht => by cases ht

theorem parseArraySchema_maintains {members : Record Str Json} (ho : o = some members) (name : Str) :
    Maintains P (parseArraySchema ir parseInner o name) fun type => ∃ t, type = .array t := by
  refine .read_bind fun description _ => .read_bind fun items hitems => .read_bind fun r _ => ?_
  have hin : items.Inside o := by
    subst ho
    exact inside_of_objectField hitems
  split
  · exact .read_bind fun _ _ => .pure ⟨_, rfl⟩
  · refine Maintains.get.bind fun st _ => (hinner items _ hin).bind fun type htype => ?_
    exact (inlineElementType_maintains hstore _ htype).bind fun _ _ => .pure ⟨_, rfl⟩

variable (ir) in
/-- One level of the parser: what storing a struct keeps is kept, and a struct it returns has the
properties of the schema. -/
theorem parseSchemaBody_maintains (name : Str) :
    Maintains P (parseSchemaBody ir parseInner o name)
      fun type => ∀ t, type = .struct t → HasProperties ir o t := by
  refine .read_bind fun type htype => ?_
  have hprim : Maintains P (liftM (parsePrimitiveSchema ir o) : ParseM SchemaType)
      fun type => ∀ t, type = .struct t → HasProperties ir o t := by
    refine .read fun type h t ht => ?_
    obtain ⟨u, rfl⟩ := parsePrimitiveSchema_primitive h
    cases ht
  cases type with
  | object => exact parseObjectSchema_maintains hstore hinner name
  | array =>
    obtain ⟨members, ho⟩ := valid_of_type htype (by simp)
    refine (parseArraySchema_maintains hstore hinner ho name).post fun type h t ht => ?_
    obtain ⟨u, rfl⟩ := h
    cases ht
  | unknown => exact parseUnknownSchema_maintains hstore hinner name
  | null => exact .read_bind fun description _ => .pure fun t ht => by cases ht
  | _ => exact hprim

end

variable {ir : InvalidRead}

variable (ir) in
/-- **What storing a struct keeps, the parser keeps.**  `S` holds of every struct the parser makes of a
schema of `V`. -/
theorem parseSchemaUpTo_maintains {V : JsonObject → Prop} (hV : ∀ v o, v.Inside o → V o → V v)
    (hS : ∀ fuel o name s t s', V o → parseSchemaUpTo ir fuel o name s = .ok (.struct t) s' → S t) :
    ∀ fuel o name, V o →
      Maintains P (parseSchemaUpTo ir fuel o name) fun type => ∀ t, type = .struct t → S t := by
  intro fuel
  induction fuel with
  | zero => exact fun o name _ s hs => ⟨le_rfl, hs⟩
  | succ fuel ih =>
    intro o name ho
    have hbody := parseSchemaBody_maintains hstore ir (o := o)
      (fun v name hv => ih v name (hV v o hv ho)) name
    refine Ensures.mk (fun s type s' hs hrun => ?_) fun s e s' hs hrun => hbody.of_error hs hrun
    obtain ⟨hle, hP, -⟩ := hbody.of_ok hs hrun
    refine ⟨hle, hP, fun t ht => ?_⟩
    exact hS (fuel + 1) o name s t s' ho (ht ▸ hrun)

end

/-! ### The whole document -/

section

variable {ir : InvalidRead}

theorem inside_of_componentSchemas {spec : JsonObject} {schemas : List (Str × Json)}
    (h : componentSchemas ir spec = .ok schemas) {entry : Str × Json} (he : entry ∈ schemas) :
    (ofMember entry.2).Inside spec := by
  unfold componentSchemas at h
  cases hc : objectField ir spec "components".toList with
  | error fault => rw [hc] at h; cases h
  | ok components =>
    rw [hc] at h
    have hin : (ofMember entry.2).Inside components := inside_of_mapField h he
    cases spec with
    | some members => exact hin.trans (inside_of_objectField hc)
    | none =>
      obtain ⟨m, rfl, -⟩ := hin
      rcases getObjectIfExist_cases hc with hnone | ⟨v, hv, -⟩
      · cases hnone
      · cases ir <;> simp [atKey] at hv

section

variable {P : ParseState → Prop} {S : StructType → Prop}

variable (hstore : ∀ raw t, S t → Maintains P (addInlineStruct raw t) fun _ => True)
  (hadd : ∀ n type, (∀ t, type = .struct t → S t) → Maintains P (addComponent n type) fun _ => True)

include hstore hadd

/-- One component: what storing a struct and storing a component keep is kept. -/
theorem parseComponent_maintains {V : JsonObject → Prop} (hV : ∀ v o, v.Inside o → V o → V v)
    (hS : ∀ fuel o name s t s', V o → parseSchemaUpTo ir fuel o name s = .ok (.struct t) s' → S t)
    {entry : Str × Json} (hentry : V (ofMember entry.2)) (failed : List Str) :
    Maintains P (parseComponent ir failed entry) fun _ => True := by
  have hparse : Maintains P (parseSchema ir (ofMember entry.2) (sanitize entry.1))
      fun type => ∀ t, type = .struct t → S t :=
    parseSchemaUpTo_maintains hstore ir hV hS _ _ _ hentry
  have hbody : Maintains P
      (parseSchema ir (ofMember entry.2) (sanitize entry.1) >>= fun type => do
        addComponent (sanitize entry.1) type
        return failed)
      fun _ => True :=
    hparse.bind fun type htype => (hadd _ type htype).bind fun _ _ => .pure trivial
  refine Ensures.tryCatch hbody fun stop => ?_
  cases stop with
  | outOfFuel => exact Ensures.throw fun s hs => hs
  | fault f =>
    cases f with
    | exception => exact Maintains.pure trivial
    | terminate => exact Ensures.throw fun s hs => hs
    | crash => exact Ensures.throw fun s hs => hs

/-- What storing a struct and storing a component keep, all of `parseSchemas` keeps. -/
theorem parseSchemas_maintains {spec : JsonObject}
    (hS : ∀ fuel o name s t s', o.Inside spec →
      parseSchemaUpTo ir fuel o name s = .ok (.struct t) s' → S t) :
    Maintains P (parseSchemas ir spec) fun _ => True :=
  .read_bind fun _ hschemas => .foldlM (fun _ he failed _ =>
    parseComponent_maintains hstore hadd (V := fun o => o.Inside spec) (fun _ _ hv ho => hv.trans ho) hS
      (inside_of_componentSchemas hschemas he) failed) trivial

end

end

/-! ### Origins -/

section

variable {ir : InvalidRead}

/-- The parser makes the struct `t` of the schema `o`, but for the name. -/
def MadeFrom (ir : InvalidRead) (o : JsonObject) (t : StructType) : Prop :=
  ∃ fuel name s raw s', parseSchemaUpTo ir fuel o name s = .ok (.struct { t with name := raw }) s'

theorem addInlineStruct_le (raw : Str) (t : StructType) :
    Maintains (fun _ => True) (addInlineStruct raw t) fun _ => True := by
  intro s _
  unfold addInlineStruct
  by_cases hmem : sanitize raw ∈ s.added_types
  · simp only [hmem, if_true]
    exact ⟨⟨fun _ h => h, fun _ h => h, List.prefix_append _ _⟩, trivial, trivial⟩
  · simp only [hmem, if_false]
    exact ⟨⟨fun _ h => List.mem_cons_of_mem _ h, fun _ h => NormalizedAST.mem_addType.mpr (.inr h),
      List.prefix_append _ _⟩, trivial, trivial⟩

/-- The members of a struct are the properties of the schema it was made from. -/
theorem MadeFrom.hasProperties {o : JsonObject} {t : StructType} (h : MadeFrom ir o t) :
    HasProperties ir o t := by
  obtain ⟨fuel, name, s, raw, s', hrun⟩ := h
  have hstore : ∀ raw t, True → Maintains (fun _ => True) (addInlineStruct raw t) fun _ => True :=
    fun raw t _ => addInlineStruct_le raw t
  cases fuel with
  | zero => cases hrun
  | succ fuel =>
    have hbody := parseSchemaBody_maintains hstore ir (o := o)
      (fun v name _ => parseSchemaUpTo_maintains hstore ir (V := fun _ => True)
        (fun _ _ _ _ => trivial) (fun _ _ _ _ _ _ _ _ => trivial) fuel v name trivial) name
    obtain ⟨props, hprops, hfields⟩ := (hbody.of_ok trivial hrun).2.2 { t with name := raw } rfl
    exact ⟨props, hprops, hfields⟩

/-- `schemaOf` gives each struct of the AST a schema of the document it was made from. -/
def OriginOf (ir : InvalidRead) (doc : JsonObject) (ast : NormalizedAST) (schemaOf : Str → JsonObject) :
    Prop :=
  ∀ n t, ast.getType n = some (.struct t) → (schemaOf n).Inside doc ∧ MadeFrom ir (schemaOf n) t

def HasOrigins (ir : InvalidRead) (doc : JsonObject) (s : ParseState) : Prop :=
  ∀ n t, s.ast.getType n = some (.struct t) → ∃ o : JsonObject, o.Inside doc ∧ MadeFrom ir o t

theorem addInlineStruct_hasOrigins (doc : JsonObject) (raw : Str) (t : StructType)
    (ht : ∃ o : JsonObject, o.Inside doc ∧ MadeFrom ir o t) :
    Maintains (HasOrigins ir doc) (addInlineStruct raw t) fun _ => True := by
  refine Ensures.mk (fun s n s' hs hrun => ?_) fun s e s' hs hrun => ?_
  · refine ⟨((addInlineStruct_le raw t).of_ok trivial hrun).1, fun m u hm => ?_, trivial⟩
    unfold addInlineStruct at hrun
    simp only at hrun
    split at hrun
    · injection hrun with _ hs'
      rw [← hs'] at hm
      exact hs m u hm
    · injection hrun with _ hs'
      rw [← hs', NormalizedAST.getType_addType] at hm
      split at hm
      · obtain rfl := SchemaType.struct.inj (Option.some.inj hm)
        exact ht
      · exact hs m u hm
  · unfold addInlineStruct at hrun
    simp only at hrun
    split at hrun <;> cases hrun

theorem addComponent_hasOrigins {doc : JsonObject} {safe_name : Str} {type : SchemaType}
    (h : ∀ t, type = .struct t → ∃ o : JsonObject, o.Inside doc ∧ MadeFrom ir o t) :
    Maintains (HasOrigins ir doc) (addComponent safe_name type) fun _ => True := by
  intro s hs
  refine ⟨⟨fun _ h => h, fun _ h => NormalizedAST.mem_addType.mpr (.inr h), List.prefix_append _ _⟩,
    fun m u hm => ?_, trivial⟩
  rw [NormalizedAST.getType_addType] at hm
  split at hm
  · exact h u (Option.some.inj hm)
  · exact hs m u hm

/-- **Every struct of the AST was made from an object schema of the document.** -/
theorem exists_origins {spec : JsonObject} {failed : List Str} {s : ParseState}
    (hrun : parseSchemas ir spec {} = .ok failed s) : ∃ schemaOf, OriginOf ir spec s.ast schemaOf := by
  have hloop : Maintains (HasOrigins ir spec) (parseSchemas ir spec) fun _ => True :=
    parseSchemas_maintains (addInlineStruct_hasOrigins spec) (fun n type h => addComponent_hasOrigins h)
      fun fuel o name s t s' ho hrun => ⟨o, ho, fuel, name, s, t.name, s', hrun⟩
  have hinit : HasOrigins ir spec {} := fun n t h => by simp [NormalizedAST.getType] at h
  have hend : HasOrigins ir spec s := (hloop.of_ok hinit hrun).2.1
  have horigin : ∀ n, ∃ o : JsonObject, ∀ t, s.ast.getType n = some (.struct t) →
      o.Inside spec ∧ MadeFrom ir o t := by
    intro n
    by_cases h : ∃ t, s.ast.getType n = some (.struct t)
    · obtain ⟨t, ht⟩ := h
      obtain ⟨o, ho⟩ := hend n t ht
      refine ⟨o, fun u hu => ?_⟩
      obtain rfl := SchemaType.struct.inj (Option.some.inj (ht.symm.trans hu))
      exact ho
    · exact ⟨none, fun t ht => absurd ⟨t, ht⟩ h⟩
  choose schemaOf hschemaOf using horigin
  exact ⟨schemaOf, hschemaOf⟩

end

end Siesta
