import Siesta.Frontend.Origins
import Siesta.JsonSchema.PlainSchemas

/-!
# Records of plain data

A `DataSchema` is a schema that both halves of the repository read: an object with its `required` names and
with properties that are strings, booleans, integers or objects of the same kind.  The parser of the generator
makes a struct of it, and one of each object inside it (`DataSchema.parsed`); an integer becomes an `int32_t`.
-/

namespace Siesta

open Lib JsonObject JsonSchema

/-! ### The schemas -/

inductive DataSchema where
  | string
  | boolean
  | integer
  | record (required : List Str) (props : List (Str × DataSchema))

mutual

/-- The keywords of a schema. -/
def DataSchema.plain : DataSchema → PlainSchema
  | .string => [.type_ "string".toList]
  | .boolean => [.type_ "boolean".toList]
  | .integer => [.type_ "integer".toList]
  | .record required props =>
    [.type_ "object".toList, .required required, .properties (plainProperties props)]

def plainProperties : List (Str × DataSchema) → List (Str × PlainSchema)
  | [] => []
  | (name, D) :: props => (name, D.plain) :: plainProperties props

end

/-- The document of a schema, as the parser of the generator reads it. -/
def DataSchema.view (D : DataSchema) : JsonObject := ofMember D.plain.toJson

mutual

/-- The properties of an object have different names, which the generator does not change, and are not
required in vain. -/
def DataSchema.WellNamed : DataSchema → Prop
  | .record required props =>
    (props.map Prod.fst).Nodup ∧ (∀ name ∈ required, name ∈ props.map Prod.fst) ∧ PropertiesNamed props
  | _ => True

def PropertiesNamed : List (Str × DataSchema) → Prop
  | [] => True
  | (name, D) :: props => PlainName name ∧ D.WellNamed ∧ PropertiesNamed props

end

/-! ### The types -/

mutual

/-- The C++ type that stands for a schema, and the structs it names. -/
def TextOf (placed : List (Str × SchemaType)) : DataSchema → Str → Prop
  | .string, text => text = "std::string".toList
  | .boolean, text => text = "bool".toList
  | .integer, text => text = "int32_t".toList
  | .record _ props, text => ∃ t : StructType, (text, .struct t) ∈ placed ∧ t.allOf_bases = [] ∧
      FieldsOf placed props t.fields

/-- The members that stand for the properties of an object. -/
def FieldsOf (placed : List (Str × SchemaType)) : List (Str × DataSchema) → List Member → Prop
  | [], fields => fields = []
  | (name, D) :: props, fields => ∃ field rest, fields = field :: rest ∧ field.name = sanitize name ∧
      TextOf placed D field.type.name ∧ FieldsOf placed props rest

end

/-- What `parseSchema` makes of a schema. -/
def TypeOf (placed : List (Str × SchemaType)) : DataSchema → SchemaType → Prop
  | .string, type => type = .primitive { kind := .String }
  | .boolean, type => type = .primitive { kind := .Boolean }
  | .integer, type => type = .primitive { kind := .Integer }
  | .record _ props, type => ∃ t : StructType, type = .struct t ∧ t.allOf_bases = [] ∧
      FieldsOf placed props t.fields

section

variable {placed placed' : List (Str × SchemaType)}

mutual

theorem TextOf.mono : ∀ {D : DataSchema} {text : Str}, TextOf placed D text → placed <+: placed' →
    TextOf placed' D text
  | .string, _, htext, _ => htext
  | .boolean, _, htext, _ => htext
  | .integer, _, htext, _ => htext
  | .record _ _, _, ⟨t, ht, hbases, hfields⟩, hle => ⟨t, hle.subset ht, hbases, hfields.mono hle⟩

theorem FieldsOf.mono : ∀ {props : List (Str × DataSchema)} {fields : List Member},
    FieldsOf placed props fields → placed <+: placed' → FieldsOf placed' props fields
  | [], _, hfields, _ => hfields
  | (_, _) :: _, _, ⟨field, rest, hfields, hname, htext, hrest⟩, hle =>
    ⟨field, rest, hfields, hname, htext.mono hle, hrest.mono hle⟩

end

end

/-! ### What the parser does -/

section

variable {ir : InvalidRead}

theorem run_bind {α β : Type} {c : ParseM α} {f : α → ParseM β} {a : α} {s s' : ParseState}
    (h : c s = .ok a s') : (c >>= f) s = f a s' := by
  show EStateM.bind c f s = f a s'
  rw [EStateM.bind, h]

theorem run_tryCatch {α : Type} {c : ParseM α} {handle : Stop → ParseM α} {a : α} {s s' : ParseState}
    (h : c s = .ok a s') : (tryCatch c handle) s = .ok a s' := by
  show EStateM.tryCatch c handle s = .ok a s'
  rw [EStateM.tryCatch, h]

/-- The program returns, with a result of which `P` holds; what it places stands behind what was there. -/
def Yields {α : Type} (c : ParseM α) (P : α → List (Str × SchemaType) → Prop) (s : ParseState) : Prop :=
  ∃ a s', c s = .ok a s' ∧ s.placed <+: s'.placed ∧ P a s'.placed

theorem Yields.bind {α β : Type} {c : ParseM α} {f : α → ParseM β} {P : α → List (Str × SchemaType) → Prop}
    {Q : β → List (Str × SchemaType) → Prop} {s : ParseState} (hc : Yields c P s)
    (hf : ∀ a s', s.placed <+: s'.placed → P a s'.placed → Yields (f a) Q s') : Yields (c >>= f) Q s := by
  obtain ⟨a, s', hrun, hle, ha⟩ := hc
  obtain ⟨b, s'', hrun', hle', hb⟩ := hf a s' hle ha
  exact ⟨b, s'', (run_bind hrun).trans hrun', hle.trans hle', hb⟩

theorem Yields.read {α β : Type} {x : Except Fault α} {f : α → ParseM β}
    {Q : β → List (Str × SchemaType) → Prop} {a : α} {s : ParseState} (hx : x = .ok a)
    (h : Yields (f a) Q s) : Yields ((liftM x : ParseM α) >>= f) Q s := by
  subst hx
  exact h

theorem Yields.pure {α : Type} {a : α} {P : α → List (Str × SchemaType) → Prop} {s : ParseState}
    (h : P a s.placed) : Yields (Pure.pure a) P s := ⟨a, s, rfl, List.prefix_rfl, h⟩

theorem addInlineStruct_yields (raw : Str) (t : StructType) (s : ParseState) :
    Yields (addInlineStruct raw t)
      (fun n placed => ∃ t', (n, .struct t') ∈ placed ∧ t'.allOf_bases = t.allOf_bases ∧ t'.fields = t.fields)
      s := by
  have hmem : ∀ n, (n, SchemaType.struct { t with name := n }) ∈
      s.placed ++ [(n, SchemaType.struct { t with name := n })] := fun n =>
    List.mem_append_right _ (List.mem_singleton_self _)
  unfold Yields addInlineStruct
  dsimp only
  split
  · exact ⟨_, _, rfl, List.prefix_append _ _, _, hmem _, rfl, rfl⟩
  · exact ⟨_, _, rfl, List.prefix_append _ _, _, hmem _, rfl, rfl⟩

theorem inlineMemberType_yields {D : DataSchema} (raw : Str) {type : SchemaType} {s : ParseState}
    (h : TypeOf s.placed D type) :
    Yields (inlineMemberType raw type) (fun text placed => TextOf placed D text) s := by
  cases D with
  | string =>
    obtain rfl := h
    exact .pure rfl
  | boolean =>
    obtain rfl := h
    exact .pure rfl
  | integer =>
    obtain rfl := h
    exact .pure rfl
  | record required props =>
    obtain ⟨t, rfl, hbases, hfields⟩ := h
    obtain ⟨n, s', hrun, hle, t', ht', hbases', hfields'⟩ := addInlineStruct_yields raw t s
    refine ⟨n, s', hrun, hle, t', ht', hbases'.trans hbases, ?_⟩
    rw [hfields']
    exact hfields.mono hle

theorem description_view (D : DataSchema) : description ir D.view = .ok [] := by
  cases D <;> rfl

theorem isRef_view (D : DataSchema) : isRef ir D.view = .ok false := by
  cases D <;> rfl

/-- The parser calls itself for the properties of an object. -/
theorem parseSchemaUpTo_record (fuel : ℕ) (name : Str) (required : List Str) (props : List (Str × DataSchema)) :
    parseSchemaUpTo ir (fuel + 1) (DataSchema.record required props).view name = (do
      let fields ← (propertyMembers (plainProperties props)).mapM fun p =>
        let child := name ++ ['_'] ++ p.1
        parseProperty ir (parseSchemaUpTo ir fuel) child child p.1 (ofMember p.2)
      return .struct { name, fields }) := rfl

theorem parseProperty_yields {parseInner : JsonObject → Str → ParseM SchemaType} {D : DataSchema}
    (inner raw prop_name : Str) {s : ParseState}
    (hinner : Yields (parseInner D.view inner) (fun type placed => TypeOf placed D type) s) :
    Yields (parseProperty ir parseInner inner raw prop_name D.view)
      (fun field placed => field.name = sanitize prop_name ∧ TextOf placed D field.type.name) s := by
  have htype : Yields (propertyType ir parseInner inner raw D.view)
      (fun ref placed => TextOf placed D ref.name) s := by
    refine .read (isRef_view D) ?_
    rw [if_neg (by decide)]
    refine hinner.bind fun type s' _ htype => ?_
    exact (inlineMemberType_yields raw htype).bind fun text s'' _ htext => .pure htext
  refine .read (description_view D) ?_
  exact htype.bind fun ref s' _ href => .pure ⟨rfl, href⟩

mutual

/-- **The parser of the generator reads every data schema.** -/
theorem DataSchema.parsed : ∀ (D : DataSchema) (fuel : ℕ) (name : Str) (s : ParseState), D.view.depth < fuel →
    Yields (parseSchemaUpTo ir fuel D.view name) (fun type placed => TypeOf placed D type) s
  | .string, fuel, name, s, hfuel => by
    obtain ⟨fuel, rfl⟩ := Nat.exists_eq_succ_of_ne_zero (by omega : fuel ≠ 0)
    exact ⟨.primitive { kind := .String }, s, rfl, List.prefix_rfl, rfl⟩
  | .boolean, fuel, name, s, hfuel => by
    obtain ⟨fuel, rfl⟩ := Nat.exists_eq_succ_of_ne_zero (by omega : fuel ≠ 0)
    exact ⟨.primitive { kind := .Boolean }, s, rfl, List.prefix_rfl, rfl⟩
  | .integer, fuel, name, s, hfuel => by
    obtain ⟨fuel, rfl⟩ := Nat.exists_eq_succ_of_ne_zero (by omega : fuel ≠ 0)
    exact ⟨.primitive { kind := .Integer }, s, rfl, List.prefix_rfl, rfl⟩
  | .record required props, fuel, name, s, hfuel => by
    obtain ⟨fuel, rfl⟩ := Nat.exists_eq_succ_of_ne_zero (by omega : fuel ≠ 0)
    have hprops : properties ir (DataSchema.record required props).view =
        .ok (propertyMembers (plainProperties props)) := rfl
    have hdepth : ∀ m ∈ propertyMembers (plainProperties props), (ofMember m.2).depth < fuel := by
      intro m hm
      have := depth_lt_of_inside (inside_of_mapField hprops hm)
      omega
    rw [parseSchemaUpTo_record]
    exact (propertiesParsed props fuel name s hdepth).bind fun fields s' _ hfields => .pure ⟨_, rfl, rfl, hfields⟩

theorem propertiesParsed : ∀ (props : List (Str × DataSchema)) (fuel : ℕ) (name : Str) (s : ParseState),
    (∀ m ∈ propertyMembers (plainProperties props), (ofMember m.2).depth < fuel) →
    Yields ((propertyMembers (plainProperties props)).mapM fun p =>
        let child := name ++ ['_'] ++ p.1
        parseProperty ir (parseSchemaUpTo ir fuel) child child p.1 (ofMember p.2))
      (fun fields placed => FieldsOf placed props fields) s
  | [], _, _, _, _ => .pure rfl
  | (prop_name, D) :: props, fuel, name, s, hdepth => by
    show Yields (((prop_name, D.plain.toJson) :: propertyMembers (plainProperties props)).mapM _) _ s
    rw [List.mapM_cons]
    have hD : D.view.depth < fuel := hdepth (prop_name, D.plain.toJson) List.mem_cons_self
    refine (parseProperty_yields _ _ prop_name (D.parsed fuel _ s hD)).bind fun field s' _ hfield => ?_
    refine (propertiesParsed props fuel name s' fun m hm => hdepth m (List.mem_cons_of_mem _ hm)).bind
      fun rest s'' hle hrest => ?_
    exact .pure ⟨field, rest, rfl, hfield.1, hfield.2.mono hle, hrest⟩

end

/-! ### The components -/

/-- A component that is a record is stored as a struct. -/
theorem parseComponent_record (failed : List Str) (raw : Str) (required : List Str)
    (props : List (Str × DataSchema)) (s : ParseState) :
    Yields (parseComponent ir failed (raw, (DataSchema.record required props).plain.toJson))
      (fun _ placed => TextOf placed (.record required props) (sanitize raw)) s := by
  have hyields : Yields (parseSchema ir (DataSchema.record required props).view (sanitize raw))
      (fun type placed => TypeOf placed (.record required props) type) s :=
    (DataSchema.record required props).parsed _ (sanitize raw) s (Nat.lt_succ_self _)
  obtain ⟨type, s₁, hparse, hle, t, rfl, hbases, hfields⟩ := hyields
  have hbody : (do
      let type ← parseSchema ir (DataSchema.record required props).view (sanitize raw)
      addComponent (sanitize raw) type
      return failed : ParseM (List Str)) s = .ok failed
        { s₁ with
          ast := s₁.ast.addType (sanitize raw) (.struct t)
          placed := s₁.placed ++ [(sanitize raw, .struct t)] } := run_bind hparse
  have hrun : parseComponent ir failed (raw, (DataSchema.record required props).plain.toJson) s = .ok failed
      { s₁ with
        ast := s₁.ast.addType (sanitize raw) (.struct t)
        placed := s₁.placed ++ [(sanitize raw, .struct t)] } := run_tryCatch hbody
  have hplaced : s₁.placed <+: s₁.placed ++ [(sanitize raw, .struct t)] := List.prefix_append _ _
  exact ⟨failed, _, hrun, hle.trans hplaced, t, List.mem_append_right _ (List.mem_singleton_self _), hbases,
    hfields.mono hplaced⟩

theorem parseComponent_placed {failed failed' : List Str} {entry : Str × Json} {s s' : ParseState}
    (hrun : parseComponent ir failed entry s = .ok failed' s') : s.placed <+: s'.placed := by
  have hkeeps : Maintains (fun _ => True) (parseComponent ir failed entry) fun _ => True :=
    parseComponent_maintains (S := fun _ => True) (fun raw t _ => addInlineStruct_le raw t)
      (fun n type _ s _ => ⟨⟨fun _ h => h, fun _ h => NormalizedAST.mem_addType.mpr (.inr h),
        List.prefix_append _ _⟩, trivial, trivial⟩)
      (V := fun _ => True) (fun _ _ _ _ => trivial) (fun _ _ _ _ _ _ _ _ => trivial) trivial failed
  exact (hkeeps.of_ok trivial hrun).1.2.2

/-- **The structs of a document.**  In a run of the parser, every component that is a record is stored as a
struct, and so is every object inside it. -/
theorem records_placed {spec : JsonObject} {failed : List Str} {s : ParseState}
    (hrun : parseSchemas ir spec {} = .ok failed s) {schemas : List (Str × Json)}
    (hschemas : componentSchemas ir spec = .ok schemas) {raw : Str} {required : List Str}
    {props : List (Str × DataSchema)} (hentry : (raw, (DataSchema.record required props).plain.toJson) ∈ schemas) :
    TextOf s.placed (.record required props) (sanitize raw) := by
  have hloop : schemas.foldlM (parseComponent ir) [] ({} : ParseState) = .ok failed s := by
    unfold parseSchemas at hrun
    rw [hschemas] at hrun
    exact hrun
  have key : ∀ (rest : List (Str × Json)) (before : List Str) (s₀ : ParseState),
      rest.foldlM (parseComponent ir) before s₀ = .ok failed s →
        s₀.placed <+: s.placed ∧ ((raw, (DataSchema.record required props).plain.toJson) ∈ rest →
          TextOf s.placed (.record required props) (sanitize raw)) := by
    intro rest
    induction rest with
    | nil =>
      rintro before s₀ h
      cases h
      exact ⟨List.prefix_rfl, fun hmem => absurd hmem List.not_mem_nil⟩
    | cons entry rest ih =>
      intro before s₀ h
      rw [List.foldlM_cons] at h
      cases hfirst : parseComponent ir before entry s₀ with
      | error stop s₁ =>
        have herror : (parseComponent ir before entry >>= rest.foldlM (parseComponent ir)) s₀ =
            .error stop s₁ := by
          show EStateM.bind _ _ s₀ = _
          rw [EStateM.bind, hfirst]
        rw [herror] at h
        cases h
      | ok before' s₁ =>
        rw [run_bind hfirst] at h
        obtain ⟨hle, hlater⟩ := ih before' s₁ h
        refine ⟨(parseComponent_placed hfirst).trans hle, fun hmem => ?_⟩
        rcases List.mem_cons.mp hmem with heq | hmem
        · subst heq
          obtain ⟨_, _, hrun', -, htext⟩ := parseComponent_record before raw required props s₀
          rw [hfirst] at hrun'
          cases hrun'
          exact htext.mono hle
        · exact hlater hmem
  exact (key schemas [] {} hloop).2 hentry

end

end Siesta
