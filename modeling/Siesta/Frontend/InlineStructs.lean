import Siesta.Frontend.NameFree
import Siesta.Lib.Appending

/-!
# The structs of the inline schemas

A schema that stands inline in a property, as the items of an array, as an alternative or as a base leaves
a reference at its place in the type around it.  `Filled` says of a type that it is one of the schema, and
that every inline schema inside it that is to be a struct, at any depth, has left the name of a struct that
was built from it; the names are listed in order.  No schema of a document is lost (`NoneLost`) if all its
components are there, filled in this way, and no name occurs twice.
-/

namespace Siesta

open Lib JsonObject

/-! ### The references at the places of inline schemas -/

section

variable (ir : InvalidRead)

inductive IsPlain (v : JsonObject) : Prop
  | typed {kind : JsonSchemaType} (htype : type_ ir v = .ok kind) (hobject : kind ≠ .object)
      (harray : kind ≠ .array) (hunknown : kind ≠ .unknown)
  | untyped (htype : type_ ir v = .ok .unknown) (hone : oneOf ir v = .ok []) (hany : anyOf ir v = .ok [])
      (hkeys : ∀ key ∈ objectKeys, hasKey ir v key = .ok false)

-- `types n type`: the name `n` is that of the type; `inner`: how the schemas inside are filled.
variable (types : Str → SchemaType → Prop) (inner : JsonObject → SchemaType → List Str → Prop)

/-- `n` names a struct that the parser builds from `v`; the names are those inside it, and `n`. -/
inductive NamesStruct (v : JsonObject) (n : Str) : List Str → Prop
  | intro {t : StructType} {names : List Str} (htype : types n (.struct t)) (hmade : MadeFrom ir v t)
      (hinner : inner v (.struct t) names) : NamesStruct v n (names ++ [n])

/-- The text that an inline schema leaves in a property or among alternatives, unless it is a variant. -/
inductive Text (v : JsonObject) : Str → List Str → Prop
  | struct {n : Str} {names : List Str} (h : NamesStruct ir types inner v n names) : Text v n names
  | array {t : ArrayType} {names : List Str} (h : inner v (.array t) names) :
      Text v (vectorOf (cppTypeFromTypeRef t.element_type)) names
  | primitive {t : PrimitiveType} {names : List Str} (h : inner v (.primitive t) names) :
      Text v (primitiveToCpp t.kind t.int_format t.num_format) names

/-- The member of a property.  An inline variant leaves no reference to its alternatives. -/
inductive PropertyFilled (p : Str × Json) : List Member → List Str → Prop
  | ref {field : Member} (hname : field.name = sanitize p.1) (href : isRef ir (ofMember p.2) = .ok true)
      (htype : extractTypeRef ir (ofMember p.2) = .ok field.type) : PropertyFilled p [field] []
  | inline {field : Member} {text : Str} {names : List Str} (hname : field.name = sanitize p.1)
      (hinline : isRef ir (ofMember p.2) = .ok false) (htype : field.type = ⟨text, true⟩)
      (h : Text ir types inner (ofMember p.2) text names) : PropertyFilled p [field] names
  | variant {field : Member} {t : VariantType} {names : List Str} (hname : field.name = sanitize p.1)
      (hinline : isRef ir (ofMember p.2) = .ok false) (htype : field.type = ⟨"std::string".toList, true⟩)
      (h : inner (ofMember p.2) (.variant t) names) : PropertyFilled p [field] names

/-- The alternatives that come of one schema: those of a variant are taken over. -/
inductive AlternativeFilled (item : Json) : List TypeRef → List Str → Prop
  | ref {v : JsonObject} {ref : TypeRef} (hv : ofElement item = .ok v) (href : extractTypeRef ir v = .ok ref)
      (hname : ref.name ≠ []) : AlternativeFilled item [ref] []
  | inline {v : JsonObject} {ref : TypeRef} {text : Str} {names : List Str} (hv : ofElement item = .ok v)
      (href : extractTypeRef ir v = .ok ref) (hname : ref.name = [])
      (h : Text ir types inner v text names) : AlternativeFilled item [⟨text, true⟩] names
  | variant {v : JsonObject} {ref : TypeRef} {t : VariantType} {names : List Str} (hv : ofElement item = .ok v)
      (href : extractTypeRef ir v = .ok ref) (hname : ref.name = []) (h : inner v (.variant t) names) :
      AlternativeFilled item t.alternatives names

/-- The base that comes of one schema of `allOf`, if it is a reference or a struct. -/
inductive BaseFilled (item : Json) : List TypeRef → List Str → Prop
  | ref {v : JsonObject} {ref : TypeRef} (hv : ofElement item = .ok v) (hisRef : isRef ir v = .ok true)
      (href : extractTypeRef ir v = .ok ref) : BaseFilled item (if ref.name.isEmpty then [] else [ref]) []
  | struct {v : JsonObject} {n : Str} {names : List Str} (hv : ofElement item = .ok v)
      (hinline : isRef ir v = .ok false) (h : NamesStruct ir types inner v n names) :
      BaseFilled item [⟨n, false⟩] names
  | other {v : JsonObject} {type : SchemaType} {names : List Str} (hv : ofElement item = .ok v)
      (hinline : isRef ir v = .ok false) (h : inner v type names) (hstruct : ∀ t, type ≠ .struct t) :
      BaseFilled item [] names

/-- The reference that the items of an array leave.  There is none to what is inside arrays and variants. -/
inductive ElementFilled (v : JsonObject) : TypeRef → List Str → Prop
  | ref {ref : TypeRef} (hisRef : isRef ir v = .ok true) (href : extractTypeRef ir v = .ok ref) :
      ElementFilled v ref []
  | struct {n : Str} {names : List Str} (hinline : isRef ir v = .ok false)
      (h : NamesStruct ir types inner v n names) : ElementFilled v ⟨n, true⟩ names
  | primitive {t : PrimitiveType} {names : List Str} (hinline : isRef ir v = .ok false)
      (h : inner v (.primitive t) names) :
      ElementFilled v ⟨primitiveToCpp t.kind t.int_format t.num_format, true⟩ names
  | other {type : SchemaType} {names : List Str} (hinline : isRef ir v = .ok false) (h : inner v type names)
      (hstruct : ∀ t, type ≠ .struct t) (hprimitive : ∀ t, type ≠ .primitive t) :
      ElementFilled v ⟨"std::string".toList, true⟩ names

/-- One level of `Filled`.  In `allOf` of an object with a type no inline schema is looked at. -/
inductive FilledBody (v : JsonObject) : SchemaType → List Str → Prop
  | object {t : StructType} {props : List (Str × Json)} {names : List Str} (htype : type_ ir v = .ok .object)
      (hstruct : IsStruct ir v) (hprops : properties ir v = .ok props)
      (hfields : Threads (PropertyFilled ir types inner) props t.fields names) :
      FilledBody v (.struct t) names
  | implicit {t : StructType} {allOf : List Json} {props : List (Str × Json)} {bases fields : List Str}
      (htype : type_ ir v = .ok .unknown) (hstruct : IsStruct ir v) (hallOf : JsonObject.allOf ir v = .ok allOf)
      (hbases : Threads (BaseFilled ir types inner) allOf t.allOf_bases bases)
      (hprops : properties ir v = .ok props)
      (hfields : Threads (PropertyFilled ir types inner) props t.fields fields) :
      FilledBody v (.struct t) (bases ++ fields)
  | variant {t : VariantType} {alternatives : List Json} {names : List Str} (hne : alternatives ≠ [])
      (hvariant : HasAlternatives ir v alternatives)
      (h : Threads (AlternativeFilled ir types inner) alternatives t.alternatives names) :
      FilledBody v (.variant t) names
  | array {t : ArrayType} {u : JsonObject} {names : List Str} (htype : type_ ir v = .ok .array)
      (hitems : items ir v = .ok u) (h : ElementFilled ir types inner u t.element_type names) :
      FilledBody v (.array t) names
  | primitive {t : PrimitiveType} (hplain : IsPlain ir v) : FilledBody v (.primitive t) []

/-- `Filled`, for a bounded nesting of schemas. -/
def FilledUpTo : ℕ → JsonObject → SchemaType → List Str → Prop
  | 0, _, _, _ => False
  | fuel + 1, v, type, names => FilledBody ir types (FilledUpTo fuel) v type names

/-- The type is one of the schema, and the inline schemas inside have left the names of their structs. -/
def Filled (v : JsonObject) (type : SchemaType) (names : List Str) : Prop :=
  FilledUpTo ir types (v.depth + 1) v type names

end

/-- The component has a type under its name, and is not among those given up; the names are those inside it,
and its own. -/
inductive ComponentFilled (ir : InvalidRead) (types : Str → SchemaType → Prop) (entry : Str × Json) :
    List Str → List Str → Prop
  | intro {type : SchemaType} {names : List Str} (htype : types (sanitize entry.1) type)
      (h : Filled ir types (ofMember entry.2) type names) :
      ComponentFilled ir types entry [] (names ++ [sanitize entry.1])

/-- No schema is lost: every component schema has a type of its name in the AST, every inline schema that is to
be a struct has left the name of a struct that was built from it, and all these names are different. -/
def NoneLost (ir : InvalidRead) (spec : JsonObject) (failed : List Str) (ast : NormalizedAST) : Prop :=
  ∃ schemas names, componentSchemas ir spec = .ok schemas ∧
    Threads (ComponentFilled ir fun n type => ast.getType n = some type) schemas failed names ∧ names.Nodup

/-! ### The names of a type do not matter -/

section

variable {ir : InvalidRead} {types : Str → SchemaType → Prop}

theorem MadeFrom.rename {v : JsonObject} {t : StructType} (h : MadeFrom ir v t) (n : Str) :
    MadeFrom ir v { t with name := n } := by
  obtain ⟨fuel, name, s, raw, s', hrun⟩ := h
  exact ⟨fuel, name, s, raw, s', hrun⟩

theorem FilledUpTo.rename {fuel : ℕ} {v : JsonObject} {t : StructType} {names : List Str}
    (h : FilledUpTo ir types fuel v (.struct t) names) (n : Str) :
    FilledUpTo ir types fuel v (.struct { t with name := n }) names := by
  cases fuel with
  | zero => exact h
  | succ fuel =>
    cases h with
    | object htype hstruct hprops hfields => exact .object htype hstruct hprops hfields
    | implicit htype hstruct hallOf hbases hprops hfields =>
      exact .implicit htype hstruct hallOf hbases hprops hfields

/-- A schema becomes a struct, a variant, an array or a primitive. -/
theorem FilledUpTo.kind {fuel : ℕ} {v : JsonObject} {type : SchemaType} {names : List Str}
    (h : FilledUpTo ir types fuel v type names) :
    (∃ t, type = .struct t) ∨ (∃ t, type = .variant t) ∨ (∃ t, type = .array t) ∨ ∃ t, type = .primitive t := by
  cases fuel with
  | zero => exact h.elim
  | succ fuel => cases h <;> simp

end

/-! ### What the parser leaves -/

/-- The types that a program is to store, in order, make `Q` hold wherever they are found under their names. -/
abbrev Leaves {α : Type} (c : ParseM α) (Q : (Str → SchemaType → Prop) → α → List Str → Prop) : Prop :=
  Appends ParseState.placed c fun a new => ∀ types : Str → SchemaType → Prop,
    (∀ p ∈ new, types p.1 p.2) → Q types a (new.map Prod.fst)

theorem Lib.Appends.read_bind {α β γ : Type} {out : ParseState → List γ} {x : Except Fault α} {f : α → ParseM β}
    {Q : β → List γ → Prop} (h : ∀ a, x = .ok a → Appends out (f a) Q) :
    Appends out ((liftM x : ParseM α) >>= f) Q := by
  cases x with
  | ok a => exact h a rfl
  | error fault => exact fun s a s' hrun => nomatch hrun

theorem Lib.Appends.read {α γ : Type} {out : ParseState → List γ} {x : Except Fault α} {Q : α → List γ → Prop}
    (h : ∀ a, x = .ok a → Q a []) : Appends out (liftM x : ParseM α) Q := by
  cases x with
  | ok a =>
    intro s b s' hrun
    obtain ⟨rfl, rfl⟩ := EStateM.Result.ok.inj hrun
    exact ⟨[], (List.append_nil _).symm, h a rfl⟩
  | error fault => exact fun s a s' hrun => nomatch hrun

theorem addInlineStruct_appends (raw : Str) (t : StructType) :
    Appends ParseState.placed (addInlineStruct raw t) fun n new =>
      n = sanitize raw ∧ new = [(n, .struct { t with name := n })] := by
  intro s n s' hrun
  unfold addInlineStruct at hrun
  simp only at hrun
  split at hrun <;>
  · obtain ⟨rfl, rfl⟩ := EStateM.Result.ok.inj hrun
    exact ⟨_, rfl, rfl, rfl⟩

section

variable {ir : InvalidRead} {fuel : ℕ}

def LeavesFilled (ir : InvalidRead) (fuel : ℕ) (v : JsonObject) (types : Str → SchemaType → Prop)
    (type : SchemaType) (names : List Str) : Prop :=
  FilledUpTo ir types fuel v type names ∧ ∀ t, type = .struct t → MadeFrom ir v t

/-- The types `new` were to be stored by the parse of `v`. -/
def Left (ir : InvalidRead) (fuel : ℕ) (v : JsonObject) (type : SchemaType) (new : List (Str × SchemaType)) : Prop :=
  ∀ types : Str → SchemaType → Prop, (∀ p ∈ new, types p.1 p.2) →
    LeavesFilled ir fuel v types type (new.map Prod.fst)

/-- The parse of `v` goes on with `c`, to leave what `Q` says. -/
abbrev GoesOn {α : Type} (ir : InvalidRead) (fuel : ℕ) (v : JsonObject) (type : SchemaType) (c : ParseM α)
    (Q : (Str → SchemaType → Prop) → α → List Str → Prop) : Prop :=
  Appends ParseState.placed c fun a new' => ∀ new, Left ir fuel v type new →
    ∀ types : Str → SchemaType → Prop, (∀ p ∈ new ++ new', types p.1 p.2) →
      Q types a ((new ++ new').map Prod.fst)

theorem GoesOn.pure {α : Type} {v : JsonObject} {type : SchemaType} {a : α}
    {Q : (Str → SchemaType → Prop) → α → List Str → Prop}
    (h : ∀ types names, LeavesFilled ir fuel v types type names → Q types a names) :
    GoesOn ir fuel v type (Pure.pure a) Q := by
  refine Appends.pure fun new hnew types htypes => ?_
  rw [List.append_nil] at htypes ⊢
  exact h types _ (hnew types htypes)

/-- The struct of an inline schema is stored under a name, after the types inside it. -/
theorem addInlineStruct_goesOn (raw : Str) {v : JsonObject} {t : StructType} :
    GoesOn ir fuel v (.struct t) (addInlineStruct raw t) fun types n names =>
      n = sanitize raw ∧ NamesStruct ir types (FilledUpTo ir types fuel) v n names := by
  refine (addInlineStruct_appends raw t).post ?_
  rintro n new' ⟨rfl, rfl⟩ new hnew types htypes
  obtain ⟨hfilled, hmade⟩ := hnew types fun p hp => htypes p (List.mem_append_left _ hp)
  have htype := htypes (sanitize raw, .struct { t with name := sanitize raw }) (by simp)
  rw [List.map_append]
  exact ⟨rfl, .intro htype ((hmade t rfl).rename _) (hfilled.rename _)⟩

theorem Lib.Appends.map {α β γ : Type} {out : ParseState → List γ} {c : ParseM α} {Q : α → List γ → Prop}
    (h : Appends out c Q) {f : α → β} {Q' : β → List γ → Prop} (hf : ∀ a new, Q a new → Q' (f a) new) :
    Appends out (c >>= fun a => Pure.pure (f a)) Q' := by
  refine h.bind fun a => .pure fun new ha => ?_
  rw [List.append_nil]
  exact hf a new ha

theorem Lib.Appends.assoc {α β γ δ : Type} {out : ParseState → List δ} {c : ParseM α} {f : α → ParseM β}
    {g : β → ParseM γ} {Q : γ → List δ → Prop} (h : Appends out ((c >>= f) >>= g) Q) :
    Appends out (c >>= fun a => f a >>= g) Q := by
  rwa [bind_assoc] at h

/-- The parse of a schema inside, and what is done with its type. -/
theorem Lib.Appends.inner {α : Type} {v : JsonObject} {c : ParseM SchemaType} {f : SchemaType → ParseM α}
    {Q : (Str → SchemaType → Prop) → α → List Str → Prop} (hc : Leaves c (LeavesFilled ir fuel v))
    (hf : ∀ type, GoesOn ir fuel v type (f type) Q) : Leaves (c >>= f) Q :=
  hc.bind fun type => (hf type).post fun _ _ h new hnew => h new hnew

/-- The text of an inline property. -/
theorem inlineMemberType_goesOn (raw : Str) (v : JsonObject) (type : SchemaType) :
    GoesOn ir fuel v type (inlineMemberType raw type) fun types text names =>
      Text ir types (FilledUpTo ir types fuel) v text names ∨ ∃ t, text = "std::string".toList ∧
        FilledUpTo ir types fuel v (.variant t) names := by
  cases type with
  | struct t =>
    exact (addInlineStruct_goesOn raw).post fun n new' h new hnew types htypes =>
      .inl (.struct (h new hnew types htypes).2)
  | variant t => exact .pure fun types names h => .inr ⟨t, rfl, h.1⟩
  | array t => exact .pure fun types names h => .inl (.array h.1)
  | primitive t => exact .pure fun types names h => .inl (.primitive h.1)
  | map t => exact .pure fun types names h => by simpa using h.1.kind
  | enum t => exact .pure fun types names h => by simpa using h.1.kind

/-- The text of the inline items of an array. -/
theorem inlineElementType_goesOn (elem_name : Str) (v : JsonObject) (hinline : isRef ir v = .ok false)
    (type : SchemaType) :
    GoesOn ir fuel v type (inlineElementType elem_name type) fun types text names =>
      ElementFilled ir types (FilledUpTo ir types fuel) v ⟨text, true⟩ names := by
  cases type with
  | struct t =>
    exact (addInlineStruct_goesOn elem_name).post fun n new' h new hnew types htypes =>
      .struct hinline (h new hnew types htypes).2
  | primitive t => exact .pure fun types names h => .primitive hinline h.1
  | variant t => exact .pure fun types names h => .other hinline h.1 (by simp) (by simp)
  | array t => exact .pure fun types names h => .other hinline h.1 (by simp) (by simp)
  | map t => exact .pure fun types names h => by simpa using h.1.kind
  | enum t => exact .pure fun types names h => by simpa using h.1.kind

/-- The references of an inline alternative. -/
theorem inlineAlternatives_goesOn (name : Str) (n : ℕ) {item : Json} {v : JsonObject} {ref : TypeRef}
    (hv : ofElement item = .ok v) (href : extractTypeRef ir v = .ok ref) (hname : ref.name = [])
    (type : SchemaType) :
    GoesOn ir fuel v type (inlineAlternatives name n type) fun types added names =>
      AlternativeFilled ir types (FilledUpTo ir types fuel) item added names := by
  cases type with
  | struct t =>
    have hstored : GoesOn ir fuel v (.struct t) (addInlineStruct (name ++ "_alt_".toList ++ (toString n).toList) t) _ :=
      addInlineStruct_goesOn _
    refine hstored.map fun text new' h new hnew types htypes => ?_
    obtain ⟨htext, hnames⟩ := h new hnew types htypes
    have hne : text.isEmpty = false := by
      rw [List.isEmpty_eq_false_iff, htext]
      exact sanitize_ne_nil (by simp)
    rw [hne]
    exact .inline hv href hname (.struct hnames)
  | variant t => exact .pure fun types names h => .variant hv href hname h.1
  | array t => exact .pure fun types names h => .inline hv href hname (.array h.1)
  | primitive t => exact .pure fun types names h => .inline hv href hname (.primitive h.1)
  | map t => exact .pure fun types names h => by simpa using h.1.kind
  | enum t => exact .pure fun types names h => by simpa using h.1.kind

section

variable {o : JsonObject} {parseInner : JsonObject → Str → ParseM SchemaType}

-- What the parses of the schemas inside leave.
variable (hinner : ∀ v name, Leaves (parseInner v name) (LeavesFilled ir fuel v))

include hinner

theorem parseProperty_leaves (innerName raw : Str) (p : Str × Json) :
    Leaves (parseProperty ir parseInner innerName raw p.1 (ofMember p.2)) fun types field names =>
      PropertyFilled ir types (FilledUpTo ir types fuel) p [field] names := by
  refine .read_bind fun description _ => ?_
  have htype : Leaves (propertyType ir parseInner innerName raw (ofMember p.2)) fun types ref names =>
      ∀ field : Member, field.name = sanitize p.1 → field.type = ref →
        PropertyFilled ir types (FilledUpTo ir types fuel) p [field] names := by
    refine .read_bind fun r hr => ?_
    cases r with
    | true =>
      refine .read fun ref href types _ field hname htype => ?_
      exact .ref hname hr (htype ▸ href)
    | false =>
      have hinline : Leaves (parseInner (ofMember p.2) innerName >>= fun type =>
          inlineMemberType raw type >>= fun text => pure (⟨text, true⟩ : TypeRef)) fun types ref names =>
          ∀ field : Member, field.name = sanitize p.1 → field.type = ref →
            PropertyFilled ir types (FilledUpTo ir types fuel) p [field] names := by
        refine .inner (hinner _ innerName) fun type => ?_
        have htext : GoesOn ir fuel (ofMember p.2) type (inlineMemberType raw type) _ :=
          inlineMemberType_goesOn raw _ type
        refine htext.map fun text new' h new hnew types htypes field hname htype => ?_
        rcases h new hnew types htypes with hfilled | ⟨t, htext, hfilled⟩
        · exact .inline hname hr htype hfilled
        · exact .variant hname hr (htext ▸ htype) hfilled
      exact hinline
  exact htype.map fun ref new h types htypes => h types htypes _ rfl rfl

/-- The loop over the properties. -/
theorem mapM_parseProperty_leaves {props : List (Str × Json)} (innerName raw : Str × Json → Str) :
    Leaves (props.mapM fun p => parseProperty ir parseInner (innerName p) (raw p) p.1 (ofMember p.2))
      fun types fields names => Threads (PropertyFilled ir types (FilledUpTo ir types fuel)) props fields names := by
  have hloop : Appends ParseState.placed
      (props.mapM fun p => parseProperty ir parseInner (innerName p) (raw p) p.1 (ofMember p.2))
      fun fields new => Threads (fun p fields new => ∀ types : Str → SchemaType → Prop,
        (∀ q ∈ new, types q.1 q.2) →
          PropertyFilled ir types (FilledUpTo ir types fuel) p fields (new.map Prod.fst)) props fields new :=
    .mapM fun p _ => parseProperty_leaves hinner (innerName p) (raw p) p
  refine hloop.post fun fields new h types htypes => ?_
  exact h.map_entries fun p _ field new' _ hsub hstep => hstep types fun q hq => htypes q (hsub hq)

theorem parseAlternative_fills (name : Str) (item : Json) (alternatives : List TypeRef) :
    Appends ParseState.placed (parseAlternative ir parseInner name alternatives item) fun alternatives' new =>
      ∃ added, alternatives' = alternatives ++ added ∧ ∀ types : Str → SchemaType → Prop,
        (∀ p ∈ new, types p.1 p.2) →
          AlternativeFilled ir types (FilledUpTo ir types fuel) item added (new.map Prod.fst) := by
  refine .read_bind fun v hv => .read_bind fun ref href => ?_
  split
  · rename_i hname
    exact .pure ⟨[ref], rfl, fun types _ => .ref hv href (by simpa using hname)⟩
  · rename_i hname
    have hadded : Leaves (parseInner v (name ++ "_inline".toList) >>= inlineAlternatives name alternatives.length)
        fun types added names => AlternativeFilled ir types (FilledUpTo ir types fuel) item added names :=
      .inner (hinner v _) fun type => inlineAlternatives_goesOn name _ hv href (by simpa using hname) type
    refine Lib.Appends.assoc (hadded.map fun added new h => ?_)
    exact ⟨added, rfl, h⟩

theorem buildVariant_leaves {items : List Json} {name desc : Str} (hne : items ≠ [])
    (hvariant : HasAlternatives ir o items) :
    Leaves (buildVariant ir parseInner items name desc) fun types type names =>
      FilledBody ir types (FilledUpTo ir types fuel) o type names := by
  have hloop := Appends.foldlM (l := items) (f := parseAlternative ir parseInner name)
    (fun item _ alternatives => parseAlternative_fills hinner name item alternatives) []
  refine hloop.map fun alternatives new h types htypes => ?_
  obtain ⟨added, rfl, hthreads⟩ := h
  refine .variant hne hvariant ?_
  exact hthreads.map_entries fun item _ refs new' _ hsub hstep => hstep types fun q hq => htypes q (hsub hq)

theorem parseBase_leaves (name : Str) (item : Json) (bases : List TypeRef) :
    Appends ParseState.placed (parseBase ir parseInner name bases item) fun bases' new =>
      ∃ added, bases' = bases ++ added ∧ ∀ types : Str → SchemaType → Prop, (∀ p ∈ new, types p.1 p.2) →
        BaseFilled ir types (FilledUpTo ir types fuel) item added (new.map Prod.fst) := by
  refine .read_bind fun v hv => .read_bind fun r hr => ?_
  cases r with
  | true =>
    refine .read_bind fun ref href => .pure ⟨_, ?_, fun types _ => .ref hv hr href⟩
    split <;> simp
  | false =>
    refine (hinner v _).bind fun type => ?_
    have hother : (∀ t, type ≠ .struct t) → Appends ParseState.placed (pure bases : ParseM (List TypeRef))
        fun bases' new' => ∀ new, Left ir fuel v type new → ∃ added, bases' = bases ++ added ∧
          ∀ types : Str → SchemaType → Prop, (∀ p ∈ new ++ new', types p.1 p.2) →
            BaseFilled ir types (FilledUpTo ir types fuel) item added ((new ++ new').map Prod.fst) := by
      refine fun hstruct => .pure fun new hnew => ⟨[], (List.append_nil _).symm, fun types htypes => ?_⟩
      rw [List.append_nil] at htypes ⊢
      exact .other hv hr (hnew types htypes).1 hstruct
    cases type with
    | struct t =>
      have hstored : GoesOn ir fuel v (.struct t) (addInlineStruct t.name t) _ := addInlineStruct_goesOn t.name
      refine hstored.map fun n new' h new hnew => ⟨[⟨n, false⟩], rfl, fun types htypes => ?_⟩
      exact .struct hv hr (h new hnew types htypes).2
    | variant t => exact hother (by simp)
    | array t => exact hother (by simp)
    | map t => exact hother (by simp)
    | enum t => exact hother (by simp)
    | primitive t => exact hother (by simp)

theorem parseImplicitObject_leaves (name : Str) (htype : type_ ir o = .ok .unknown) (hstruct : IsStruct ir o) :
    Leaves (parseImplicitObject ir parseInner o name) fun types type names =>
      FilledBody ir types (FilledUpTo ir types fuel) o type names := by
  refine .read_bind fun description _ => .read_bind fun allOf hallOf => ?_
  have hbases := Appends.foldlM (l := allOf) (f := parseBase ir parseInner name)
    (fun item _ bases => parseBase_leaves hinner name item bases) []
  refine hbases.bind fun bases => .read_bind fun props hprops => ?_
  refine (mapM_parseProperty_leaves hinner _ _).map fun fields new' hfields new hbases types htypes => ?_
  obtain ⟨added, rfl, hthreads⟩ := hbases
  rw [List.map_append]
  refine .implicit htype hstruct hallOf ?_ hprops (hfields types fun p hp => htypes p (List.mem_append_right _ hp))
  exact hthreads.map_entries fun item _ refs new'' _ hsub hstep =>
    hstep types fun q hq => htypes q (List.mem_append_left _ (hsub hq))

theorem parseObjectSchema_leaves (name : Str) (htype : type_ ir o = .ok .object) :
    Leaves (parseObjectSchema ir parseInner o name) fun types type names =>
      FilledBody ir types (FilledUpTo ir types fuel) o type names := by
  refine .read_bind fun desc _ => .read_bind fun oneOf hone => .read_bind fun anyOf hany => ?_
  split
  · rename_i hvariants
    by_cases hempty : oneOf = []
    · subst hempty
      have hne : anyOf ≠ [] := by simpa using hvariants
      exact buildVariant_leaves hinner hne ⟨.inl htype, .inr ⟨hone, hany⟩⟩
    · have hnonempty : (!oneOf.isEmpty) = true := by simpa using hempty
      rw [if_pos hnonempty]
      exact buildVariant_leaves hinner hempty ⟨.inl htype, .inl hone⟩
  · rename_i hno
    obtain ⟨rfl, rfl⟩ : oneOf = [] ∧ anyOf = [] := by simpa using hno
    refine .read_bind fun allOf _ => .read_bind fun bases _ => .read_bind fun props hprops => ?_
    refine (mapM_parseProperty_leaves hinner _ _).map fun fields new h types htypes => ?_
    exact .object htype ⟨.inl htype, hone, hany⟩ hprops (h types htypes)

theorem parseUnknownSchema_leaves (name : Str) (htype : type_ ir o = .ok .unknown) :
    Leaves (parseUnknownSchema ir parseInner o name) fun types type names =>
      FilledBody ir types (FilledUpTo ir types fuel) o type names := by
  refine .read_bind fun desc _ => .read_bind fun oneOf hone => ?_
  split
  · rename_i hne
    exact buildVariant_leaves hinner (by simpa using hne) ⟨.inr htype, .inl hone⟩
  · rename_i hno
    obtain rfl : oneOf = [] := by simpa using hno
    refine .read_bind fun anyOf hany => ?_
    split
    · rename_i hne
      exact buildVariant_leaves hinner (by simpa using hne) ⟨.inr htype, .inr ⟨hone, hany⟩⟩
    · rename_i hno'
      obtain rfl : anyOf = [] := by simpa using hno'
      refine .read_bind fun p hp => .read_bind fun a ha => .read_bind fun m hm => ?_
      split
      · rename_i hkeys
        exact parseImplicitObject_leaves hinner name htype (isStruct_of_keys htype hone hany hp ha hm hkeys)
      · rename_i hkeys
        refine .pure fun types _ => .primitive (.untyped htype hone hany ?_)
        obtain ⟨⟨rfl, rfl⟩, rfl⟩ : (p = false ∧ a = false) ∧ m = false := by simpa using hkeys
        intro key hkey
        simp only [objectKeys, List.mem_cons, List.not_mem_nil, or_false] at hkey
        rcases hkey with rfl | rfl | rfl
        · exact hp
        · exact ha
        · exact hm

theorem parseArraySchema_leaves (name : Str) (htype : type_ ir o = .ok .array) :
    Leaves (parseArraySchema ir parseInner o name) fun types type names =>
      FilledBody ir types (FilledUpTo ir types fuel) o type names := by
  refine .read_bind fun description _ => .read_bind fun items hitems => .read_bind fun r hr => ?_
  cases r with
  | true =>
    exact .read_bind fun ref href => .pure fun types _ => .array htype hitems (.ref hr href)
  | false =>
    refine (Appends.get (Q := fun _ new => new = []) fun _ => rfl).bind fun s => ?_
    have helement := Lib.Appends.inner (hinner items (elementName name s.ast.getTypeCount)) fun type =>
      inlineElementType_goesOn (elementName name s.ast.getTypeCount) items hr type
    refine Lib.Appends.assoc (helement.map ?_)
    rintro text new' h new rfl types htypes
    exact .array htype hitems (h types htypes)

variable (ir) in
omit hinner in
theorem parsePrimitiveSchema_leaves (hprimitive : IsPlain ir o) :
    Leaves (liftM (parsePrimitiveSchema ir o) : ParseM SchemaType) fun types type names =>
      FilledBody ir types (FilledUpTo ir types fuel) o type names := by
  refine .read fun type hread types _ => ?_
  obtain ⟨t, rfl⟩ := parsePrimitiveSchema_primitive hread
  exact .primitive hprimitive

/-- **One level of the parser fills the references of its type**, when the levels below do. -/
theorem parseSchemaBody_leaves (name : Str) :
    Leaves (parseSchemaBody ir parseInner o name) fun types type names =>
      FilledBody ir types (FilledUpTo ir types fuel) o type names := by
  refine .read_bind fun type htype => ?_
  cases type with
  | object => exact parseObjectSchema_leaves hinner name htype
  | array => exact parseArraySchema_leaves hinner name htype
  | unknown => exact parseUnknownSchema_leaves hinner name htype
  | null =>
    exact .read_bind fun description _ => .pure fun types _ =>
      .primitive (.typed htype (by simp) (by simp) (by simp))
  | string => exact parsePrimitiveSchema_leaves ir (.typed htype (by simp) (by simp) (by simp))
  | number => exact parsePrimitiveSchema_leaves ir (.typed htype (by simp) (by simp) (by simp))
  | integer => exact parsePrimitiveSchema_leaves ir (.typed htype (by simp) (by simp) (by simp))
  | boolean => exact parsePrimitiveSchema_leaves ir (.typed htype (by simp) (by simp) (by simp))

end

theorem parseSchemaUpTo_leaves : ∀ (fuel : ℕ) (v : JsonObject) (name : Str),
    Leaves (parseSchemaUpTo ir fuel v name) (LeavesFilled ir fuel v) := by
  intro fuel
  induction fuel with
  | zero => exact fun v name => .throw
  | succ fuel ih =>
    intro v name
    have hbody : Leaves (parseSchemaUpTo ir (fuel + 1) v name) fun types type names =>
        FilledUpTo ir types (fuel + 1) v type names := parseSchemaBody_leaves ih name
    refine hbody.run.post ?_
    rintro type new ⟨h, s, s', hrun⟩ types htypes
    exact ⟨h types htypes, fun t ht => ⟨fuel + 1, name, s, t.name, s', ht ▸ hrun⟩⟩

end

/-! ### As many names, whatever the types -/

/-- How many names an inline schema with this type leaves besides those inside it. -/
def SchemaType.ownNames : SchemaType → ℕ
  | .struct _ => 1
  | _ => 0

section

variable {ir : InvalidRead} {types : Str → SchemaType → Prop}
  {inner : JsonObject → SchemaType → List Str → Prop}

/-- The names are those inside an inline schema, and its own if it is a struct. -/
def NamesOf (inner : JsonObject → SchemaType → List Str → Prop) (v : JsonObject) (names : List Str) : Prop :=
  ∃ type inside, inner v type inside ∧ names.length = inside.length + type.ownNames

theorem NamesStruct.namesOf {v : JsonObject} {n : Str} {names : List Str}
    (h : NamesStruct ir types inner v n names) : NamesOf inner v names := by
  cases h with
  | intro _ _ h => exact ⟨_, _, h, List.length_append⟩

theorem namesOf_other {v : JsonObject} {type : SchemaType} {names : List Str} (h : inner v type names)
    (hstruct : ∀ t, type ≠ .struct t) : NamesOf inner v names := by
  refine ⟨type, names, h, ?_⟩
  cases type with
  | struct t => exact absurd rfl (hstruct t)
  | _ => rfl

theorem Text.namesOf {v : JsonObject} {text : Str} {names : List Str} (h : Text ir types inner v text names) :
    NamesOf inner v names := by
  cases h with
  | struct h => exact h.namesOf
  | array h => exact namesOf_other h (by simp)
  | primitive h => exact namesOf_other h (by simp)

theorem PropertyFilled.namesOf {p : Str × Json} {fields : List Member} {names : List Str}
    (h : PropertyFilled ir types inner p fields names) :
    isRef ir (ofMember p.2) = .ok true ∧ names = [] ∨
      isRef ir (ofMember p.2) = .ok false ∧ NamesOf inner (ofMember p.2) names := by
  cases h with
  | ref _ href _ => exact .inl ⟨href, rfl⟩
  | inline _ hinline _ h => exact .inr ⟨hinline, h.namesOf⟩
  | variant _ hinline _ h => exact .inr ⟨hinline, namesOf_other h (by simp)⟩

theorem AlternativeFilled.namesOf {item : Json} {refs : List TypeRef} {names : List Str}
    (h : AlternativeFilled ir types inner item refs names) :
    ∃ v ref, ofElement item = .ok v ∧ extractTypeRef ir v = .ok ref ∧
      (ref.name ≠ [] ∧ names = [] ∨ ref.name = [] ∧ NamesOf inner v names) := by
  cases h with
  | ref hv href hname => exact ⟨_, _, hv, href, .inl ⟨hname, rfl⟩⟩
  | inline hv href hname h => exact ⟨_, _, hv, href, .inr ⟨hname, h.namesOf⟩⟩
  | variant hv href hname h => exact ⟨_, _, hv, href, .inr ⟨hname, namesOf_other h (by simp)⟩⟩

theorem BaseFilled.namesOf {item : Json} {refs : List TypeRef} {names : List Str}
    (h : BaseFilled ir types inner item refs names) :
    ∃ v, ofElement item = .ok v ∧
      (isRef ir v = .ok true ∧ names = [] ∨ isRef ir v = .ok false ∧ NamesOf inner v names) := by
  cases h with
  | ref hv hisRef _ => exact ⟨_, hv, .inl ⟨hisRef, rfl⟩⟩
  | struct hv hinline h => exact ⟨_, hv, .inr ⟨hinline, h.namesOf⟩⟩
  | other hv hinline h hstruct => exact ⟨_, hv, .inr ⟨hinline, namesOf_other h hstruct⟩⟩

theorem ElementFilled.namesOf {v : JsonObject} {ref : TypeRef} {names : List Str}
    (h : ElementFilled ir types inner v ref names) :
    isRef ir v = .ok true ∧ names = [] ∨ isRef ir v = .ok false ∧ NamesOf inner v names := by
  cases h with
  | ref hisRef _ => exact .inl ⟨hisRef, rfl⟩
  | struct hinline h => exact .inr ⟨hinline, h.namesOf⟩
  | primitive hinline h => exact .inr ⟨hinline, namesOf_other h (by simp)⟩
  | other hinline h hstruct _ => exact .inr ⟨hinline, namesOf_other h hstruct⟩

end

section

variable {ir : InvalidRead} {types types' : Str → SchemaType → Prop}
  {inner inner' : JsonObject → SchemaType → List Str → Prop}

def SameCount (inner inner' : JsonObject → SchemaType → List Str → Prop) : Prop :=
  ∀ v type type' names names', inner v type names → inner' v type' names' →
    type.ownNames = type'.ownNames ∧ names.length = names'.length

theorem NamesOf.length_eq (hinner : SameCount inner inner') {v : JsonObject} {names names' : List Str}
    (h : NamesOf inner v names) (h' : NamesOf inner' v names') : names.length = names'.length := by
  obtain ⟨type, inside, hinside, hnames⟩ := h
  obtain ⟨type', inside', hinside', hnames'⟩ := h'
  obtain ⟨hown, hlength⟩ := hinner _ _ _ _ _ hinside hinside'
  rw [hnames, hnames', hown, hlength]

/-- Whether a schema is a reference is read off it once. -/
theorem length_eq_of_isRef (hinner : SameCount inner inner') {v : JsonObject} {names names' : List Str}
    (h : isRef ir v = .ok true ∧ names = [] ∨ isRef ir v = .ok false ∧ NamesOf inner v names)
    (h' : isRef ir v = .ok true ∧ names' = [] ∨ isRef ir v = .ok false ∧ NamesOf inner' v names') :
    names.length = names'.length := by
  rcases h with ⟨hr, rfl⟩ | ⟨hr, h⟩ <;> rcases h' with ⟨hr', rfl⟩ | ⟨hr', h'⟩
  · rfl
  · rw [hr] at hr'; cases hr'
  · rw [hr] at hr'; cases hr'
  · exact h.length_eq hinner h'

theorem AlternativeFilled.length_eq (hinner : SameCount inner inner') {item : Json} {refs refs' : List TypeRef}
    {names names' : List Str} (h : AlternativeFilled ir types inner item refs names)
    (h' : AlternativeFilled ir types' inner' item refs' names') : names.length = names'.length := by
  obtain ⟨v, ref, hv, href, h⟩ := h.namesOf
  obtain ⟨v', ref', hv', href', h'⟩ := h'.namesOf
  obtain rfl : v = v' := Except.ok.inj (hv.symm.trans hv')
  obtain rfl : ref = ref' := Except.ok.inj (href.symm.trans href')
  rcases h with ⟨hname, rfl⟩ | ⟨hname, h⟩ <;> rcases h' with ⟨hname', rfl⟩ | ⟨hname', h'⟩
  · rfl
  · exact absurd hname' hname
  · exact absurd hname hname'
  · exact h.length_eq hinner h'

theorem BaseFilled.length_eq (hinner : SameCount inner inner') {item : Json} {refs refs' : List TypeRef}
    {names names' : List Str} (h : BaseFilled ir types inner item refs names)
    (h' : BaseFilled ir types' inner' item refs' names') : names.length = names'.length := by
  obtain ⟨v, hv, h⟩ := h.namesOf
  obtain ⟨v', hv', h'⟩ := h'.namesOf
  obtain rfl : v = v' := Except.ok.inj (hv.symm.trans hv')
  exact length_eq_of_isRef hinner h h'

theorem properties_length_eq (hinner : SameCount inner inner') {v : JsonObject} {props props' : List (Str × Json)}
    (hprops : properties ir v = .ok props) (hprops' : properties ir v = .ok props') {fields fields' : List Member}
    {names names' : List Str} (h : Threads (PropertyFilled ir types inner) props fields names)
    (h' : Threads (PropertyFilled ir types' inner') props' fields' names') : names.length = names'.length := by
  obtain rfl : props = props' := Except.ok.inj (hprops.symm.trans hprops')
  exact h.length_eq h' fun p _ _ _ _ _ hp hp' => length_eq_of_isRef hinner hp.namesOf hp'.namesOf

theorem HasAlternatives.unique {v : JsonObject} {l l' : List Json} (hne : l ≠ []) (hne' : l' ≠ [])
    (h : HasAlternatives ir v l) (h' : HasAlternatives ir v l') : l = l' := by
  have hsame : ∀ {x : Except Fault (List Json)} {a b : List Json}, x = .ok a → x = .ok b → a = b :=
    fun ha hb => Except.ok.inj (ha.symm.trans hb)
  rcases h.list with hone | ⟨hone, hany⟩ <;> rcases h'.list with hone' | ⟨hone', hany'⟩
  · exact hsame hone hone'
  · exact absurd (hsame hone hone') hne
  · exact absurd (hsame hone' hone) hne'
  · exact hsame hany hany'

theorem IsStruct.not_alternatives {v : JsonObject} {l : List Json} (hne : l ≠ []) (h : IsStruct ir v) :
    ¬ HasAlternatives ir v l := by
  intro h'
  rcases h'.list with hone | ⟨-, hany⟩
  · exact hne (Except.ok.inj (hone.symm.trans h.oneOf))
  · exact hne (Except.ok.inj (hany.symm.trans h.anyOf))

theorem IsPlain.not_struct {v : JsonObject} (h : IsPlain ir v) : ¬ IsStruct ir v := by
  intro h'
  cases h with
  | typed htype hobject _ hunknown =>
    rcases h'.kind with hkind | ⟨hkind, -⟩
    · exact hobject (Except.ok.inj (htype.symm.trans hkind))
    · exact hunknown (Except.ok.inj (htype.symm.trans hkind))
  | untyped htype _ _ hkeys =>
    rcases h'.kind with hkind | ⟨-, key, hkey, hhas⟩
    · rw [htype] at hkind; cases hkind
    · rw [hkeys key hkey] at hhas; cases hhas

theorem IsPlain.not_alternatives {v : JsonObject} {l : List Json} (hne : l ≠ []) (h : IsPlain ir v) :
    ¬ HasAlternatives ir v l := by
  intro h'
  cases h with
  | typed htype hobject _ hunknown =>
    rcases h'.kind with hkind | hkind
    · exact hobject (Except.ok.inj (htype.symm.trans hkind))
    · exact hunknown (Except.ok.inj (htype.symm.trans hkind))
  | untyped _ hone hany _ =>
    rcases h'.list with hone' | ⟨-, hany'⟩
    · exact hne (Except.ok.inj (hone'.symm.trans hone))
    · exact hne (Except.ok.inj (hany'.symm.trans hany))

theorem IsPlain.not_array {v : JsonObject} (h : IsPlain ir v) : type_ ir v ≠ .ok .array := by
  intro h'
  cases h with
  | typed htype _ harray _ => exact harray (Except.ok.inj (htype.symm.trans h'))
  | untyped htype _ _ _ => rw [htype] at h'; cases h'

theorem IsStruct.not_array {v : JsonObject} (h : IsStruct ir v) : type_ ir v ≠ .ok .array := by
  intro h'
  rcases h.kind with hkind | ⟨hkind, -⟩ <;> rw [h'] at hkind <;> cases hkind

theorem HasAlternatives.not_array {v : JsonObject} {l : List Json} (h : HasAlternatives ir v l) :
    type_ ir v ≠ .ok .array := by
  intro h'
  rcases h.kind with hkind | hkind <;> rw [h'] at hkind <;> cases hkind

/-- One level. -/
theorem filledBody_sameCount (hinner : SameCount inner inner') :
    SameCount (FilledBody ir types inner) (FilledBody ir types' inner') := by
  intro v type type' names names' h h'
  cases h with
  | object htype hstruct hprops hfields =>
    cases h' with
    | object _ _ hprops' hfields' => exact ⟨rfl, properties_length_eq hinner hprops hprops' hfields hfields'⟩
    | implicit htype' => rw [htype] at htype'; cases htype'
    | variant hne hvariant _ => exact absurd hvariant (hstruct.not_alternatives hne)
    | array htype' => exact absurd htype' hstruct.not_array
    | primitive hplain => exact absurd hstruct hplain.not_struct
  | implicit htype hstruct hallOf hbases hprops hfields =>
    cases h' with
    | object htype' => rw [htype] at htype'; cases htype'
    | implicit _ _ hallOf' hbases' hprops' hfields' =>
      obtain rfl := Except.ok.inj (hallOf.symm.trans hallOf')
      refine ⟨rfl, ?_⟩
      rw [List.length_append, List.length_append, properties_length_eq hinner hprops hprops' hfields hfields',
        hbases.length_eq hbases' fun _ _ _ _ _ _ hb hb' => hb.length_eq hinner hb']
    | variant hne hvariant _ => exact absurd hvariant (hstruct.not_alternatives hne)
    | array htype' => exact absurd htype' hstruct.not_array
    | primitive hplain => exact absurd hstruct hplain.not_struct
  | variant hne hvariant h =>
    cases h' with
    | object _ hstruct => exact absurd hvariant (hstruct.not_alternatives hne)
    | implicit _ hstruct => exact absurd hvariant (hstruct.not_alternatives hne)
    | variant hne' hvariant' h' =>
      obtain rfl := hvariant.unique hne hne' hvariant'
      exact ⟨rfl, h.length_eq h' fun _ _ _ _ _ _ ha ha' => ha.length_eq hinner ha'⟩
    | array htype' => exact absurd htype' hvariant.not_array
    | primitive hplain => exact absurd hvariant (hplain.not_alternatives hne)
  | array htype hitems h =>
    cases h' with
    | object _ hstruct => exact absurd htype hstruct.not_array
    | implicit _ hstruct => exact absurd htype hstruct.not_array
    | variant _ hvariant _ => exact absurd htype hvariant.not_array
    | array _ hitems' h' =>
      obtain rfl := Except.ok.inj (hitems.symm.trans hitems')
      exact ⟨rfl, length_eq_of_isRef hinner h.namesOf h'.namesOf⟩
    | primitive hplain => exact absurd htype hplain.not_array
  | primitive hplain =>
    cases h' with
    | object _ hstruct => exact absurd hstruct hplain.not_struct
    | implicit _ hstruct => exact absurd hstruct hplain.not_struct
    | variant hne hvariant _ => exact absurd hvariant (hplain.not_alternatives hne)
    | array htype => exact absurd htype hplain.not_array
    | primitive _ => exact ⟨rfl, rfl⟩

/-- **A schema leaves as many names whatever types are found under them.** -/
theorem filledUpTo_sameCount (ir : InvalidRead) (types types' : Str → SchemaType → Prop) :
    ∀ fuel, SameCount (FilledUpTo ir types fuel) (FilledUpTo ir types' fuel) := by
  intro fuel
  induction fuel with
  | zero => exact fun _ _ _ _ _ h => h.elim
  | succ fuel ih => exact filledBody_sameCount ih

end

/-! ### The names that are left are those of types -/

section

variable {ir : InvalidRead} {types : Str → SchemaType → Prop}
  {inner : JsonObject → SchemaType → List Str → Prop}

def Found (types : Str → SchemaType → Prop) (names : List Str) : Prop := ∀ n ∈ names, ∃ type, types n type

variable (hinner : ∀ v type names, inner v type names → Found types names)

include hinner

theorem NamesStruct.found {v : JsonObject} {n : Str} {names : List Str}
    (h : NamesStruct ir types inner v n names) : Found types names := by
  cases h with
  | intro htype _ h =>
    intro m hm
    rcases List.mem_append.mp hm with hm | hm
    · exact hinner _ _ _ h m hm
    · obtain rfl := List.mem_singleton.mp hm
      exact ⟨_, htype⟩

theorem Text.found {v : JsonObject} {text : Str} {names : List Str} (h : Text ir types inner v text names) :
    Found types names := by
  cases h with
  | struct h => exact h.found hinner
  | array h => exact hinner _ _ _ h
  | primitive h => exact hinner _ _ _ h

omit hinner in
theorem found_nil : Found types [] := fun _ hn => absurd hn List.not_mem_nil

theorem PropertyFilled.found {p : Str × Json} {fields : List Member} {names : List Str}
    (h : PropertyFilled ir types inner p fields names) : Found types names := by
  cases h with
  | ref => exact found_nil
  | inline _ _ _ h => exact h.found hinner
  | variant _ _ _ h => exact hinner _ _ _ h

theorem AlternativeFilled.found {item : Json} {refs : List TypeRef} {names : List Str}
    (h : AlternativeFilled ir types inner item refs names) : Found types names := by
  cases h with
  | ref => exact found_nil
  | inline _ _ _ h => exact h.found hinner
  | variant _ _ _ h => exact hinner _ _ _ h

theorem BaseFilled.found {item : Json} {refs : List TypeRef} {names : List Str}
    (h : BaseFilled ir types inner item refs names) : Found types names := by
  cases h with
  | ref => exact found_nil
  | struct _ _ h => exact h.found hinner
  | other _ _ h _ => exact hinner _ _ _ h

theorem ElementFilled.found {v : JsonObject} {ref : TypeRef} {names : List Str}
    (h : ElementFilled ir types inner v ref names) : Found types names := by
  cases h with
  | ref => exact found_nil
  | struct _ h => exact h.found hinner
  | primitive _ h => exact hinner _ _ _ h
  | other _ h => exact hinner _ _ _ h

theorem FilledBody.found {v : JsonObject} {type : SchemaType} {names : List Str}
    (h : FilledBody ir types inner v type names) : Found types names := by
  cases h with
  | object _ _ _ hfields => exact hfields.forall_entries fun _ _ _ _ h => h.found hinner
  | implicit _ _ _ hbases _ hfields =>
    intro n hn
    rcases List.mem_append.mp hn with hn | hn
    · exact hbases.forall_entries (fun _ _ _ _ h => h.found hinner) n hn
    · exact hfields.forall_entries (fun _ _ _ _ h => h.found hinner) n hn
  | variant _ _ h => exact h.forall_entries fun _ _ _ _ h => h.found hinner
  | array _ _ h => exact h.found hinner
  | primitive _ => exact found_nil

end

theorem FilledUpTo.found {ir : InvalidRead} {types : Str → SchemaType → Prop} : ∀ {fuel : ℕ} {v : JsonObject}
    {type : SchemaType} {names : List Str}, FilledUpTo ir types fuel v type names → Found types names := by
  intro fuel
  induction fuel with
  | zero => exact fun h => h.elim
  | succ fuel ih => exact fun h => FilledBody.found (fun _ _ _ => ih) h

/-! ### The document -/

section

variable {ir : InvalidRead}

/-- A component is given up, or leaves its type. -/
theorem parseComponent_leaves (failed : List Str) (entry : Str × Json) :
    Appends ParseState.placed (parseComponent ir failed entry) fun failed' new =>
      ∃ added, failed' = failed ++ added ∧ (added = [] → ∀ types : Str → SchemaType → Prop,
        (∀ p ∈ new, types p.1 p.2) → ComponentFilled ir types entry added (new.map Prod.fst)) := by
  have hbody : Appends ParseState.placed
      (parseSchema ir (ofMember entry.2) (sanitize entry.1) >>= fun type => do
        addComponent (sanitize entry.1) type
        return failed)
      fun failed' new => failed' = failed ∧ ∀ types : Str → SchemaType → Prop, (∀ p ∈ new, types p.1 p.2) →
        ComponentFilled ir types entry [] (new.map Prod.fst) := by
    refine (parseSchemaUpTo_leaves _ _ _).bind fun type => ?_
    have hadd : Appends ParseState.placed (addComponent (sanitize entry.1) type) fun _ new =>
        new = [(sanitize entry.1, type)] := by
      intro s u s' hrun
      obtain ⟨rfl, rfl⟩ := EStateM.Result.ok.inj hrun
      exact ⟨_, rfl, rfl⟩
    refine hadd.map ?_
    rintro - new' rfl new hnew
    refine ⟨rfl, fun types htypes => ?_⟩
    have htype := htypes (sanitize entry.1, type) (by simp)
    rw [List.map_append]
    exact .intro htype (hnew types fun p hp => htypes p (List.mem_append_left _ hp)).1
  refine Appends.tryCatch (hbody.post ?_) (fun s e s' hrun => ?_) fun stop => ?_
  · rintro failed' new ⟨rfl, h⟩
    exact ⟨[], (List.append_nil _).symm, fun _ => h⟩
  · have hparse : Maintains (fun _ => True) (parseSchema ir (ofMember entry.2) (sanitize entry.1)) fun type =>
        ∀ t, type = .struct t → True :=
      parseSchemaUpTo_maintains (fun raw t _ => addInlineStruct_le raw t) ir (V := fun _ => True)
        (fun _ _ _ _ => trivial) (fun _ _ _ _ _ _ _ _ => trivial) _ _ _ trivial
    have hadd : ∀ type, Maintains (fun _ => True) (addComponent (sanitize entry.1) type) fun _ => True :=
      fun type s _ => ⟨⟨fun _ h => h, fun _ h => NormalizedAST.mem_addType.mpr (.inr h), List.prefix_append _ _⟩,
        trivial, trivial⟩
    have hwhole := hparse.bind fun type _ => (hadd type).bind fun _ _ =>
      Maintains.pure (ε := Stop) (a := failed) (Q := fun _ => True) trivial
    exact (hwhole.of_error trivial hrun).1.2.2
  · -- a component that throws an exception is given up
    cases stop with
    | outOfFuel => exact .throw
    | fault f =>
      cases f with
      | exception => exact .pure fun new => ⟨[entry.1], rfl, by simp⟩
      | terminate => exact .throw
      | crash => exact .throw

theorem parseSchemas_leaves {spec : JsonObject} {schemas : List (Str × Json)}
    (hschemas : componentSchemas ir spec = .ok schemas) :
    Leaves (parseSchemas ir spec) fun types failed names => failed = [] →
      Threads (ComponentFilled ir types) schemas failed names := by
  refine .read_bind fun schemas' hread => ?_
  obtain rfl : schemas = schemas' := Except.ok.inj (hschemas.symm.trans hread)
  have hloop := Appends.foldlM (l := schemas) (f := parseComponent ir)
    (fun entry _ failed => parseComponent_leaves failed entry) []
  refine hloop.post ?_
  rintro failed new ⟨added, rfl, h⟩ types htypes hempty
  refine h.map_entries fun entry _ given new' hgiven hsub hstep => ?_
  exact hstep (List.eq_nil_of_subset_nil (hempty ▸ hgiven)) types fun p hp => htypes p (hsub hp)

end

section

variable {ir : InvalidRead} {spec : JsonObject} {failed : List Str} {s : ParseState}

/-- Counting: as many names are left at the places of structs as the document spells. -/
theorem nodup_of_noneLost (hrun : parseSchemas ir spec {} = .ok failed s) (h : NoneLost ir spec failed s.ast) :
    failed = [] ∧ (documentNames ir spec).Nodup := by
  obtain ⟨schemas, names, hschemas, hthreads, hnodup⟩ := h
  have hspelled := (parseSchemas_names ir hrun).1
  obtain ⟨new, hnew, hleft⟩ := parseSchemas_leaves hschemas _ _ _ hrun
  obtain rfl : s.placed = new := by simpa using hnew
  have hempty : failed = [] := hthreads.eq_nil fun entry _ _ _ h => by
    cases h
    rfl
  have hlength : names.length = (documentNames ir spec).length := by
    have hspelt := hleft (fun n type => (n, type) ∈ s.placed) (fun p hp => hp) hempty
    rw [← hspelled.placed]
    refine hthreads.length_eq hspelt fun entry _ _ _ _ _ h h' => ?_
    cases h with
    | intro _ h =>
      cases h' with
      | intro _ h' => simp [(filledUpTo_sameCount ir _ _ _ _ _ _ _ _ h h').2]
  -- the AST has no names but the spelled ones
  have hsub : names ⊆ documentNames ir spec := by
    refine hthreads.forall_entries fun entry _ _ _ h => ?_
    cases h with
    | intro htype h =>
      intro n hn
      rw [← hspelled.mem]
      rcases List.mem_append.mp hn with hn | hn
      · obtain ⟨type, htype⟩ := FilledUpTo.found h n hn
        exact NormalizedAST.mem_of_getType htype
      · obtain rfl := List.mem_singleton.mp hn
        exact NormalizedAST.mem_of_getType htype
  have hperm := (List.subperm_of_subset hnodup hsub).perm_of_length_le hlength.ge
  exact ⟨hempty, hperm.nodup_iff.mp hnodup⟩

theorem noneLost_of_nodup (hrun : parseSchemas ir spec {} = .ok failed s) (hempty : failed = [])
    (hnodup : (documentNames ir spec).Nodup) : NoneLost ir spec failed s.ast := by
  obtain ⟨schemas, hschemas⟩ : ∃ schemas, componentSchemas ir spec = .ok schemas := by
    cases h : componentSchemas ir spec with
    | ok schemas => exact ⟨schemas, rfl⟩
    | error fault =>
      unfold parseSchemas at hrun
      rw [h] at hrun
      cases hrun
  obtain ⟨new, hnew, hleft⟩ := parseSchemas_leaves hschemas _ _ _ hrun
  obtain rfl : s.placed = new := by simpa using hnew
  have hkept : AllKept s := (allKept_iff hrun).mpr hnodup
  exact ⟨schemas, _, hschemas, hleft _ (fun p hp => hkept.stored p.1 p.2 hp) hempty, hkept.distinct⟩

end

/-- **No schema is lost exactly when** all components can be parsed and the names of the document are pairwise
distinct. -/
theorem none_lost_iff (ir : InvalidRead) (spec : JsonObject) (failed : List Str) (s : ParseState)
    (hrun : parseSchemas ir spec {} = .ok failed s) :
    NoneLost ir spec failed s.ast ↔ unparsable ir spec = [] ∧ (documentNames ir spec).Nodup := by
  rw [← (parseSchemas_names ir hrun).2]
  exact ⟨nodup_of_noneLost hrun, fun ⟨hempty, hnodup⟩ => noneLost_of_nodup hrun hempty hnodup⟩

/-- A document with structs in a property, in the items of an array and in an alternative. -/
def ordersSpec : JsonObject :=
  let place : Json := .obj [("type".toList, .str "object".toList)]
  some [("components".toList, .obj [("schemas".toList, .obj
    [("Order".toList, .obj [("type".toList, .str "object".toList), ("properties".toList, .obj
      [("from".toList, place),
        ("stops".toList, .obj [("type".toList, .str "array".toList), ("items".toList, place)])])]),
      ("Target".toList, .obj [("oneOf".toList, .arr [place])])])])]

theorem none_lost_iff_orders :
    ∃ s, parseSchemas .crash ordersSpec {} = .ok [] s ∧
      (NoneLost .crash ordersSpec [] s.ast ↔
        unparsable .crash ordersSpec = [] ∧ (documentNames .crash ordersSpec).Nodup) :=
  ⟨_, rfl, none_lost_iff .crash ordersSpec [] _ rfl⟩

example : documentNames .crash ordersSpec =
    ["Order_from", "Order_stops_entry", "Order", "Target_alt_0", "Target"].map String.toList := by
  decide

/-- Two properties of an implicit object, each with an inline struct under the same key: the schemas of
the properties are parsed under the empty name, so that both structs are called `_place`. -/
def implicitOrdersSpec : JsonObject :=
  let holder (field : String) : Json := .obj [("properties".toList, .obj
    [("place".toList, .obj [("type".toList, .str "object".toList), ("properties".toList, .obj
      [(field.toList, .obj [("type".toList, .str "string".toList)])])])])]
  some [("components".toList, .obj [("schemas".toList, .obj
    [("Order".toList, .obj [("properties".toList, .obj
      [("from".toList, holder "city"), ("to".toList, holder "zip")])])])])]

/-- Nothing cannot be parsed, and the schemas at `place` share a name, so that one of them is lost. -/
theorem implicit_structs_clash :
    ∃ s, parseSchemas .crash implicitOrdersSpec {} = .ok [] s ∧ ¬ NoneLost .crash implicitOrdersSpec [] s.ast := by
  refine ⟨_, rfl, fun h => ?_⟩
  have hnodup := (nodup_of_noneLost rfl h).2
  revert hnodup
  decide

end Siesta
