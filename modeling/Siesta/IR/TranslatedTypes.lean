import Siesta.Frontend.ObjectForms
import Siesta.IR.ResolvedTypes

/-!
# The C++ types of references, primitives and arrays

A schema that is a reference, a primitive or an array of such a schema has one C++ type, which follows
its structure (`translation`).  What the header gives it depends on the place it stands in: a component,
a member of a struct, or an alternative of a variant.  Each place takes apart the type the parser
returns, and in each an array of arrays is a vector of strings; a component that is a reference is a
string, and so is an alternative that is an alias of a primitive (`types_translate`).
-/

namespace Siesta

open Lib JsonObject HeaderType

/-! ### The schemas and their types -/

/-- A reference to the last part of a path, a primitive, or an array. -/
inductive ValueSchema where
  | ref (target : Str)
  | primitive (t : PrimitiveType)
  | array (items : ValueSchema)

/-- The C++ type of a schema: that of the name for a reference, and a vector for an array. -/
def translation (aliases : Table Str HeaderType) : ValueSchema → HeaderType
  | .ref target => read aliases (sanitize target)
  | .primitive t => read aliases (primitiveToCpp t.kind t.int_format t.num_format)
  | .array items => .vector (translation aliases items)

def ValueSchema.Flat : ValueSchema → Prop
  | .array (.array _) => False
  | _ => True

/-- The schema is written in the document as `v`. -/
inductive IsSchema (ir : InvalidRead) : JsonObject → ValueSchema → Prop
  | ref {v : JsonObject} {path target : Str} (htype : type_ ir v = .ok .unknown)
      (hone : oneOf ir v = .ok []) (hany : anyOf ir v = .ok [])
      (hkeys : ∀ key ∈ objectKeys, hasKey ir v key = .ok false) (href : JsonObject.ref ir v = .ok path)
      (htarget : afterLast '/' path = some target) (hne : target ≠ []) : IsSchema ir v (.ref target)
  | primitive {v : JsonObject} {kind : JsonSchemaType} {t : PrimitiveType} (htype : type_ ir v = .ok kind)
      (hkind : kind ∈ [.string, .integer, .number, .boolean])
      (hread : parsePrimitiveSchema ir v = .ok (.primitive t)) (hinline : isRef ir v = .ok false) :
      IsSchema ir v (.primitive t)
  | array {v u : JsonObject} {items : ValueSchema} (htype : type_ ir v = .ok .array)
      (hitems : JsonObject.items ir v = .ok u) (hinline : isRef ir v = .ok false)
      (inner : IsSchema ir u items) : IsSchema ir v (.array items)

/-! ### Reading the text of a vector -/

theorem readUpTo_enough {aliases : Table Str HeaderType} : ∀ (depth depth' : ℕ) (text : Str),
    text.length < depth → text.length < depth' →
      readUpTo aliases depth text = readUpTo aliases depth' text := by
  intro depth
  induction depth with
  | zero => exact fun _ _ h => absurd h (Nat.not_lt_zero _)
  | succ depth ih =>
    intro depth' text h h'
    obtain ⟨depth', rfl⟩ := Nat.exists_eq_succ_of_ne_zero (by omega : depth' ≠ 0)
    unfold readUpTo
    split
    · rename_i hvector
      have hlt := congrArg List.length hvector
      simp only [vectorOf, List.length_append, List.length_singleton] at hlt
      exact congrArg HeaderType.vector (ih _ _ (by omega) (by omega))
    · split
      · rename_i hmap
        have hlt := congrArg List.length hmap
        simp only [mapOf, List.length_append, List.length_singleton] at hlt
        exact congrArg HeaderType.map (ih _ _ (by omega) (by omega))
      · rfl

theorem read_vectorOf (aliases : Table Str HeaderType) (x : Str) :
    read aliases (vectorOf x) = .vector (read aliases x) := by
  rw [HeaderType.read, readUpTo, if_pos (by rw [elementText_vectorOf]), elementText_vectorOf]
  have hlength : x.length < (vectorOf x).length := by
    simp only [vectorOf, List.length_append, List.length_singleton]
    omega
  exact congrArg HeaderType.vector (readUpTo_enough _ _ _ hlength (by omega))

/-! ### What the parser makes of a schema -/

/-- What the elements of an array are called: an inline array is not among the cases of
`parseArraySchema`. -/
def elementOf : ValueSchema → TypeRef
  | .ref target => ⟨sanitize target, false⟩
  | .primitive t => ⟨primitiveToCpp t.kind t.int_format t.num_format, true⟩
  | .array _ => ⟨"std::string".toList, true⟩

/-- The type of the AST of a schema: `parseSchema` does not look for a reference. -/
def Parsed : ValueSchema → SchemaType → Prop
  | .ref _, type => ∃ description, type = .primitive { kind := .String, description }
  | .primitive t, type => type = .primitive t
  | .array items, type => ∃ description, type = .array { element_type := elementOf items, description }

section

variable {ir : InvalidRead} {v : JsonObject} {S : ValueSchema}

def ValueSchema.typeRef : ValueSchema → TypeRef
  | .ref target => ⟨sanitize target, false⟩
  | _ => {}

def ValueSchema.isRef : ValueSchema → Bool
  | .ref _ => true
  | _ => false

theorem IsSchema.isRef_eq (h : IsSchema ir v S) : JsonObject.isRef ir v = .ok S.isRef := by
  cases h with
  | ref _ _ _ _ href htarget _ =>
    unfold JsonObject.isRef
    rw [href]
    simp [bind, Except.bind, pure, Except.pure, ValueSchema.isRef]
    rintro rfl
    cases htarget
  | primitive _ _ _ hinline => exact hinline
  | array _ _ hinline _ => exact hinline

theorem IsSchema.extractTypeRef_eq (h : IsSchema ir v S) : extractTypeRef ir v = .ok S.typeRef := by
  have hr := h.isRef_eq
  unfold extractTypeRef
  rw [hr]
  cases h with
  | ref _ _ _ _ href htarget _ =>
    simp [bind, Except.bind, pure, Except.pure, ValueSchema.isRef, ValueSchema.typeRef, href, refTarget, htarget]
  | primitive => rfl
  | array => rfl

theorem IsSchema.parsed (h : IsSchema ir v S) : ∀ (fuel : ℕ) (name : Str),
    SameEffect (parseSchemaUpTo ir fuel v name) (parseSchemaUpTo ir fuel v name) fun a b =>
      a = b ∧ Parsed S a := by
  induction h with
  | @ref v path target htype hone hany hkeys _ _ _ =>
    intro fuel name
    cases fuel with
    | zero => exact .throw
    | succ fuel =>
      obtain ⟨desc, hd⟩ := description_of_type htype
      have hparse : parseSchemaUpTo ir (fuel + 1) v name =
          pure (.primitive { kind := .String, description := desc }) := by
        rw [parseSchemaUpTo, parseSchemaBody, read_bind htype]
        dsimp only
        rw [parseUnknownSchema, read_bind hd, read_bind hone, if_neg (by simp), read_bind hany,
          if_neg (by simp), read_bind (hkeys _ (by simp [objectKeys])),
          read_bind (hkeys _ (by simp [objectKeys])), read_bind (hkeys _ (by simp [objectKeys])),
          if_neg (by simp)]
      rw [hparse]
      exact .pure ⟨rfl, desc, rfl⟩
  | @primitive v kind t htype hkind hread _ =>
    intro fuel name
    cases fuel with
    | zero => exact .throw
    | succ fuel =>
      have hparse : parseSchemaUpTo ir (fuel + 1) v name = pure (.primitive t) := by
        rw [parseSchemaUpTo, parseSchemaBody, read_bind htype]
        rcases (by simpa using hkind) with rfl | rfl | rfl | rfl <;>
          · show (liftM (parsePrimitiveSchema ir v) : ParseM SchemaType) = _
            rw [hread]
            rfl
      rw [hparse]
      exact .pure ⟨rfl, rfl⟩
  | @array v u items htype hitems _ inner ih =>
    intro fuel name
    cases fuel with
    | zero => exact .throw
    | succ fuel =>
      obtain ⟨desc, hd⟩ := description_of_type htype
      rw [parseSchemaUpTo, parseSchemaBody, read_bind htype]
      dsimp only
      rw [parseArraySchema, read_bind hd, read_bind hitems, read_bind inner.isRef_eq]
      cases items with
      | ref target =>
        rw [if_pos (by rfl), read_bind inner.extractTypeRef_eq]
        exact .pure ⟨rfl, desc, rfl⟩
      | primitive t =>
        rw [if_neg (by simp [ValueSchema.isRef])]
        refine (sameEffect_refl _).bind fun s s' hs => ?_
        subst hs
        refine (ih fuel _).bind fun a b hab => ?_
        obtain ⟨rfl, rfl⟩ := hab
        exact .pure ⟨rfl, desc, rfl⟩
      | array items =>
        rw [if_neg (by simp [ValueSchema.isRef])]
        refine (sameEffect_refl _).bind fun s s' hs => ?_
        subst hs
        refine (ih fuel _).bind fun a b hab => ?_
        obtain ⟨rfl, _, rfl⟩ := hab
        exact .pure ⟨rfl, desc, rfl⟩

end

/-- The text of a schema that stands in a type. -/
def ValueSchema.text : ValueSchema → Str
  | .ref target => sanitize target
  | .primitive t => primitiveToCpp t.kind t.int_format t.num_format
  | .array items => vectorOf (elementOf items).name

/-! ### The places a schema stands in -/

/-- Where a schema stands in a type of the AST. -/
inductive Place where
  | component
  | member (field : Member)
  | alternative (alt : TypeRef)

/-- The type `n` of the AST has, in this place, what the parser makes of `v`. -/
inductive Stands (ir : InvalidRead) (ast : NormalizedAST) (n : Str) (v : JsonObject) : Place → Prop
  /-- The type itself; an enumeration is a type of its own. -/
  | component {type : SchemaType} {s s' : ParseState} (htype : ast.getType n = some type)
      (hparse : parseSchema ir v n s = .ok type s')
      (hvalues : ∀ t, type = .primitive t → t.enum_values = []) : Stands ir ast n v .component
  | member {t : StructType} {field : Member} {fuel : ℕ} {inner raw : Str} {s s' : ParseState}
      (htype : ast.getType n = some (.struct t)) (hfield : field ∈ t.fields)
      (hparse : propertyType ir (parseSchemaUpTo ir fuel) inner raw v s = .ok field.type s') :
      Stands ir ast n v (.member field)
  | alternative {w : VariantType} {alt : TypeRef} {fuel : ℕ} {name : Str} {before : List TypeRef}
      {item : Json} {s s' : ParseState} (htype : ast.getType n = some (.variant w))
      (halt : alt ∈ w.alternatives) (hitem : ofElement item = .ok v)
      (hparse : parseAlternative ir (parseSchemaUpTo ir fuel) name before item s = .ok (before ++ [alt]) s') :
      Stands ir ast n v (.alternative alt)

/-- The type that a header with these aliases gives to a place of `n`, when `n` is emitted in the state
`st`. -/
def headerType (ho : HashOrders) (ast : NormalizedAST) (aliases : Table Str HeaderType) (st : DefsEmitState)
    (n : Str) : Place → Option HeaderType
  | .component => do
    let type ← ast.getType n
    let (definition, _) ← emitType ho ast n type st
    definition.aliased aliases
  | .member field => some (read aliases field.type.name)
  | .alternative alt => (resolveAlternative ast st.typedef_chain alt).map (read aliases)

/-- The name is an alias of `std::string`. -/
def NamesString (aliases : Table Str HeaderType) (name : Str) : Prop :=
  read aliases name = .named "std::string".toList

/-- The places in which a schema keeps its type: no array of arrays, a component is no reference but to a
string, and the primitives that a reference of an alternative is an alias of are strings. -/
def TranslatedAt (ast : NormalizedAST) (aliases : Table Str HeaderType) (st : DefsEmitState)
    (S : ValueSchema) : Place → Prop
  | .component => S.Flat ∧ ∀ target, S = .ref target → NamesString aliases (sanitize target)
  | .member _ => S.Flat
  | .alternative _ => S.Flat ∧ ∀ target, S = .ref target → ∀ e t, Ends st.typedef_chain (sanitize target) e →
      ast.getType e = some (.primitive t) → t.enum_values = [] → NamesString aliases e

/-! ### The texts of the elements -/

section

variable {aliases : Table Str HeaderType}

theorem read_elementOf (hstring : NamesString aliases "std::string".toList) {S : ValueSchema} :
    read aliases (elementOf S).name = translation aliases S ↔ ∀ items, S ≠ .array items := by
  cases S with
  | ref target => exact iff_of_true rfl (by simp)
  | primitive t => exact iff_of_true rfl (by simp)
  | array items =>
    refine iff_of_false (fun h => ?_) (by simp)
    cases hstring.symm.trans h

/-- The text of a schema inside a type is its C++ type, unless it is an array of arrays. -/
theorem read_text (hstring : NamesString aliases "std::string".toList) (S : ValueSchema) :
    read aliases S.text = translation aliases S ↔ S.Flat := by
  cases S with
  | ref target => exact iff_of_true rfl trivial
  | primitive t => exact iff_of_true rfl trivial
  | array items =>
    have hflat : (∀ inner, items ≠ .array inner) ↔ (ValueSchema.array items).Flat := by
      cases items <;> simp [ValueSchema.Flat]
    rw [ValueSchema.text, read_vectorOf, translation, HeaderType.vector.injEq, read_elementOf hstring, hflat]

end

/-! ### What the parser writes in each place -/

section

variable {ir : InvalidRead} {v : JsonObject} {S : ValueSchema} (h : IsSchema ir v S)

include h

theorem IsSchema.cppTypeFromTypeRef_elementOf : cppTypeFromTypeRef (elementOf S) = (elementOf S).name := by
  have hne : (elementOf S).name ≠ [] := by
    cases h with
    | ref _ _ _ _ _ _ hne => exact sanitize_ne_nil hne
    | @primitive _ _ t =>
      have hmem := primitiveToCpp_mem t.kind t.int_format t.num_format
      intro hnil
      rw [show primitiveToCpp t.kind t.int_format t.num_format = [] from hnil] at hmem
      exact absurd hmem (by decide)
    | array => exact List.cons_ne_nil _ _
  rw [cppTypeFromTypeRef, if_neg (by simpa using hne)]

theorem IsSchema.propertyType_name (fuel : ℕ) (inner raw : Str) :
    SameEffect (propertyType ir (parseSchemaUpTo ir fuel) inner raw v)
      (propertyType ir (parseSchemaUpTo ir fuel) inner raw v) fun a _ => a.name = S.text := by
  unfold propertyType
  rw [read_bind h.isRef_eq]
  cases S with
  | ref target =>
    rw [if_pos (by rfl), h.extractTypeRef_eq]
    exact .pure rfl
  | primitive t =>
    rw [if_neg (by simp [ValueSchema.isRef])]
    refine (h.parsed fuel inner).bind fun a b hab => ?_
    obtain ⟨rfl, rfl⟩ := hab
    exact .pure rfl
  | array items =>
    rw [if_neg (by simp [ValueSchema.isRef])]
    refine (h.parsed fuel inner).bind fun a b hab => ?_
    obtain ⟨rfl, description, rfl⟩ := hab
    cases h with
    | array _ _ _ inner' => exact .pure (congrArg vectorOf inner'.cppTypeFromTypeRef_elementOf)

theorem IsSchema.parseAlternative_ref (fuel : ℕ) (name : Str) (before : List TypeRef) {item : Json}
    (hitem : ofElement item = .ok v) :
    SameEffect (parseAlternative ir (parseSchemaUpTo ir fuel) name before item)
      (parseAlternative ir (parseSchemaUpTo ir fuel) name before item) fun l _ =>
        l = before ++ [⟨S.text, !S.isRef⟩] := by
  unfold parseAlternative
  rw [read_bind hitem, read_bind h.extractTypeRef_eq]
  cases S with
  | ref target =>
    have hne : sanitize target ≠ [] := by
      cases h with
      | ref _ _ _ _ _ _ hne => exact sanitize_ne_nil hne
    rw [if_pos (by simpa [ValueSchema.typeRef] using hne)]
    exact .pure rfl
  | primitive t =>
    rw [if_neg (by simp [ValueSchema.typeRef])]
    refine (h.parsed fuel _).bind fun a b hab => ?_
    obtain ⟨rfl, rfl⟩ := hab
    exact .pure rfl
  | array items =>
    rw [if_neg (by simp [ValueSchema.typeRef])]
    refine (h.parsed fuel _).bind fun a b hab => ?_
    obtain ⟨rfl, description, rfl⟩ := hab
    cases h with
    | array _ _ _ inner' =>
      refine .pure ?_
      show before ++ [⟨vectorOf (cppTypeFromTypeRef _), true⟩] = _
      rw [inner'.cppTypeFromTypeRef_elementOf]
      rfl

end

/-! ### The type of each place -/

section

variable {ir : InvalidRead} {ho : HashOrders} {ast : NormalizedAST} {done : List Str}
  {acc : List Emitted × DefsEmitState} {v : JsonObject} {S : ValueSchema} {aliases : Table Str HeaderType}

/-- An alias of a primitive is read as a string, whatever the primitive. -/
theorem DenoteInv.read_resolved (inv : DenoteInv ast done acc) (hsan : ast.Sanitized)
    (hkeep : ∀ text, Written ast done text → read aliases text = read (aliasesOf acc.1) text) {name : Str}
    (hw : Written ast done name) :
    ∃ r, resolveTypeName ast acc.2.typedef_chain name = some r ∧
      (read aliases r = read aliases name ↔
        ∀ e t, Ends acc.2.typedef_chain name e → ast.getType e = some (.primitive t) → t.enum_values = [] →
          NamesString aliases e) := by
  obtain ⟨e, -, hends, he⟩ := exists_ends inv.emit hw
  refine ⟨endName ast e, resolveTypeName_eq inv.emit hw hends, ?_⟩
  rw [hkeep name hw, ← inv.read_ends hends, ← hkeep e he]
  have hstring : NamesString aliases "std::string".toList :=
    (hkeep _ (written_string hsan)).trans (inv.read_string hsan)
  by_cases hprimitive : ∃ t, ast.getType e = some (.primitive t) ∧ t.enum_values = []
  · obtain ⟨t, ht, henum⟩ := hprimitive
    have hend : endName ast e = "std::string".toList := by
      unfold endName
      rw [ht]
      simp [henum]
    rw [hend, hstring]
    constructor
    · intro he e' _ hends' _ _
      obtain rfl := hends.unique hends'
      exact he.symm
    · exact fun he => (he e t hends ht henum).symm
  · have hend : endName ast e = e := by
      unfold endName
      split
      · rename_i t ht
        split
        · rfl
        · rename_i henum
          exact absurd ⟨t, ht, by simpa using henum⟩ hprimitive
      · rfl
    refine iff_of_true (by rw [hend]) fun e' t hends' ht henum => ?_
    obtain rfl := hends.unique hends'
    exact absurd ⟨t, ht, henum⟩ hprimitive

variable (hstring : NamesString aliases "std::string".toList) (h : IsSchema ir v S)

include hstring h

theorem IsSchema.component_type {n : Str} {st : DefsEmitState} (hstands : Stands ir ast n v .component) :
    ∃ T, headerType ho ast aliases st n .component = some T ∧
      (T = translation aliases S ↔ TranslatedAt ast aliases st S .component) := by
  cases hstands with
  | component htype hparse hvalues =>
    obtain ⟨-, -, -, -, -, hparsed⟩ := (h.parsed _ n).of_ok rfl hparse
    cases S with
    | ref target =>
      obtain ⟨description, rfl⟩ := hparsed
      refine ⟨read aliases "std::string".toList, by rw [headerType, htype]; rfl, ?_⟩
      rw [hstring]
      constructor
      · intro hT
        refine ⟨trivial, fun t ht => ?_⟩
        obtain rfl := ValueSchema.ref.inj ht
        exact hT.symm
      · exact fun hT => (hT.2 target rfl).symm
    | primitive t =>
      obtain rfl := hparsed
      have henum := hvalues t rfl
      refine ⟨read aliases (primitiveToCpp t.kind t.int_format t.num_format), ?_,
        iff_of_true rfl ⟨trivial, by simp⟩⟩
      rw [headerType, htype]
      simp [emitType, henum, CppDefinition.aliased]
    | array items =>
      obtain ⟨description, rfl⟩ := hparsed
      refine ⟨.vector (read aliases (elementOf items).name), by rw [headerType, htype]; rfl, ?_⟩
      rw [← read_vectorOf]
      refine (read_text hstring (.array items)).trans ⟨fun hflat => ⟨hflat, by simp⟩, And.left⟩

theorem IsSchema.member_type {n : Str} {field : Member} {st : DefsEmitState}
    (hstands : Stands ir ast n v (.member field)) :
    ∃ T, headerType ho ast aliases st n (.member field) = some T ∧
      (T = translation aliases S ↔ TranslatedAt ast aliases st S (.member field)) := by
  cases hstands with
  | @member t _ fuel inner raw _ _ _ _ hparse =>
    obtain ⟨-, -, -, -, hname⟩ := (h.propertyType_name fuel inner raw).of_ok rfl hparse
    refine ⟨_, rfl, ?_⟩
    rw [hname]
    exact read_text hstring S

theorem IsSchema.alternative_type {n : Str} {alt : TypeRef} {st : DefsEmitState}
    (hstands : Stands ir ast n v (.alternative alt))
    (hresolved : ∀ w, ast.getType n = some (.variant w) → alt ∈ w.alternatives →
      ∃ r, resolveTypeName ast st.typedef_chain alt.name = some r ∧
        (read aliases r = read aliases alt.name ↔
          ∀ e t, Ends st.typedef_chain alt.name e → ast.getType e = some (.primitive t) →
            t.enum_values = [] → NamesString aliases e)) :
    ∃ T, headerType ho ast aliases st n (.alternative alt) = some T ∧
      (T = translation aliases S ↔ TranslatedAt ast aliases st S (.alternative alt)) := by
  cases hstands with
  | @alternative w _ fuel name before item _ _ htype halt hitem hparse =>
    obtain ⟨-, -, -, -, hl⟩ := (h.parseAlternative_ref fuel name before hitem).of_ok rfl hparse
    obtain rfl : alt = ⟨S.text, !S.isRef⟩ := by simpa using hl
    cases S with
    | ref target =>
      obtain ⟨r, hr, hread⟩ := hresolved w htype halt
      refine ⟨read aliases r, ?_, ?_⟩
      · show (resolveAlternative ast st.typedef_chain _).map _ = _
        rw [resolveAlternative, if_neg (by simp [ValueSchema.isRef]), hr]
        rfl
      · refine hread.trans ⟨fun hends => ⟨trivial, fun t ht => ?_⟩, fun hT => hT.2 target rfl⟩
        obtain rfl := ValueSchema.ref.inj ht
        exact hends
    | primitive t => exact ⟨_, rfl, iff_of_true rfl ⟨trivial, by simp⟩⟩
    | array items =>
      refine ⟨_, rfl, ?_⟩
      exact (read_text hstring (.array items)).trans ⟨fun hflat => ⟨hflat, by simp⟩, And.left⟩

end

/-! ### The header of a document -/

/-- The definitions of other types leave the alias of a name alone. -/
theorem find_aliasesOf_run {ho : HashOrders} {ast : NormalizedAST} (hnames : ast.NamedByKey) {k : Str} :
    ∀ (rest : List Str) (acc acc' : List Emitted × DefsEmitState), k ∉ rest →
      rest.foldlM (emitNext ho ast) acc = some acc' →
        (aliasesOf acc'.1).find k = (aliasesOf acc.1).find k := by
  intro rest
  induction rest with
  | nil =>
    intro acc acc' _ hrun
    obtain rfl : acc = acc' := Option.some.inj hrun
    rfl
  | cons n rest ih =>
    intro acc acc' hk hrun
    rw [List.mem_cons, not_or] at hk
    rw [List.foldlM_cons] at hrun
    obtain ⟨acc₁, hstep, hrun⟩ := Option.bind_eq_some_iff.mp hrun
    rw [ih acc₁ acc' hk.2 hrun]
    unfold emitNext at hstep
    split at hstep
    · obtain rfl : acc = acc₁ := Option.some.inj hstep
      rfl
    · rename_i type htype
      obtain ⟨⟨d, st'⟩, hemit, hstep⟩ := Option.bind_eq_some_iff.mp hstep
      obtain rfl : (acc.1 ++ [⟨n, d⟩], st') = acc₁ := Option.some.inj hstep
      rw [aliasesOf_snoc]
      exact find_declare (emitType_aliased hnames htype hemit _) hk.1

/-- **Types translate compositionally**, but for arrays of arrays, components that are references, and
alternatives that are aliases of primitives.  The loop over the sorted types reaches each type of a
document, and at each place of it that a schema stands in, the type the header gives to the place is the
translation of the schema exactly when none of these is the case, or the string it becomes is its type. -/
theorem types_translate (ir : InvalidRead) (ho : HashOrders) (spec : JsonObject) (failed : List Str)
    (s : ParseState) (hrun : parseSchemas ir spec {} = .ok failed s) (order : TopologicalOrder)
    (hsort : sortTypes ho s.ast = some order) (hacyclic : order.has_cycles = false)
    (before : List Str) (n : Str) (after : List Str) (hpoint : order.ordered_types = before ++ n :: after) :
    ∃ defs acc, generateDefsHpp ho order s.ast = some defs ∧
      before.foldlM (emitNext ho s.ast) ([], {}) = some acc ∧
      ∀ v S place, IsSchema ir v S → Stands ir s.ast n v place →
        ∃ T, headerType ho s.ast (aliasesOf defs) acc.2 n place = some T ∧
          (T = translation (aliasesOf defs) S ↔ TranslatedAt s.ast (aliasesOf defs) acc.2 S place) := by
  obtain ⟨hsan, hnames, horder⟩ := parsed_sorts hrun hsort hacyclic
  obtain ⟨acc, hacc, inv⟩ := denote_run ho hsan hnames horder before (n :: after) hpoint
  obtain ⟨accEnd, hend, invEnd⟩ := denote_run ho hsan hnames horder order.ordered_types [] (by simp)
  refine ⟨accEnd.1, acc, by rw [generateDefsHpp, hend]; rfl, hacc, fun v S place hS hstands => ?_⟩
  -- what is written so far is read the same in the end
  have hkeep : ∀ text, Written s.ast before text →
      read (aliasesOf accEnd.1) text = read (aliasesOf acc.1) text := by
    intro text hw
    have hrest : (n :: after).foldlM (emitNext ho s.ast) acc = some accEnd := by
      rw [hpoint, List.foldlM_append, hacc] at hend
      exact hend
    refine read_congr fun m hm => ?_
    by_cases hast : m ∈ s.ast
    · have hmem := hw m hast hm
      refine find_aliasesOf_run hnames _ _ _ (fun hlater => ?_) hrest
      exact (List.nodup_append.mp (hpoint ▸ horder.nodup)).2.2 m hmem m hlater rfl
    · refine find_aliasesOf_run hnames _ _ _ (fun hlater => ?_) hrest
      exact hast (horder.mem m (hpoint ▸ List.mem_append_right _ hlater))
  have hstring := invEnd.read_string hsan
  cases place with
  | component => exact hS.component_type hstring hstands
  | member field => exact hS.member_type hstring hstands
  | alternative alt =>
    refine hS.alternative_type hstring hstands fun w hw halt => ?_
    exact inv.read_resolved hsan hkeep (horder.before before n after _ hpoint hw _ halt)

/-! ### Documents with arrays -/

def arraySpec (item array : String) (schema items : Json) : JsonObject :=
  some [("components".toList, .obj [("schemas".toList, .obj
    [(item.toList, schema),
      (array.toList, .obj [("type".toList, .str "array".toList), ("items".toList, items)])])])]

/-- The tags are a vector of `Tag`. -/
theorem types_translate_tags :
    ∃ s order defs acc T,
      parseSchemas .crash (arraySpec "Tag" "Tags" (.obj [("type".toList, .str "string".toList)]) (refTo "Tag")) {} =
        .ok [] s ∧
      sortTypes (HashOrder.newestFirst _) s.ast = some order ∧
      order.ordered_types = ["Tag".toList] ++ "Tags".toList :: [] ∧
      generateDefsHpp (HashOrder.newestFirst _) order s.ast = some defs ∧
      ["Tag".toList].foldlM (emitNext (HashOrder.newestFirst _) s.ast) ([], {}) = some acc ∧
      headerType (HashOrder.newestFirst _) s.ast (aliasesOf defs) acc.2 "Tags".toList .component = some T ∧
      T = translation (aliasesOf defs) (.array (.ref "Tag".toList)) := by
  obtain ⟨defs, acc, hdefs, hacc, htypes⟩ := types_translate .crash (HashOrder.newestFirst _)
    (arraySpec "Tag" "Tags" (.obj [("type".toList, .str "string".toList)]) (refTo "Tag")) [] _ rfl
    ⟨["Tag".toList, "Tags".toList], false, []⟩ rfl rfl ["Tag".toList] "Tags".toList [] rfl
  have hschema : IsSchema .crash (ofMember (.obj [("type".toList, .str "array".toList), ("items".toList, refTo "Tag")]))
      (.array (.ref "Tag".toList)) :=
    .array rfl rfl rfl (.ref rfl rfl rfl (by decide) rfl rfl (by decide))
  obtain ⟨T, hT, htranslated⟩ := htypes _ _ .component hschema
    (.component (s := {}) rfl rfl fun t ht => by cases ht)
  exact ⟨_, _, defs, acc, T, rfl, rfl, rfl, hdefs, hacc, hT, htranslated.mpr ⟨trivial, by simp⟩⟩

def rowSchema : Json :=
  .obj [("type".toList, .str "array".toList),
    ("items".toList, .obj [("type".toList, .str "number".toList)])]

/-- The rows of a matrix are strings. -/
theorem array_of_arrays_not_translated :
    ∃ s order defs acc v S T,
      parseSchemas .crash (arraySpec "Row" "Matrix" rowSchema rowSchema) {} = .ok [] s ∧
      sortTypes (HashOrder.newestFirst _) s.ast = some order ∧ order.has_cycles = false ∧
      order.ordered_types = [] ++ "Matrix".toList :: ["Row".toList] ∧
      generateDefsHpp (HashOrder.newestFirst _) order s.ast = some defs ∧
      ([] : List Str).foldlM (emitNext (HashOrder.newestFirst _) s.ast) ([], {}) = some acc ∧
      IsSchema .crash v S ∧ Stands .crash s.ast "Matrix".toList v .component ∧
      headerType (HashOrder.newestFirst _) s.ast (aliasesOf defs) acc.2 "Matrix".toList .component = some T ∧
      T ≠ translation (aliasesOf defs) S := by
  refine ⟨_, ⟨["Matrix".toList, "Row".toList], false, []⟩, _, _,
    ofMember (.obj [("type".toList, .str "array".toList), ("items".toList, rowSchema)]),
    .array (.array (.primitive { kind := .Number })), _, rfl, rfl, rfl, rfl, rfl, rfl, ?_, ?_, rfl, ?_⟩
  · exact .array rfl rfl rfl (.array rfl rfl rfl (.primitive rfl (by decide) rfl rfl))
  · exact .component (s := {}) rfl rfl fun t ht => by cases ht
  · intro h
    cases HeaderType.vector.inj h

end Siesta
