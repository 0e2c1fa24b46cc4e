import Siesta.Frontend.Origins
import Siesta.Lib.Lockstep
import Mathlib.Data.List.Dedup

/-!
# The names of the inline schemas

The parser makes up the names of the structs on its way down: out of the name above and the property,
or of the number of an alternative, of a base, or of the types stored so far.  `schemaNames` reads these
names off a schema alone, without the AST, and `documentNames` those of a whole document.  The parser
spells the same names (`parseSchemas_names`), and loses no schema exactly when they are pairwise
distinct (`allKept_iff`).
-/

namespace Siesta

open Lib JsonObject

/-! ### The names of a schema -/

/-- The names spelled so far, one for each type that is to be stored. -/
abbrev NameM : Type → Type := EStateM Stop (List Str)

instance : MonadLift (Except Fault) NameM where
  monadLift x := fun ns =>
    match x with
    | .ok a => .ok a ns
    | .error f => .error (.fault f) ns

/-- What a schema becomes, as far as the names around it depend on it. -/
inductive SchemaShape where
  | struct
  /-- A variant with so many alternatives. -/
  | variant (alternatives : ℕ)
  | other

/-- A type is to be stored under the name `n`. -/
def spell (n : Str) : NameM Unit := modify fun ns => ns ++ [n]

/-- Only a struct is stored under a name of its own. -/
def spellStruct (raw : Str) : SchemaShape → NameM Unit
  | .struct => spell (sanitize raw)
  | _ => pure ()

/-- The name of an inline alternative, and how many alternatives there are with it. -/
def spellAlternative (name : Str) (n : ℕ) : SchemaShape → NameM ℕ
  | .struct => do
    spell (sanitize (name ++ "_alt_".toList ++ (toString n).toList))
    return n + 1
  | .variant m => return n + m
  | .other => return n + 1

section

variable (ir : InvalidRead)

section

-- The names of the schemas inside.
variable (inner : JsonObject → Str → NameM SchemaShape)

def propertySchemaNames (innerName raw : Str) (prop_schema : JsonObject) : NameM Unit := do
  let _ ← prop_schema.description ir
  if ← prop_schema.isRef ir then
    let _ ← extractTypeRef ir prop_schema
    return ()
  else
    let shape ← inner prop_schema innerName
    spellStruct raw shape

/-- The names of one alternative, and how many alternatives there are with it. -/
def alternativeNames (name : Str) (n : ℕ) (item : Json) : NameM ℕ := do
  let alt ← ofElement item
  let alt_ref ← extractTypeRef ir alt
  if !alt_ref.name.isEmpty then return n + 1
  else
    let shape ← inner alt (name ++ "_inline".toList)
    spellAlternative name n shape

def variantNames (items : List Json) (name : Str) : NameM SchemaShape := do
  let n ← items.foldlM (alternativeNames ir inner name) 0
  return .variant n

def objectNames (schema : JsonObject) (name : Str) : NameM SchemaShape := do
  let _ ← schema.description ir
  let oneOf ← schema.oneOf ir
  let anyOf ← schema.anyOf ir
  if !oneOf.isEmpty || !anyOf.isEmpty then
    variantNames ir inner (if !oneOf.isEmpty then oneOf else anyOf) name
  else
    let allOf ← schema.allOf ir
    let _ ← (allOf.foldlM (refBase ir) [] : Except Fault (List TypeRef))
    let props ← schema.properties ir
    let _ ← props.mapM fun p =>
      let child := name ++ ['_'] ++ p.1
      propertySchemaNames ir inner child child (ofMember p.2)
    return .struct

/-- The names of one base, and how many bases there are with it. -/
def baseNames (name : Str) (n : ℕ) (item : Json) : NameM ℕ := do
  let allOf_schema ← ofElement item
  if ← allOf_schema.isRef ir then
    let base_ref ← extractTypeRef ir allOf_schema
    return if base_ref.name.isEmpty then n else n + 1
  else
    let inline_name := name ++ "_base_".toList ++ (toString n).toList
    match ← inner allOf_schema inline_name with
    | .struct => do
      spell (sanitize inline_name)
      return n + 1
    | _ => return n

def implicitObjectNames (obj : JsonObject) (name : Str) : NameM SchemaShape := do
  let _ ← obj.description ir
  let allOf ← obj.allOf ir
  let _ ← allOf.foldlM (baseNames ir inner name) 0
  let props ← obj.properties ir
  let _ ← props.mapM fun p => propertySchemaNames ir inner [] (name ++ ['_'] ++ p.1) (ofMember p.2)
  return .struct

/-- The names of a schema without a type. -/
def unknownNames (schema : JsonObject) (name : Str) : NameM SchemaShape := do
  let _ ← schema.description ir
  let oneOf ← schema.oneOf ir
  if !oneOf.isEmpty then variantNames ir inner oneOf name
  else
    let anyOf ← schema.anyOf ir
    if !anyOf.isEmpty then variantNames ir inner anyOf name
    else if (← schema.hasKey ir "properties".toList) || (← schema.hasKey ir "allOf".toList) ||
        (← schema.hasKey ir "additionalProperties".toList) then
      implicitObjectNames ir inner schema name
    else return .other

/-- The names of an array: the number in the name of the items of a nameless array is that of the
different names before it. -/
def arrayNames (schema : JsonObject) (name : Str) : NameM SchemaShape := do
  let _ ← schema.description ir
  let items ← schema.items ir
  if ← items.isRef ir then
    let _ ← extractTypeRef ir items
    return .other
  else
    let ns ← get
    let elem_name := elementName name ns.dedup.length
    let shape ← inner items elem_name
    spellStruct elem_name shape
    return .other

def schemaNamesBody (schema : JsonObject) (name : Str) : NameM SchemaShape := do
  match ← schema.type_ ir with
  | .object => objectNames ir inner schema name
  | .array => arrayNames ir inner schema name
  | .string | .integer | .number | .boolean => do
    let _ ← parsePrimitiveSchema ir schema
    return .other
  | .unknown => unknownNames ir inner schema name
  | .null => do
    let _ ← schema.description ir
    return .other

end

/-- The names of a schema, for a bounded number of nested calls. -/
def schemaNamesUpTo : ℕ → JsonObject → Str → NameM SchemaShape
  | 0, _, _ => throw .outOfFuel
  | fuel + 1, schema, name => schemaNamesBody ir (schemaNamesUpTo fuel) schema name

/-- The names of a schema that is parsed under `name`. -/
def schemaNames (schema : JsonObject) (name : Str) : NameM SchemaShape :=
  schemaNamesUpTo ir (schema.depth + 1) schema name

/-- The names of a component: those inside it, and its own. -/
def componentNames (failed : List Str) (entry : Str × Json) : NameM (List Str) :=
  tryCatch
    (do
      let safe_name := sanitize entry.1
      let _ ← schemaNames ir (ofMember entry.2) safe_name
      spell safe_name
      return failed)
    fun
    | .fault .exception => return failed ++ [entry.1]
    | stop => throw stop

/-- The names of a document, and the components that cannot be parsed. -/
def nameDocument (spec : JsonObject) : NameM (List Str) := do
  let schemas ← componentSchemas ir spec
  schemas.foldlM (componentNames ir) []

def documentNames (spec : JsonObject) : List Str :=
  match nameDocument ir spec [] with
  | .ok _ ns => ns
  | .error _ ns => ns

/-- The components of a document that cannot be parsed. -/
def unparsable (spec : JsonObject) : List Str :=
  match nameDocument ir spec [] with
  | .ok failed _ => failed
  | .error _ _ => []

end

/-! ### The parser spells these names -/

/-- The types that were to be stored have the names `ns`, and these are the names of the AST. -/
structure Spelled (s : ParseState) (ns : List Str) : Prop where
  placed : s.placed.map Prod.fst = ns
  mem : ∀ n, n ∈ s.ast ↔ n ∈ ns
  added : ∀ n ∈ s.added_types, n ∈ ns

/-- The AST has as many types as there are different names. -/
theorem Spelled.typeCount {s : ParseState} {ns : List Str} (h : Spelled s ns) :
    s.ast.getTypeCount = ns.dedup.length := by
  have hperm : s.ast.types_.keys.Perm ns.dedup := by
    refine (List.perm_ext_iff_of_nodup s.ast.types_.keys_nodup ns.nodup_dedup).mpr fun n => ?_
    rw [List.mem_dedup, ← h.mem n]
    exact AList.mem_keys
  have hlen : s.ast.types_.keys.length = s.ast.getTypeCount := List.length_map _
  rw [← hlen, hperm.length_eq]

/-- The shape of a type that was parsed under `name`. -/
def HasShape (name : Str) : SchemaType → SchemaShape → Prop
  | .struct t, .struct => t.name = name
  | .variant t, .variant n => t.alternatives.length = n
  | .primitive _, .other | .array _, .other | .map _, .other | .enum _, .other => True
  | _, _ => False

/-- A parse and the naming of the same, from states with the same names. -/
abbrev SameNames {α β : Type} (c : ParseM α) (d : NameM β) (Q : α → β → Prop) : Prop :=
  Lockstep Spelled c d Q

theorem Lib.Lockstep.read_bind {α β γ : Type} {x : Except Fault α} {f : α → ParseM β} {g : α → NameM γ}
    {Q : β → γ → Prop} (h : ∀ a, x = .ok a → SameNames (f a) (g a) Q) :
    SameNames ((liftM x : ParseM α) >>= f) ((liftM x : NameM α) >>= g) Q := by
  cases x with
  | ok a => exact h a rfl
  | error fault => exact fun s ns hs => ⟨hs, rfl⟩

theorem Lib.Lockstep.read {α : Type} (x : Except Fault α) :
    SameNames (liftM x : ParseM α) (liftM x : NameM α) fun a b => a = b := by
  cases x with
  | ok a => exact fun s ns hs => ⟨hs, rfl⟩
  | error fault => exact fun s ns hs => ⟨hs, rfl⟩

theorem guardDigit_ne_nil {s : Str} (h : s ≠ []) : guardDigit s ≠ [] := by
  cases s with
  | nil => exact absurd rfl h
  | cons c s =>
    unfold guardDigit
    dsimp only
    split <;> simp

theorem sanitize_ne_nil {raw : Str} (h : raw ≠ []) : sanitize raw ≠ [] := by
  unfold sanitize
  rw [if_neg h]
  refine guardDigit_ne_nil ?_
  have hreplaced : replaceChars raw ≠ [] := by simpa [replaceChars] using h
  split
  · simp
  · exact hreplaced

theorem addInlineStruct_spell (raw : Str) (t : StructType) :
    SameNames (addInlineStruct raw t) (spell (sanitize raw)) fun n _ => n = sanitize raw := by
  intro s ns hs
  unfold addInlineStruct
  by_cases hmem : sanitize raw ∈ s.added_types
  · simp only [hmem, if_true]
    refine ⟨⟨by simp [hs.placed], fun n => ?_, fun n hn => ?_⟩, rfl⟩
    · rw [hs.mem, List.mem_append, List.mem_singleton]
      constructor
      · exact .inl
      · rintro (hn | rfl)
        · exact hn
        · exact hs.added _ hmem
    · exact List.mem_append_left _ (hs.added n hn)
  · simp only [hmem, if_false]
    refine ⟨⟨by simp [hs.placed], fun n => ?_, fun n hn => ?_⟩, rfl⟩
    · rw [NormalizedAST.mem_addType, List.mem_append, List.mem_singleton, hs.mem, or_comm]
    · rcases List.mem_cons.mp hn with rfl | hn
      · simp
      · exact List.mem_append_left _ (hs.added n hn)

/-- What the text of an inline property or element is made of. -/
theorem inlineMemberType_spell (raw : Str) {name : Str} {type : SchemaType} {shape : SchemaShape}
    (h : HasShape name type shape) :
    SameNames (inlineMemberType raw type) (spellStruct raw shape) fun _ _ => True := by
  cases type <;> cases shape <;> first
    | exact h.elim
    | exact (addInlineStruct_spell raw _).post fun _ _ _ => trivial
    | exact .pure trivial

theorem inlineElementType_spell (elem_name : Str) {name : Str} {type : SchemaType} {shape : SchemaShape}
    (h : HasShape name type shape) :
    SameNames (inlineElementType elem_name type) (spellStruct elem_name shape) fun _ _ => True := by
  cases type <;> cases shape <;> first
    | exact h.elim
    | exact (addInlineStruct_spell elem_name _).post fun _ _ _ => trivial
    | exact .pure trivial

theorem inlineAlternatives_spell (name : Str) (n : ℕ) {inner : Str} {type : SchemaType}
    {shape : SchemaShape} (h : HasShape inner type shape) :
    SameNames (inlineAlternatives name n type) (spellAlternative name n shape)
      fun added k => n + added.length = k := by
  cases type <;> cases shape <;> first
    | exact h.elim
    | exact .pure rfl
    | skip
  · refine (addInlineStruct_spell _ _).bind fun text _ htext => .pure ?_
    have hne : text ≠ [] := htext ▸ sanitize_ne_nil (by simp)
    simp [hne]
  · exact .pure (by rw [show _ = _ from h])

section

variable {ir : InvalidRead} {o : JsonObject} {parseInner : JsonObject → Str → ParseM SchemaType}
  {inner : JsonObject → Str → NameM SchemaShape}

-- The schemas inside are named as they are parsed.
variable (hinner : ∀ v name, SameNames (parseInner v name) (inner v name) (HasShape name))

include hinner

theorem parseProperty_names (innerName raw prop_name : Str) (v : JsonObject) :
    SameNames (parseProperty ir parseInner innerName raw prop_name v)
      (propertySchemaNames ir inner innerName raw v) fun _ _ => True := by
  refine .read_bind fun description _ => ?_
  refine Lockstep.map_left (Q := fun _ _ => True) ?_ fun _ _ _ => trivial
  refine .read_bind fun r _ => ?_
  split
  · exact (Lockstep.read (extractTypeRef ir v)).map_right fun _ _ _ => trivial
  · refine (hinner v innerName).bind fun type shape hshape => ?_
    exact (inlineMemberType_spell raw hshape).map_left fun _ _ _ => trivial

theorem parseAlternative_names (name : Str) (alternatives : List TypeRef) (n : ℕ)
    (hn : alternatives.length = n) (item : Json) :
    SameNames (parseAlternative ir parseInner name alternatives item)
      (alternativeNames ir inner name n item) fun alternatives n => alternatives.length = n := by
  subst hn
  refine .read_bind fun alt _ => .read_bind fun alt_ref _ => ?_
  split
  · exact .pure (by simp)
  · refine (hinner alt _).bind fun type shape hshape => ?_
    exact (inlineAlternatives_spell name _ hshape).map_left fun added k hk => by
      rw [List.length_append, hk]

theorem buildVariant_names (items : List Json) (name desc inner' : Str) :
    SameNames (buildVariant ir parseInner items name desc) (variantNames ir inner items name)
      (HasShape inner') := by
  have hloop : SameNames (items.foldlM (parseAlternative ir parseInner name) [])
      (items.foldlM (alternativeNames ir inner name) 0) fun alternatives n => alternatives.length = n :=
    .foldlM (fun item _ alternatives n hn => parseAlternative_names hinner name alternatives n hn item) rfl
  exact hloop.bind fun alternatives n hn => .pure hn

theorem parseObjectSchema_names (name : Str) :
    SameNames (parseObjectSchema ir parseInner o name) (objectNames ir inner o name) (HasShape name) := by
  refine .read_bind fun desc _ => .read_bind fun oneOf _ => .read_bind fun anyOf _ => ?_
  split
  · exact buildVariant_names hinner _ name desc name
  · refine .read_bind fun allOf _ => .read_bind fun bases _ => .read_bind fun props _ => ?_
    exact (Lockstep.mapM fun p _ => parseProperty_names hinner _ _ p.1 (ofMember p.2)).bind
      fun fields _ _ => .pure rfl

theorem parseBase_names (name : Str) (bases : List TypeRef) (n : ℕ) (hn : bases.length = n) (item : Json) :
    SameNames (parseBase ir parseInner name bases item) (baseNames ir inner name n item)
      fun bases n => bases.length = n := by
  subst hn
  refine .read_bind fun v _ => .read_bind fun r _ => ?_
  split
  · refine .read_bind fun base_ref _ => .pure ?_
    split <;> simp
  · refine (hinner v _).bind fun type shape hshape => ?_
    cases type <;> cases shape <;> first
      | exact hshape.elim
      | exact .pure rfl
      | skip
    rename_i t
    have hname : t.name = name ++ "_base_".toList ++ (toString bases.length).toList := hshape
    dsimp only
    rw [← hname]
    exact (addInlineStruct_spell t.name t).bind fun n _ _ => .pure (by simp)

theorem parseImplicitObject_names (name : Str) :
    SameNames (parseImplicitObject ir parseInner o name) (implicitObjectNames ir inner o name)
      (HasShape name) := by
  refine .read_bind fun description _ => .read_bind fun allOf _ => ?_
  have hbases : SameNames (allOf.foldlM (parseBase ir parseInner name) [])
      (allOf.foldlM (baseNames ir inner name) 0) fun bases n => bases.length = n :=
    .foldlM (fun item _ bases n hn => parseBase_names hinner name bases n hn item) rfl
  refine hbases.bind fun bases n _ => .read_bind fun props _ => ?_
  exact (Lockstep.mapM fun p _ => parseProperty_names hinner _ _ p.1 (ofMember p.2)).bind
    fun fields _ _ => .pure rfl

theorem parseUnknownSchema_names (name : Str) :
    SameNames (parseUnknownSchema ir parseInner o name) (unknownNames ir inner o name)
      (HasShape name) := by
  refine .read_bind fun desc _ => .read_bind fun oneOf _ => ?_
  split
  · exact buildVariant_names hinner oneOf name desc name
  · refine .read_bind fun anyOf _ => ?_
    split
    · exact buildVariant_names hinner anyOf name desc name
    · refine .read_bind fun p _ => .read_bind fun a _ => .read_bind fun m _ => ?_
      split
      · exact parseImplicitObject_names hinner name
      · exact .pure trivial

theorem parseArraySchema_names (name : Str) :
    SameNames (parseArraySchema ir parseInner o name) (arrayNames ir inner o name) (HasShape name) := by
  refine .read_bind fun description _ => .read_bind fun items _ => .read_bind fun r _ => ?_
  split
  · exact .read_bind fun _ _ => .pure trivial
  · refine (Lockstep.get fun s ns hs => hs.typeCount).bind fun s ns hcount => ?_
    rw [hcount]
    refine (hinner items _).bind fun type shape hshape => ?_
    exact (inlineElementType_spell _ hshape).bind fun _ _ _ => .pure trivial

theorem parseSchemaBody_names (name : Str) :
    SameNames (parseSchemaBody ir parseInner o name) (schemaNamesBody ir inner o name)
      (HasShape name) := by
  have hprimitive : SameNames (liftM (parsePrimitiveSchema ir o) : ParseM SchemaType)
      (do
        let _ ← parsePrimitiveSchema ir o
        return .other : NameM SchemaShape) (HasShape name) := by
    cases h : parsePrimitiveSchema ir o with
    | ok type =>
      obtain ⟨t, rfl⟩ := parsePrimitiveSchema_primitive h
      exact fun s ns hs => ⟨hs, trivial⟩
    | error fault => exact fun s ns hs => ⟨hs, rfl⟩
  refine .read_bind fun type _ => ?_
  cases type with
  | object => exact parseObjectSchema_names hinner name
  | array => exact parseArraySchema_names hinner name
  | unknown => exact parseUnknownSchema_names hinner name
  | null => exact .read_bind fun description _ => .pure trivial
  | string => exact hprimitive
  | number => exact hprimitive
  | integer => exact hprimitive
  | boolean => exact hprimitive

end

section

variable (ir : InvalidRead)

theorem parseSchemaUpTo_names : ∀ (fuel : ℕ) (o : JsonObject) (name : Str),
    SameNames (parseSchemaUpTo ir fuel o name) (schemaNamesUpTo ir fuel o name) (HasShape name) := by
  intro fuel
  induction fuel with
  | zero => exact fun o name => .throw
  | succ fuel ih => exact fun o name => parseSchemaBody_names ih name

theorem addComponent_spell (safe_name : Str) (type : SchemaType) :
    SameNames (addComponent safe_name type) (spell safe_name) fun _ _ => True := by
  intro s ns hs
  refine ⟨⟨by simp [hs.placed], fun n => ?_, fun n hn => List.mem_append_left _ (hs.added n hn)⟩, trivial⟩
  rw [NormalizedAST.mem_addType, List.mem_append, List.mem_singleton, hs.mem, or_comm]

theorem parseComponent_names (failed : List Str) (entry : Str × Json) :
    SameNames (parseComponent ir failed entry) (componentNames ir failed entry) fun a b => a = b := by
  refine Lockstep.tryCatch ?_ fun stop => ?_
  · refine (parseSchemaUpTo_names ir _ _ _).bind fun type shape _ => ?_
    exact (addComponent_spell _ type).bind fun _ _ _ => .pure rfl
  · cases stop with
    | outOfFuel => exact .throw
    | fault f =>
      cases f with
      | exception => exact .pure rfl
      | terminate => exact .throw
      | crash => exact .throw

/-- **The parser spells the names of the document**, one for each type it was to store. -/
theorem parseSchemas_names {spec : JsonObject} {failed : List Str} {s : ParseState}
    (hrun : parseSchemas ir spec {} = .ok failed s) :
    Spelled s (documentNames ir spec) ∧ failed = unparsable ir spec := by
  have hloop : SameNames (parseSchemas ir spec) (nameDocument ir spec) fun a b => a = b :=
    .read_bind fun schemas _ => .foldlM (fun entry _ failed failed' h => by
      subst h
      exact parseComponent_names ir failed entry) rfl
  have hstart : Spelled {} [] := ⟨rfl, fun n => by simp [Membership.mem], by simp⟩
  obtain ⟨b, ns, hnames, hspelled, rfl⟩ := hloop.of_ok hstart hrun
  rw [documentNames, unparsable, hnames]
  exact ⟨hspelled, rfl⟩

end

/-! ### Every type is kept -/

/-- The types that were to be stored have names of their own, and the AST has them under these names. -/
structure AllKept (s : ParseState) : Prop where
  distinct : (s.placed.map Prod.fst).Nodup
  stored : ∀ n type, (n, type) ∈ s.placed → s.ast.getType n = some type

/-- As long as the names are distinct, every type is stored. -/
structure StoredInv (s : ParseState) : Prop where
  added : ∀ n ∈ s.added_types, n ∈ s.placed.map Prod.fst
  stored : (s.placed.map Prod.fst).Nodup → ∀ n type, (n, type) ∈ s.placed → s.ast.getType n = some type

/-- A type is stored under a new name. -/
theorem StoredInv.snoc {s : ParseState} (inv : StoredInv s) {n : Str} {type : SchemaType}
    (hnd : ((s.placed ++ [(n, type)]).map Prod.fst).Nodup) (m : Str) (u : SchemaType)
    (hm : (m, u) ∈ s.placed ++ [(n, type)]) : (s.ast.addType n type).getType m = some u := by
  rw [List.map_append, List.nodup_append] at hnd
  obtain ⟨hold, -, hnew⟩ := hnd
  rw [NormalizedAST.getType_addType]
  rcases List.mem_append.mp hm with hm | hm
  · have hne : m ≠ n := hnew m (List.mem_map_of_mem hm) n (by simp)
    rw [if_neg hne]
    exact inv.stored hold m u hm
  · obtain ⟨rfl, rfl⟩ := Prod.mk.inj (List.mem_singleton.mp hm)
    rw [if_pos rfl]

theorem addInlineStruct_stored (raw : Str) (t : StructType) :
    Maintains StoredInv (addInlineStruct raw t) fun _ => True := by
  intro s hs
  have hle := addInlineStruct_le raw t s trivial
  unfold addInlineStruct at hle ⊢
  by_cases hmem : sanitize raw ∈ s.added_types
  · simp only [hmem, if_true] at hle ⊢
    refine ⟨hle.1, ⟨fun n hn => ?_, fun hnd => ?_⟩, trivial⟩
    · rw [List.map_append]
      exact List.mem_append_left _ (hs.added n hn)
    · -- the name has been put down before
      rw [List.map_append, List.nodup_append] at hnd
      exact absurd rfl (hnd.2.2 _ (hs.added _ hmem) (sanitize raw) (by simp))
  · simp only [hmem, if_false] at hle ⊢
    refine ⟨hle.1, ⟨fun n hn => ?_, fun hnd => hs.snoc hnd⟩, trivial⟩
    rw [List.map_append]
    rcases List.mem_cons.mp hn with rfl | hn
    · simp
    · exact List.mem_append_left _ (hs.added n hn)

theorem addComponent_stored (n : Str) (type : SchemaType) :
    Maintains StoredInv (addComponent n type) fun _ => True := by
  intro s hs
  refine ⟨⟨fun _ h => h, fun _ h => NormalizedAST.mem_addType.mpr (.inr h), List.prefix_append _ _⟩,
    ⟨fun m hm => ?_, fun hnd => hs.snoc hnd⟩, trivial⟩
  rw [List.map_append]
  exact List.mem_append_left _ (hs.added m hm)

/-- Every type is kept exactly when the names of the document are pairwise distinct. -/
theorem allKept_iff {ir : InvalidRead} {spec : JsonObject} {failed : List Str} {s : ParseState}
    (hrun : parseSchemas ir spec {} = .ok failed s) : AllKept s ↔ (documentNames ir spec).Nodup := by
  have hloop : Maintains StoredInv (parseSchemas ir spec) fun _ => True :=
    parseSchemas_maintains (S := fun _ => True) (fun raw t _ => addInlineStruct_stored raw t)
      (fun n type _ => addComponent_stored n type) fun _ _ _ _ _ _ _ _ => trivial
  have hinit : StoredInv {} := ⟨by simp, by simp⟩
  obtain ⟨-, inv, -⟩ := hloop.of_ok hinit hrun
  rw [← (parseSchemas_names ir hrun).1.placed]
  exact ⟨fun h => h.distinct, fun h => ⟨h, inv.stored h⟩⟩

end Siesta
