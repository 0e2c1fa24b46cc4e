import Siesta.Support.Json
import Mathlib.Logic.Relation

/-!
# Reading the document: `generator/src/Frontend/openapi.hpp`, `openapi.cpp`

The document is read through views of its objects.  A view may be invalid (the field it was taken
from is missing, or a member is no object), and a read can go wrong in three ways: it throws, it
throws out of a `noexcept` function, or it goes through the null pointer of an invalid view.
-/

namespace Siesta

open Lib

/-- The ways a step of the generator does not return. -/
inductive Fault where
  /-- A `simdjson_error`. -/
  | exception
  /-- An exception that leaves a `noexcept` function. -/
  | terminate
  /-- A read through an invalid view. -/
  | crash
  deriving DecidableEq, Repr

/-- What a look-up in an invalid view does: it dereferences a null pointer, which ends the program.  The other
reading, in which such a view has no fields, is what the accessors are written for. -/
inductive InvalidRead where
  | crash | noSuchField
  deriving DecidableEq, Repr

/-- A view of an object (`__detail::Object<T>`): its members, or nothing when it is not valid. -/
abbrev JsonObject : Type := Option (Record Str Json)

namespace JsonObject

section

variable (ir : InvalidRead)

/-- `_json.at_key(key)`: the value of the first member of that name. -/
def atKey (o : JsonObject) (key : Str) : Except Fault (Option Json) :=
  match o with
  | some members => .ok (members.find key)
  | none =>
    match ir with
    | .crash => .error .crash
    | .noSuchField => .ok none

/-- `HasKey`. -/
def hasKey (o : JsonObject) (key : Str) : Except Fault Bool := do
  let v ← atKey ir o key
  return v.isSome

/-- `_GetValueIfExist<U>`: the default value when there is no member, or one of another kind. -/
def getValueIfExist {U : Type} (convert : Json → Option U) (default : U) (o : JsonObject) (key : Str) :
    Except Fault U := do
  let v ← atKey ir o key
  return (v.bind convert).getD default

/-- `_GetObjectIfExist<U>`: a value of another kind makes the conversion throw, out of a `noexcept`
function. -/
def getObjectIfExist {U : Type} (convert : Json → Option U) (default : U) (o : JsonObject) (key : Str) :
    Except Fault U := do
  match ← atKey ir o key with
  | none => return default
  | some v =>
    match convert v with
    | some u => return u
    | none => throw .terminate

/-- `_GetValueIfExist<std::string_view>`. -/
def stringField (o : JsonObject) (key : Str) : Except Fault Str :=
  getValueIfExist ir Json.get_string [] o key

/-- `_GetValueIfExist<bool>`. -/
def boolField (o : JsonObject) (key : Str) : Except Fault Bool :=
  getValueIfExist ir Json.get_bool false o key

/-- `_GetObjectIfExist<U>` for a view of an object. -/
def objectField (o : JsonObject) (key : Str) : Except Fault JsonObject :=
  getObjectIfExist ir (fun v => v.if_object.map some) none o key

/-- `_GetObjectIfExist<ListAdaptor<T>>`. -/
def listField (o : JsonObject) (key : Str) : Except Fault (List Json) :=
  getObjectIfExist ir Json.if_array [] o key

/-- `_GetObjectIfExist<MapAdaptor<T>>`. -/
def mapField (o : JsonObject) (key : Str) : Except Fault (List (Str × Json)) :=
  getObjectIfExist ir Json.if_object [] o key

end

/-- `*it` for a list of objects: the conversion of another value throws. -/
def ofElement (item : Json) : Except Fault JsonObject :=
  match item with
  | .obj members => .ok (some members)
  | _ => .error .exception

/-- `(*it).val` for a map of objects: another value becomes an invalid view. -/
def ofMember (value : Json) : JsonObject := value.if_object

end JsonObject

/-! ### `JsonSchema` -/

/-- `JsonSchema::Type`. -/
inductive JsonSchemaType where
  | unknown | string | number | integer | boolean | object | array | null
  deriving DecidableEq, Repr

/-- The cast at the end of `Type_`. -/
def JsonSchemaType.ofText (sv : Str) : JsonSchemaType :=
  if sv = "string".toList then .string
  else if sv = "number".toList then .number
  else if sv = "integer".toList then .integer
  else if sv = "boolean".toList then .boolean
  else if sv = "object".toList then .object
  else if sv = "array".toList then .array
  else if sv = "null".toList then .null
  else .unknown

namespace JsonObject

section

variable (ir : InvalidRead)

/-- `type()`: of a list of types only the first is read. -/
def type (schema : JsonObject) : Except Fault Str := do
  match ← atKey ir schema "type".toList with
  | some (.str s) => return s
  | some (.arr (.str s :: _)) => return s
  | some (.arr _) => throw .exception
  | _ => return []

/-- `Type_()`; it is `noexcept`. -/
def type_ (schema : JsonObject) : Except Fault JsonSchemaType :=
  match type ir schema with
  | .ok sv => .ok (.ofText sv)
  | .error .exception => .error .terminate
  | .error fault => .error fault

/-- `ref()`. -/
def ref (o : JsonObject) : Except Fault Str := stringField ir o "$ref".toList

/-- `IsRef()`. -/
def isRef (o : JsonObject) : Except Fault Bool := do
  let r ← ref ir o
  return !r.isEmpty

def description (o : JsonObject) : Except Fault Str := stringField ir o "description".toList
def format (o : JsonObject) : Except Fault Str := stringField ir o "format".toList
def anyOf (o : JsonObject) : Except Fault (List Json) := listField ir o "anyOf".toList
def oneOf (o : JsonObject) : Except Fault (List Json) := listField ir o "oneOf".toList
def allOf (o : JsonObject) : Except Fault (List Json) := listField ir o "allOf".toList
def enum_ (o : JsonObject) : Except Fault (List Json) := listField ir o "enum".toList
def properties (o : JsonObject) : Except Fault (List (Str × Json)) := mapField ir o "properties".toList
def items (o : JsonObject) : Except Fault JsonObject := objectField ir o "items".toList

end

end JsonObject

/-! ### What is inside a value -/

namespace Json

/-- `i` is an item or a member of `j`. -/
inductive Child : Json → Json → Prop
  | item {i : Json} {items : List Json} (h : i ∈ items) : Child i (.arr items)
  | member {k : Str} {i : Json} {members : List (Str × Json)} (h : (k, i) ∈ members) :
      Child i (.obj members)

/-- `i` is a part of `j`. -/
abbrev Inside : Json → Json → Prop := Relation.TransGen Child

mutual

/-- How deep a value is nested. -/
def depth : Json → ℕ
  | .arr items => depthItems items + 1
  | .obj members => depthMembers members + 1
  | _ => 0

def depthItems : List Json → ℕ
  | [] => 0
  | j :: items => max (depth j) (depthItems items)

def depthMembers : List (Str × Json) → ℕ
  | [] => 0
  | m :: members => max (depthMember m) (depthMembers members)

def depthMember : Str × Json → ℕ
  | (_, j) => depth j

end

theorem depth_le_depthItems {j : Json} : ∀ {items : List Json}, j ∈ items → depth j ≤ depthItems items := by
  intro items
  induction items with
  | nil => simp
  | cons i items ih =>
    intro h
    rw [depthItems]
    rcases List.mem_cons.mp h with rfl | h
    · exact le_max_left ..
    · exact (ih h).trans (le_max_right ..)

theorem depth_le_depthMembers {k : Str} {j : Json} :
    ∀ {members : List (Str × Json)}, (k, j) ∈ members → depth j ≤ depthMembers members := by
  intro members
  induction members with
  | nil => simp
  | cons m members ih =>
    intro h
    rw [depthMembers]
    rcases List.mem_cons.mp h with rfl | h
    · have : depthMember (k, j) = depth j := by rw [depthMember]
      exact this ▸ le_max_left ..
    · exact (ih h).trans (le_max_right ..)

theorem depth_lt_of_inside {i j : Json} (h : Inside i j) : i.depth < j.depth := by
  have hchild : ∀ {i j : Json}, Child i j → i.depth < j.depth := by
    intro i j h
    cases h with
    | item hi =>
      have := depth_le_depthItems hi
      rw [depth]
      omega
    | member hm =>
      have := depth_le_depthMembers hm
      rw [depth]
      omega
  induction h with
  | single h => exact hchild h
  | tail _ h ih => exact ih.trans (hchild h)

end Json

namespace JsonObject

/-- How deep an object is nested; an invalid view has no members. -/
def depth (o : JsonObject) : ℕ :=
  match o with
  | none => 0
  | some members => Json.depth (.obj members)

section

variable {ir : InvalidRead} {o : JsonObject} {key : Str}

theorem find_mem {members : Record Str Json} {v : Json} (h : members.find key = some v) :
    (key, v) ∈ members := by
  induction members with
  | nil => simp [Record.find] at h
  | cons m members ih =>
    rw [Record.find_cons] at h
    split at h
    · rename_i hk
      obtain rfl := Option.some.inj h
      simp [hk]
    · exact List.mem_cons_of_mem _ (ih h)

/-- A value that is found in a view is a member of a valid one. -/
theorem mem_of_atKey {v : Json} (h : atKey ir o key = .ok (some v)) :
    ∃ members, o = some members ∧ (key, v) ∈ members := by
  cases o with
  | some members => exact ⟨members, rfl, find_mem (Except.ok.inj h)⟩
  | none => cases ir <;> simp [atKey] at h

/-- What `_GetObjectIfExist` returns is the default or was read from a member. -/
theorem getObjectIfExist_cases {U : Type} {convert : Json → Option U} {default u : U}
    (h : getObjectIfExist ir convert default o key = .ok u) :
    u = default ∨ ∃ v, atKey ir o key = .ok (some v) ∧ convert v = some u := by
  unfold getObjectIfExist at h
  cases hk : atKey ir o key with
  | error fault => rw [hk] at h; cases h
  | ok r =>
    rw [hk] at h
    cases r with
    | none => exact .inl (Except.ok.inj h).symm
    | some v =>
      refine .inr ⟨v, rfl, ?_⟩
      cases hv : convert v with
      | none => simp [hv, bind, Except.bind, throw, throwThe, MonadExceptOf.throw] at h
      | some w => simpa [hv, bind, Except.bind, pure, Except.pure] using h

/-- The view `v` was taken out of the valid view `o`. -/
def Inside (v o : JsonObject) : Prop :=
  ∃ members, o = some members ∧ ∀ members', v = some members' → Json.Inside (.obj members') (.obj members)

theorem Inside.trans {v w : JsonObject} (h : Inside v w) (hw : Inside w o) : Inside v o := by
  obtain ⟨inner, rfl, hinner⟩ := h
  obtain ⟨members, rfl, hmembers⟩ := hw
  exact ⟨members, rfl, fun members' hv => (hinner members' hv).trans (hmembers inner rfl)⟩

theorem depth_lt_of_inside {v : JsonObject} (h : Inside v o) : v.depth < o.depth := by
  obtain ⟨members, rfl, hin⟩ := h
  cases v with
  | none =>
    rw [depth, depth, Json.depth]
    omega
  | some members' => exact Json.depth_lt_of_inside (hin members' rfl)

theorem inside_of_objectField {v : JsonObject} {members : Record Str Json}
    (h : objectField ir (some members) key = .ok v) : Inside v (some members) := by
  refine ⟨members, rfl, fun members' hv => ?_⟩
  rcases getObjectIfExist_cases h with hnone | ⟨j, hj, hconv⟩
  · rw [hnone] at hv
    cases hv
  · obtain ⟨m, hm, hmem⟩ := mem_of_atKey hj
    obtain rfl := Option.some.inj hm
    cases j with
    | obj m' =>
      have hview : m' = members' := Option.some.inj ((Option.some.inj hconv).trans hv)
      exact hview ▸ .single (.member hmem)
    | _ => simp [Json.if_object] at hconv

theorem inside_of_listField {items : List Json} {item : Json} {v : JsonObject}
    (h : listField ir o key = .ok items) (hitem : item ∈ items) (hv : ofElement item = .ok v) :
    Inside v o := by
  rcases getObjectIfExist_cases h with rfl | ⟨j, hj, hconv⟩
  · simp at hitem
  · obtain ⟨members, rfl, hmem⟩ := mem_of_atKey hj
    refine ⟨members, rfl, fun members' hv' => ?_⟩
    cases j with
    | arr items' =>
      obtain rfl : items' = items := Option.some.inj hconv
      cases item with
      | obj m =>
        have hview : m = members' := Option.some.inj ((Except.ok.inj hv).trans hv')
        exact hview ▸ (Relation.TransGen.single (.item hitem)).tail (.member hmem)
      | _ => cases hv
    | _ => simp [Json.if_array] at hconv

theorem inside_of_mapField {members : List (Str × Json)} {k : Str} {j : Json}
    (h : mapField ir o key = .ok members) (hmem : (k, j) ∈ members) : Inside (ofMember j) o := by
  rcases getObjectIfExist_cases h with rfl | ⟨i, hi, hconv⟩
  · simp at hmem
  · obtain ⟨outer, rfl, houter⟩ := mem_of_atKey hi
    refine ⟨outer, rfl, fun members' hv => ?_⟩
    cases i with
    | obj m =>
      obtain rfl : m = members := Option.some.inj hconv
      cases j with
      | obj m' =>
        have hview : m' = members' := Option.some.inj hv
        exact hview ▸ (Relation.TransGen.single (.member hmem)).tail (.member houter)
      | _ => cases hv
    | _ => simp [Json.if_object] at hconv

/-- Only a valid view has a type. -/
theorem valid_of_type {t : JsonSchemaType} (h : type_ ir o = .ok t) (hne : t ≠ .unknown) :
    ∃ members, o = some members := by
  cases o with
  | some members => exact ⟨members, rfl⟩
  | none =>
    cases ir with
    | crash => cases h
    | noSuchField => exact absurd (Except.ok.inj h).symm hne

end

end JsonObject

end Siesta
