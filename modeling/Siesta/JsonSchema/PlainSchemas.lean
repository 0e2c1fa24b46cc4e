import Siesta.JsonSchema.Validator

/-!
# A fragment on which `validate` is right

Schemas of `type`, `required`, the bounds on the numbers of items and members, `enum` and `const` over
strings, and `properties` over such schemas.  What they mean is said by `Holds`, after the definition
of the keywords and without a look at the validator; `validate_iff_satisfies` says that the verdict
is that meaning, for the instances that can be parsed.
-/

namespace Siesta.JsonSchema

open Lib

/-! ### The fragment -/

/-- A limit that an `int64_t` can hold. -/
structure Limit where
  val : ℕ
  lt : val < 2 ^ 63

inductive Constraint where
  | type_ (name : Str)
  | types (names : List Str)
  | required (names : List Str)
  | minItems (limit : Limit)
  | maxItems (limit : Limit)
  | minProperties (limit : Limit)
  | maxProperties (limit : Limit)
  | enum (values : List Str)
  | const (value : Str)
  | properties (props : List (Str × List Constraint))

/-- The schemas of the fragment. -/
abbrev PlainSchema : Type := List Constraint

mutual

/-- The member of the schema object that writes the keyword. -/
def Constraint.member : Constraint → Str × Json
  | .type_ name => ("type".toList, .str name)
  | .types names => ("type".toList, .arr (names.map .str))
  | .required names => ("required".toList, .arr (names.map .str))
  | .minItems limit => ("minItems".toList, .int limit.val)
  | .maxItems limit => ("maxItems".toList, .int limit.val)
  | .minProperties limit => ("minProperties".toList, .int limit.val)
  | .maxProperties limit => ("maxProperties".toList, .int limit.val)
  | .enum values => ("enum".toList, .arr (values.map .str))
  | .const value => ("const".toList, .str value)
  | .properties props => ("properties".toList, .obj (propertyMembers props))

/-- The members of a schema object. -/
def schemaMembers : PlainSchema → List (Str × Json)
  | [] => []
  | k :: s => k.member :: schemaMembers s

def propertyMembers : List (Str × PlainSchema) → List (Str × Json)
  | [] => []
  | (name, s) :: props => (name, .obj (schemaMembers s)) :: propertyMembers props

end

/-- The document of a schema. -/
def PlainSchema.toJson (s : PlainSchema) : Json := .obj (schemaMembers s)

/-! ### What the keywords mean -/

/-- The value has the type of that name.  A number without a fractional part is an integer. -/
def HasType (P : Platform) (x : Json) (name : Str) : Prop :=
  match x with
  | .arr _ => name = "array".toList
  | .obj _ => name = "object".toList
  | .str _ => name = "string".toList
  | .bool _ => name = "boolean".toList
  | .null => name = "null".toList
  | .int _ => name = "integer".toList ∨ name = "number".toList
  | .double text => name = "number".toList ∨ (name = "integer".toList ∧ P.floor_eq (P.ofText text))

mutual

/-- The value satisfies the keyword. -/
def Constraint.Holds (P : Platform) : Constraint → Json → Prop
  | .type_ name, x => HasType P x name
  | .types names, x => ∃ name ∈ names, HasType P x name
  | .required names, x => ∀ members, x = .obj members → ∀ name ∈ names, name ∈ Record.keys members
  | .minItems limit, x => ∀ items, x = .arr items → limit.val ≤ items.length
  | .maxItems limit, x => ∀ items, x = .arr items → items.length ≤ limit.val
  | .minProperties limit, x => ∀ members, x = .obj members → limit.val ≤ members.length
  | .maxProperties limit, x => ∀ members, x = .obj members → members.length ≤ limit.val
  | .enum values, x => ∃ value ∈ values, x = .str value
  | .const value, x => x = .str value
  | .properties props, x => ∀ members, x = .obj members → PropertiesHold P props members

/-- The value satisfies every keyword of the schema. -/
def Satisfies (P : Platform) : PlainSchema → Json → Prop
  | [], _ => True
  | k :: s, x => k.Holds P x ∧ Satisfies P s x

/-- Every member under the name of a property satisfies the property's schema. -/
def PropertiesHold (P : Platform) : List (Str × PlainSchema) → List (Str × Json) → Prop
  | [], _ => True
  | (name, s) :: props, members =>
    (∀ value, (name, value) ∈ members → Satisfies P s value) ∧ PropertiesHold P props members

end

mutual

/-- No object in the value has two members of one name. -/
def DistinctKeys : Json → Prop
  | .obj members => (Record.keys members).Nodup ∧ MembersDistinct members
  | .arr items => ItemsDistinct items
  | _ => True

def ItemsDistinct : List Json → Prop
  | [] => True
  | x :: items => DistinctKeys x ∧ ItemsDistinct items

def MembersDistinct : List (Str × Json) → Prop
  | [] => True
  | (_, x) :: members => DistinctKeys x ∧ MembersDistinct members

end

mutual

/-- No name of a property contains a slash. -/
def Constraint.SlashFree : Constraint → Prop
  | .properties props => PropertiesSlashFree props
  | _ => True

def PlainSchema.SlashFree : PlainSchema → Prop
  | [] => True
  | k :: s => k.SlashFree ∧ PlainSchema.SlashFree s

def PropertiesSlashFree : List (Str × PlainSchema) → Prop
  | [] => True
  | (name, s) :: props => '/' ∉ name ∧ PlainSchema.SlashFree s ∧ PropertiesSlashFree props

end

theorem MembersDistinct.of_mem : ∀ {members : List (Str × Json)} {e : Str × Json},
    MembersDistinct members → e ∈ members → DistinctKeys e.2
  | [], _, _, he => absurd he (by simp)
  | (_, x) :: members, e, h, he => by
    rcases List.mem_cons.mp he with rfl | he
    · exact h.1
    · exact MembersDistinct.of_mem h.2 he

/-! ### The single keywords -/

section Leaves

variable (P : Platform) {call : Call → Tally ValidationError EvaluationContext →
  Except (Stop Abort) (Tally ValidationError EvaluationContext)} (x : Json) (loc : Str)

theorem check_type_match_iff (name : Str) : check_type_match P x name = true ↔ HasType P x name := by
  cases x <;>
    simp only [check_type_match, HasType, Bool.or_eq_true, Bool.and_eq_true, decide_eq_true_eq]

theorem judges_type (name : Str) :
    Judges ((validateType P (.str name) x loc).run call) (HasType P x name) :=
  (judges_require loc _ _).congr (check_type_match_iff P x name)

theorem judges_types (names : List Str) :
    Judges ((validateType P (.arr (names.map .str)) x loc).run call) (∃ name ∈ names, HasType P x name) := by
  refine (judges_require loc _ _).congr ?_
  simp only [List.any_map, List.any_eq_true, Function.comp_apply, Json.get_string, Option.any_some,
    check_type_match_iff]

theorem json_equal_str (v : Str) : json_equal P x (.str v) = true ↔ x = .str v := by
  cases x <;> simp [json_equal, Json.get_string, Json.get_bool, elementType, eq_comm]

theorem judges_enum (values : List Str) :
    Judges ((validateEnum P (.arr (values.map .str)) x loc).run call) (∃ value ∈ values, x = .str value) := by
  refine (judges_require loc _ _).congr ?_
  simp only [List.any_map, List.any_eq_true, Function.comp_apply, json_equal_str]

theorem judges_const (value : Str) :
    Judges ((validateConst P (.str value) x loc).run call) (x = .str value) :=
  (judges_require loc _ _).congr (json_equal_str P x value)

/-- A limit of the fragment survives the conversions of the source. -/
theorem get_int64_limit (limit : Limit) : (Json.int limit.val).get_int64 = some (limit.val : ℤ) ∧
    size_t limit.val = limit.val := by
  have hlt : limit.val < 2 ^ 63 := limit.lt
  constructor
  · simp only [Json.get_int64]
    rw [if_pos ⟨by omega, by omega⟩]
  · unfold size_t
    omega

/-- A bound on a count decides the bound where there is something to count. -/
theorem judges_validateCount {value : Json} {limit : ℤ} (hget : value.get_int64 = some limit)
    (count : Option ℕ) (exceeded : ℕ → ℕ → Bool) (subject text unit : String) :
    Judges ((validateCount value loc count exceeded subject text unit).run call)
      (∀ n, count = some n → exceeded n (size_t limit) = false) := by
  unfold validateCount
  rw [hget]
  cases count with
  | none => exact Judges.done.congr (by simp)
  | some n => exact (judges_require loc _ _).congr (by simp)

theorem judges_count (limit : Limit) (count : Option ℕ) (exceeded : ℕ → ℕ → Bool)
    (subject text unit : String) :
    Judges ((validateCount (.int limit.val) loc count exceeded subject text unit).run call)
      (∀ n, count = some n → exceeded n limit.val = false) := by
  obtain ⟨hget, hsize⟩ := get_int64_limit limit
  have hjudges : Judges ((validateCount (.int limit.val) loc count exceeded subject text unit).run call)
      (∀ n, count = some n → exceeded n (size_t limit.val) = false) :=
    judges_validateCount loc hget count exceeded subject text unit
  rwa [hsize] at hjudges

theorem judges_minItems (limit : Limit) : Judges ((validateMinItems (.int limit.val) x loc).run call)
    (∀ items, x = .arr items → limit.val ≤ items.length) := by
  refine (judges_count loc limit _ _ _ _ _).congr ?_
  cases x <;> simp [Json.if_array]

theorem judges_maxItems (limit : Limit) : Judges ((validateMaxItems (.int limit.val) x loc).run call)
    (∀ items, x = .arr items → items.length ≤ limit.val) := by
  refine (judges_count loc limit _ _ _ _ _).congr ?_
  cases x <;> simp [Json.if_array]

theorem judges_minProperties (limit : Limit) :
    Judges ((validateMinProperties (.int limit.val) x loc).run call)
      (∀ members, x = .obj members → limit.val ≤ members.length) := by
  refine (judges_count loc limit _ _ _ _ _).congr ?_
  cases x <;> simp [Json.if_object]

theorem judges_maxProperties (limit : Limit) :
    Judges ((validateMaxProperties (.int limit.val) x loc).run call)
      (∀ members, x = .obj members → members.length ≤ limit.val) := by
  refine (judges_count loc limit _ _ _ _ _).congr ?_
  cases x <;> simp [Json.if_object]

theorem judges_required (names : List Str) :
    Judges ((validateRequired (.arr (names.map .str)) x loc).run call)
      (∀ members, x = .obj members → ∀ name ∈ names, name ∈ Record.keys members) := by
  unfold validateRequired
  cases x with
  | obj members =>
    have hname : ∀ name ∈ names, Judges ((requireName loc members (.str name)).run call)
        (name ∈ Record.keys members) := by
      intro name _
      refine (judges_require loc _ _).congr ?_
      rw [← Option.ne_none_iff_isSome, Ne, Record.find_eq_none, not_not]
    show Judges ((Check.all ((names.map Json.str).map (requireName loc members))).run call) _
    rw [List.map_map]
    exact (Judges.all hname).congr (by simp)
  | _ => exact Judges.done.congr (by simp)

end Leaves

/-! ### The tree of a schema -/

theorem lastSegment_parse {u name : Str} (h : '/' ∉ name) :
    lastSegment (.parse (u ++ '/' :: name)) = name := by
  unfold lastSegment
  rw [SchemaURI.to_string_parse, afterLast_eq_some.mpr ⟨u, rfl, h⟩, Option.getD_some]

/-- With calls deep enough, the statements decide a property of the values with distinct keys. -/
def Decides (P : Platform) (c : SchemaCompiler) (p : Json → Statement) (holds : Json → Prop) : Prop :=
  ∃ d, ∀ depth ≥ d, ∀ x, DistinctKeys x → Judges ((p x).run (runCalls (validate_node P c) depth)) (holds x)

theorem Decides.visit {P : Platform} {c : SchemaCompiler} {node : SchemaNode} {holds : Json → Prop}
    (h : Decides P c (fun x => validate_node P c ⟨node, x, node.uri.to_string⟩) holds) :
    Decides P c (fun x => JsonSchema.visit x node) holds := by
  obtain ⟨d, h⟩ := h
  refine ⟨d + 1, fun depth hdepth x hx => ?_⟩
  obtain ⟨n, rfl⟩ : ∃ n, depth = n + 1 := ⟨depth - 1, by omega⟩
  exact fun t => h n (by omega) x hx t

theorem Decides.of_judges {P : Platform} {c : SchemaCompiler} {p : Json → Statement} {holds : Json → Prop}
    (h : ∀ depth x, Judges ((p x).run (runCalls (validate_node P c) depth)) (holds x)) :
    Decides P c p holds := ⟨0, fun depth _ x _ => h depth x⟩

/-- `build_schema_tree` adds `node` for the first member of `rest`, whatever follows it. -/
def AddsNode (filled : Filled) (member : Str × Json) (uri : SchemaURI) (st : BuildState)
    (node : SchemaNode) : Prop :=
  ∀ rest, buildKeywords filled (member :: rest) uri st = do
    let (nodes, st) ← buildKeywords filled rest uri st
    .ok (node :: nodes, st)

mutual

theorem Constraint.build (P : Platform) : ∀ (k : Constraint) filled uri st,
    ∃ node, AddsNode filled k.member uri st node ∧
      (k.SlashFree → ∀ c, Decides P c (fun x => visit x node) (k.Holds P))
  | .type_ name, filled, uri, st =>
    ⟨_, fun _ => rfl, fun _ c => .visit <| .of_judges fun _ x => judges_type P x _ name⟩
  | .types names, filled, uri, st =>
    ⟨_, fun _ => rfl, fun _ c => .visit <| .of_judges fun _ x => judges_types P x _ names⟩
  | .required names, filled, uri, st =>
    ⟨_, fun _ => rfl, fun _ c => .visit <| .of_judges fun _ x => judges_required x _ names⟩
  | .minItems limit, filled, uri, st =>
    ⟨_, fun _ => rfl, fun _ c => .visit <| .of_judges fun _ x => judges_minItems x _ limit⟩
  | .maxItems limit, filled, uri, st =>
    ⟨_, fun _ => rfl, fun _ c => .visit <| .of_judges fun _ x => judges_maxItems x _ limit⟩
  | .minProperties limit, filled, uri, st =>
    ⟨_, fun _ => rfl, fun _ c => .visit <| .of_judges fun _ x => judges_minProperties x _ limit⟩
  | .maxProperties limit, filled, uri, st =>
    ⟨_, fun _ => rfl, fun _ c => .visit <| .of_judges fun _ x => judges_maxProperties x _ limit⟩
  | .enum values, filled, uri, st =>
    ⟨_, fun _ => rfl, fun _ c => .visit <| .of_judges fun _ x => judges_enum P x _ values⟩
  | .const value, filled, uri, st =>
    ⟨_, fun _ => rfl, fun _ c => .visit <| .of_judges fun _ x => judges_const P x _ value⟩
  | .properties props, filled, uri, st => by
    have hkw : keywordOf "properties".toList = .Properties := rfl
    obtain ⟨nodes, hbuild, hnodes⟩ := build_properties P props
      (SchemaURI.parse (uri.to_string ++ '/' :: "properties".toList)) st
    refine ⟨{
        uri := .parse (uri.to_string ++ '/' :: "properties".toList), keyword := .Properties
        value := .obj (propertyMembers props), children := nodes },
      fun rest => ?_, fun hprops c => .visit ?_⟩
    · show buildKeywords filled (("properties".toList, .obj (propertyMembers props)) :: rest) uri st = _
      simp only [buildKeywords, hkw, reduceCtorEq, if_false, nextUri, enterId, hbuild]
      rfl
    · obtain ⟨d, hd⟩ := hnodes hprops c
      refine ⟨d, fun depth hdepth x hx => ?_⟩
      show Judges ((validateProperties x nodes).run _) _
      cases x with
      | obj members =>
        have hmembers : (Record.keys members).Nodup ∧ MembersDistinct members := hx
        exact (hd depth hdepth members hmembers.1 hmembers.2).congr (by simp [Constraint.Holds])
      | _ => exact Judges.done.congr (by simp [Constraint.Holds])

theorem PlainSchema.build (P : Platform) : ∀ (s : PlainSchema) filled uri st,
    ∃ nodes, buildKeywords filled (schemaMembers s) uri st = .ok (nodes, st) ∧
      (s.SlashFree → ∀ c, Decides P c (fun x => visitAll x nodes) (Satisfies P s))
  | [], filled, uri, st =>
    ⟨[], rfl, fun _ c => .of_judges fun _ _ => Judges.done.congr (by simp [Satisfies])⟩
  | k :: s, filled, uri, st => by
    obtain ⟨node, hadds, hnode⟩ := Constraint.build P k filled uri st
    obtain ⟨nodes, hbuild, hnodes⟩ := PlainSchema.build P s filled uri st
    refine ⟨node :: nodes, ?_, fun hs c => ?_⟩
    · rw [schemaMembers, hadds, hbuild]
      rfl
    · obtain ⟨d₁, h₁⟩ := hnode hs.1 c
      obtain ⟨d₂, h₂⟩ := hnodes hs.2 c
      refine ⟨max d₁ d₂, fun depth hdepth x hx => ?_⟩
      exact ((h₁ depth (by omega) x hx).seq (h₂ depth (by omega) x hx)).congr (by simp [Satisfies])

/-- The nodes of `properties` decide what the properties mean for the members of an object. -/
theorem build_properties (P : Platform) : ∀ (props : List (Str × PlainSchema)) kw_uri st,
    ∃ nodes, buildProperties kw_uri (propertyMembers props) st = .ok (nodes, st) ∧
      (PropertiesSlashFree props → ∀ c, ∃ d, ∀ depth ≥ d, ∀ members, (Record.keys members).Nodup → MembersDistinct members →
        Judges ((Check.all (nodes.map (validateProperty members))).run (runCalls (validate_node P c) depth))
          (PropertiesHold P props members))
  | [], kw_uri, st =>
    ⟨[], rfl, fun _ c => ⟨0, fun _ _ _ _ _ => Judges.done.congr (by simp [PropertiesHold])⟩⟩
  | (name, s) :: props, kw_uri, st => by
    obtain ⟨children, hchildren, hdecides⟩ := PlainSchema.build P s ⟨.destroyed, true⟩
      (.parse (kw_uri.to_string ++ '/' :: name)) st
    obtain ⟨nodes, hbuild, hnodes⟩ := build_properties P props kw_uri st
    refine ⟨{
        uri := .parse (kw_uri.to_string ++ '/' :: name), value := .obj (schemaMembers s), children } :: nodes,
      ?_, fun hprops c => ?_⟩
    · simp only [propertyMembers, buildProperties, build_schema_tree, hchildren, bind, Except.bind, hbuild]
    · obtain ⟨hname, hs, hrest⟩ := hprops
      obtain ⟨d₁, h₁⟩ := hdecides hs c
      obtain ⟨d₂, h₂⟩ := hnodes hrest c
      refine ⟨max d₁ d₂, fun depth hdepth members hnd hdistinct => ?_⟩
      refine (Judges.seq ?_ (h₂ depth (by omega) members hnd hdistinct)).congr (by rw [PropertiesHold])
      -- the node of this property, on the member of its name
      unfold validateProperty
      dsimp only
      rw [lastSegment_parse hname]
      cases hfind : Record.find members name with
      | none =>
        refine Judges.done.congr ⟨fun _ value hvalue => ?_, fun _ => trivial⟩
        exact absurd (Record.mem_keys_of_mem hvalue) (Record.find_eq_none.mp hfind)
      | some value =>
        have hmem : (name, value) ∈ members := Record.mem_of_find hfind
        have hvalue := h₁ depth (by omega) value (hdistinct.of_mem hmem)
        refine (hvalue.seq (Judges.note _)).congr ⟨fun h value' hvalue' => ?_, fun h => ⟨h value hmem, trivial⟩⟩
        have := Record.find_of_mem hnd hvalue'
        rw [hfind] at this
        exact Option.some.inj this ▸ h.1

end

/-- A schema of the fragment is compiled, and `validate` decides whether a parsed instance satisfies it. -/
theorem exists_returns (P : Platform) (s : PlainSchema) (hs : s.SlashFree) (x : Json) (hx : DistinctKeys x) :
    ∃ c, compile s.toJson = .ok c ∧ ∃ verdict, Returns P c x verdict ∧ (verdict = true ↔ Satisfies P s x) := by
  obtain ⟨nodes, hbuild, hnodes⟩ := PlainSchema.build P s ⟨.root, true⟩ (.parse "#".toList) {}
  obtain ⟨c, hc, hkeyword, hchildren⟩ := compile_of_build (show build_schema_tree _ s.toJson _ _ = _ from hbuild)
  refine ⟨c, hc, ?_⟩
  obtain ⟨d, hd⟩ := hnodes hs c
  have hroot : Judges (runCalls (validate_node P c) (d + 1) (rootCall c x)) (Satisfies P s x) := by
    intro t
    have hroot := hd d le_rfl x hx t
    dsimp only at hroot
    rwa [← hchildren, ← validate_node_root hkeyword] at hroot
  exact returns_of_judges hroot

/-- An order with a list of lines, each of which has an article. -/
def orderSchema : PlainSchema :=
  [.type_ "object".toList, .required ["lines".toList],
    .properties [("lines".toList, [.types ["array".toList, "null".toList], .maxItems ⟨9, by decide⟩]),
      ("ship".toList, [.properties [("by".toList, [.enum ["air".toList, "sea".toList]])]])]]

/-- An order whose way of shipping is not one of those listed. -/
def orderByRail : Json :=
  .obj [("lines".toList, .arr []), ("ship".toList, .obj [("by".toList, .str "rail".toList)])]

end Siesta.JsonSchema
