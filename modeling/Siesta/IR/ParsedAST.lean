import Siesta.Frontend.ParserInvariant
import Siesta.IR.TypeTexts

/-!
# What `parseSchemas` hands on

When every `$ref` goes to a component and every component parses, the AST passes `validate`, and its
references have the shapes the later phases ask for.
-/

namespace Siesta

open Lib JsonObject

section

variable {T : Set Str} {s : ParseState} {ref : TypeRef}

theorem knownName_of_plainRef (h : PlainRef T s ref) : KnownName T s ref.name := by
  rcases h with ⟨-, h | h⟩ | ⟨-, h | h⟩
  · exact .inl h
  · exact .inr (.inl h)
  · exact .inr (.inl h)
  · exact .inr (.inr h)

section

variable {L : Str → Prop} (hL : ∀ x, KnownName T s x → L x)

include hL

theorem typeText_of_knownRef (h : KnownRef T s ref) : TypeText L ref.name := by
  rcases h with h | ⟨-, x, hx, hne, htext⟩
  · exact .leaf (hL _ (knownName_of_plainRef h))
  · exact htext ▸ .vector (hL x hx) hne

theorem shapedType_of_knownType {type : SchemaType} (h : KnownType T s type) : ShapedType L type := by
  cases type with
  | struct t =>
    exact ⟨fun field hf => typeText_of_knownRef hL (h.1 field hf),
      fun base hb => hL _ (knownName_of_plainRef (h.2 base hb).2)⟩
  | variant t => exact fun alt ha => typeText_of_knownRef hL (h alt ha)
  | array t => exact hL _ (knownName_of_plainRef h)
  | map t => exact h.elim
  | enum t => exact h.elim
  | primitive t => trivial

end

/-! ### Targets that are components -/

variable (inv : ParseInv T s) (hT : ∀ n ∈ T, n ∈ s.ast)

include inv hT

theorem leafText_of_knownName {x : Str} (h : KnownName T s x) : LeafText s.ast x := by
  rcases h with h | h | h
  · exact .inr h
  · exact .inl (inv.added x h)
  · exact .inl (hT x h)

theorem mem_of_plainRef (h : PlainRef T s ref) (hinline : ref.is_inline = false) : ref.name ∈ s.ast := by
  rcases h with ⟨htrue, -⟩ | ⟨-, h | h⟩
  · exact absurd (htrue.symm.trans hinline) (by simp)
  · exact inv.added _ h
  · exact hT _ h

theorem mem_of_knownRef (h : KnownRef T s ref) (hinline : ref.is_inline = false) : ref.name ∈ s.ast := by
  rcases h with h | ⟨htrue, -⟩
  · exact mem_of_plainRef inv hT h hinline
  · exact absurd (htrue.symm.trans hinline) (by simp)

theorem validate_of_parsed (ho : HashOrders) : s.ast.validate ho = [] := by
  refine NormalizedAST.validate_eq_nil.mpr fun n type h => ?_
  have hknown := inv.types n type h
  cases type with
  | struct t =>
    refine ⟨fun ref href => ?_, ?_⟩
    · rcases List.mem_append.mp href with href | href
      · obtain ⟨field, hf, rfl⟩ := List.mem_map.mp href
        exact mem_of_knownRef inv hT (hknown.1 field hf)
      · exact mem_of_plainRef inv hT (hknown.2 ref href).2
    · intro u hu base hb
      obtain rfl := SchemaType.struct.inj hu
      exact mem_of_plainRef inv hT (hknown.2 base hb).2 (hknown.2 base hb).1
  | variant t =>
    exact ⟨fun ref href => mem_of_knownRef inv hT (hknown ref href), by simp⟩
  | array t =>
    refine ⟨fun ref href => ?_, by simp⟩
    rw [List.mem_singleton.mp href]
    exact mem_of_plainRef inv hT hknown
  | map t => exact hknown.elim
  | enum t => exact hknown.elim
  | primitive t => exact ⟨by simp [SchemaType.refs], by simp⟩

end

/-! ### The references of a document -/

namespace Json

mutual

/-- The texts of the `$ref`s in a value. -/
def refs : Json → List Str
  | .arr items => refsItems items
  | .obj members => refsMembers members
  | _ => []

def refsItems : List Json → List Str
  | [] => []
  | j :: items => refs j ++ refsItems items

def refsMembers : List (Str × Json) → List Str
  | [] => []
  | m :: members => refsMember m ++ refsMembers members

def refsMember : Str × Json → List Str
  | (k, j) => (if k = "$ref".toList then j.get_string.toList else []) ++ refs j

end

theorem refs_subset_of_item {i : Json} : ∀ {items : List Json}, i ∈ items → i.refs ⊆ refsItems items := by
  intro items
  induction items with
  | nil => simp
  | cons j items ih =>
    intro h r hr
    rw [refsItems]
    rcases List.mem_cons.mp h with rfl | h
    · exact List.mem_append_left _ hr
    · exact List.mem_append_right _ (ih h hr)

theorem refsMember_subset {m : Str × Json} :
    ∀ {members : List (Str × Json)}, m ∈ members → refsMember m ⊆ refsMembers members := by
  intro members
  induction members with
  | nil => simp
  | cons m' members ih =>
    intro h r hr
    rw [refsMembers]
    rcases List.mem_cons.mp h with rfl | h
    · exact List.mem_append_left _ hr
    · exact List.mem_append_right _ (ih h hr)

theorem refs_subset_of_inside {i j : Json} (h : Relation.ReflTransGen Child i j) : i.refs ⊆ j.refs := by
  induction h with
  | refl => exact fun r hr => hr
  | tail _ hchild ih =>
    intro r hr
    have hr := ih hr
    cases hchild with
    | item hi => exact refs_subset_of_item hi hr
    | member hm =>
      refine refsMember_subset hm ?_
      rw [refsMember]
      exact List.mem_append_right _ hr

/-- The `$ref` of an object is one of those in the value around it. -/
theorem mem_refs {members : Record Str Json} {r : Str} {j : Json}
    (hin : Relation.ReflTransGen Child (.obj members) j)
    (hr : Record.find members "$ref".toList = some (.str r)) : r ∈ j.refs := by
  refine refs_subset_of_inside hin ?_
  have hmem := refsMember_subset (JsonObject.find_mem hr)
  rw [refsMember] at hmem
  exact hmem (by simp [get_string])

end Json

/-- Every `$ref` of the document has a slash, and ends in the name of a component. -/
def RefsResolve (schemas : List (Str × Json)) : Prop :=
  ∀ e ∈ schemas, ∀ r ∈ e.2.refs, ∃ raw ∈ schemas.map Prod.fst, afterLast '/' r = some raw

theorem RefsResolve.targetsIn {schemas : List (Str × Json)} (h : RefsResolve schemas)
    {e : Str × Json} (he : e ∈ schemas) :
    TargetsIn {n | ∃ raw ∈ schemas.map Prod.fst, n = sanitize raw} (ofMember e.2) := by
  intro members hview m hm r hr _
  have hvalue : e.2 = .obj members := by
    cases hj : e.2 with
    | obj m' =>
      rw [hj] at hview
      rw [Option.some.inj hview]
    | _ => rw [hj] at hview; cases hview
  obtain ⟨raw, hmem, hraw⟩ := h e he r (Json.mem_refs (hvalue ▸ hm) hr)
  exact ⟨raw, hmem, by simp [refTarget, hraw]⟩

/-- **A document whose references resolve parses to a valid AST.**  The names the parser has made up
are names of the AST, and so is every name that stands in a reference, but for the primitive types. -/
theorem parseSchemas_valid (ir : InvalidRead) (ho : HashOrders) (spec : JsonObject)
    (schemas : List (Str × Json)) (hschemas : componentSchemas ir spec = .ok schemas)
    (hrefs : RefsResolve schemas) (s : ParseState) (hrun : parseSchemas ir spec {} = .ok [] s) :
    s.ast.validate ho = [] ∧ (∀ n ∈ s.added_types, n ∈ s.ast) ∧
      ∀ n type, s.ast.getType n = some type → ShapedType (LeafText s.ast) type := by
  obtain ⟨-, inv, hadded⟩ :=
    (parseSchemas_keeps hschemas fun e he => hrefs.targetsIn he).of_ok ⟨ParseInv.init _, trivial⟩ hrun
  have hT : ∀ n ∈ {n | ∃ raw ∈ schemas.map Prod.fst, n = sanitize raw}, n ∈ s.ast := by
    rintro _ ⟨raw, hraw, rfl⟩
    obtain ⟨e, he, rfl⟩ := List.mem_map.mp hraw
    exact (hadded e he).resolve_left (by simp)
  exact ⟨validate_of_parsed inv hT ho, inv.added, fun n type h =>
    shapedType_of_knownType (fun _ => leafText_of_knownName inv hT) (inv.types n type h)⟩

/-- A component with inline properties, items and alternatives, and one it refers to. -/
def shelterSchemas : List (Str × Json) :=
  [("Pet".toList, .obj [("type".toList, .str "object".toList)]),
    ("Shelter".toList, .obj [("type".toList, .str "object".toList),
      ("properties".toList, .obj
        [("star".toList, .obj [("$ref".toList, .str "#/components/schemas/Pet".toList)]),
          ("pets".toList, .obj [("type".toList, .str "array".toList),
            ("items".toList, .obj [("type".toList, .str "object".toList)])])])])]

def shelterSpec : JsonObject := some [("components".toList, .obj [("schemas".toList, .obj shelterSchemas)])]

theorem parseSchemas_valid_shelter :
    ∃ s, parseSchemas .crash shelterSpec {} = .ok [] s ∧
      s.ast.validate (HashOrder.newestFirst _) = [] ∧ (∀ n ∈ s.added_types, n ∈ s.ast) ∧
        ∀ n type, s.ast.getType n = some type → ShapedType (LeafText s.ast) type :=
  ⟨_, rfl, parseSchemas_valid .crash (HashOrder.newestFirst _) shelterSpec shelterSchemas rfl
    (by unfold RefsResolve; decide) _ rfl⟩

end Siesta
