import Siesta.JsonSchema.RefTargets
import Siesta.Lib.CallChains
import Mathlib.Algebra.Order.BigOperators.Group.List
import Mathlib.Algebra.Order.Group.Nat
import Mathlib.Data.Set.Finite.List
import Mathlib.Algebra.GroupWithZero.Nat

/-!
# When `validate` terminates

`validate_node` calls itself for the value it has, or for a value inside it (`Follows`).  The first kind of
call can be repeated for ever when a `$ref` leads back to a node that is being visited; nothing in the
validator notices.  The recursion is finite exactly if no call is entered again, for the same node and
the same value, while it is running and nothing has changed that the check of the instance can see of the
evaluation context (`terminates_iff`).
-/

namespace Siesta.JsonSchema

open Lib Relation

/-! ### Values inside values -/

/-- The values an array or an object consists of. -/
def inner : Json → List Json
  | .arr items => items
  | .obj members => members.map Prod.snd
  | _ => []

mutual

def parts : Json → List Json
  | .null => [.null]
  | .bool b => [.bool b]
  | .int i => [.int i]
  | .double text => [.double text]
  | .str s => [.str s]
  | .arr items => .arr items :: itemParts items
  | .obj members => .obj members :: memberParts members

def itemParts : List Json → List Json
  | [] => []
  | x :: items => parts x ++ itemParts items

def memberParts : List (Str × Json) → List Json
  | [] => []
  | (_, x) :: members => parts x ++ memberParts members

end

theorem self_mem_parts (x : Json) : x ∈ parts x := by
  cases x <;> simp [parts]

theorem mem_itemParts {x y : Json} : ∀ {items : List Json}, x ∈ items → y ∈ parts x → y ∈ itemParts items
  | z :: items, hx, hy => by
    rw [itemParts, List.mem_append]
    rcases List.mem_cons.mp hx with rfl | hx
    · exact .inl hy
    · exact .inr (mem_itemParts hx hy)

theorem mem_memberParts {x y : Json} :
    ∀ {members : List (Str × Json)}, x ∈ members.map Prod.snd → y ∈ parts x → y ∈ memberParts members
  | (key, z) :: members, hx, hy => by
    rw [memberParts, List.mem_append]
    rcases List.mem_cons.mp hx with rfl | hx
    · exact .inl hy
    · exact .inr (mem_memberParts hx hy)

mutual

/-- What is inside a part is a part. -/
theorem inner_mem_parts : ∀ {x y z : Json}, y ∈ parts x → z ∈ inner y → z ∈ parts x
  | .null, y, z, hy, hz | .bool _, y, z, hy, hz | .int _, y, z, hy, hz | .double _, y, z, hy, hz
  | .str _, y, z, hy, hz => by
    simp only [parts, List.mem_singleton] at hy
    subst hy
    simp [inner] at hz
  | .arr items, y, z, hy, hz => by
    rw [parts, List.mem_cons] at hy ⊢
    rcases hy with rfl | hy
    · exact .inr (mem_itemParts hz (self_mem_parts z))
    · exact .inr (inner_mem_itemParts hy hz)
  | .obj members, y, z, hy, hz => by
    rw [parts, List.mem_cons] at hy ⊢
    rcases hy with rfl | hy
    · exact .inr (mem_memberParts hz (self_mem_parts z))
    · exact .inr (inner_mem_memberParts hy hz)

theorem inner_mem_itemParts :
    ∀ {items : List Json} {y z : Json}, y ∈ itemParts items → z ∈ inner y → z ∈ itemParts items
  | [], y, z, hy, _ => by simp [itemParts] at hy
  | x :: items, y, z, hy, hz => by
    rw [itemParts, List.mem_append] at hy ⊢
    rcases hy with hy | hy
    · exact .inl (inner_mem_parts hy hz)
    · exact .inr (inner_mem_itemParts hy hz)

theorem inner_mem_memberParts :
    ∀ {members : List (Str × Json)} {y z : Json}, y ∈ memberParts members → z ∈ inner y → z ∈ memberParts members
  | [], y, z, hy, _ => by simp [memberParts] at hy
  | (key, x) :: members, y, z, hy, hz => by
    rw [memberParts, List.mem_append] at hy ⊢
    rcases hy with hy | hy
    · exact .inl (inner_mem_parts hy hz)
    · exact .inr (inner_mem_memberParts hy hz)

end

/-- What is inside a value is smaller. -/
theorem sizeOf_inner {x y : Json} (h : y ∈ inner x) : sizeOf y < sizeOf x := by
  cases x with
  | arr items =>
    have hitem := List.sizeOf_lt_of_mem (show y ∈ items from h)
    simp only [Json.arr.sizeOf_spec]
    omega
  | obj members =>
    obtain ⟨⟨key, z⟩, hmem, rfl⟩ := List.mem_map.mp h
    have hmember := List.sizeOf_lt_of_mem hmem
    simp only [Prod.mk.sizeOf_spec] at hmember
    simp only [Json.obj.sizeOf_spec]
    omega
  | _ => simp [inner] at h

/-! ### Nodes under nodes -/

mutual

/-- The children of a node under another one are under it. -/
theorem child_mem_preorder_of_mem :
    ∀ {root node child : SchemaNode}, node ∈ root.preorder → child ∈ node.children → child ∈ root.preorder
  | ⟨_, _, _, _, _, _, children, _⟩, node, child, hnode, hchild => by
    rw [SchemaNode.preorder, List.mem_cons] at hnode ⊢
    rcases hnode with rfl | hnode
    · exact .inr (mem_preorders hchild)
    · exact .inr (child_mem_preorders hnode hchild)

theorem child_mem_preorders :
    ∀ {roots : List SchemaNode} {node child : SchemaNode}, node ∈ preorders roots → child ∈ node.children →
      child ∈ preorders roots
  | [], node, child, hnode, _ => by simp [preorders] at hnode
  | root :: roots, node, child, hnode, hchild => by
    rw [preorders, List.mem_append] at hnode ⊢
    rcases hnode with hnode | hnode
    · exact .inl (child_mem_preorder_of_mem hnode hchild)
    · exact .inr (child_mem_preorders hnode hchild)

end

namespace SchemaCompiler

def registered (c : SchemaCompiler) : List SchemaNode :=
  c.tables.anchors_.entries.map Sigma.snd ++ c.tables.ids_.entries.filterMap fun e =>
    match e.2 with
    | .node n => some n
    | .destroyed => none

def nodes (c : SchemaCompiler) : List SchemaNode := preorders (c.root_node_ :: c.registered)

theorem root_mem_nodes (c : SchemaCompiler) : c.root_node_ ∈ c.nodes := mem_preorders (List.mem_cons_self ..)

theorem child_mem_nodes {c : SchemaCompiler} {node child : SchemaNode} (h : node ∈ c.nodes)
    (hchild : child ∈ node.children) : child ∈ c.nodes := child_mem_preorders h hchild

theorem find_ref_mem_nodes {c : SchemaCompiler} {ref_uri : Str} {target : SchemaNode}
    (h : c.find_ref ref_uri = some (.node target)) : target ∈ c.nodes := by
  have hanchor : ∀ uri, (c.tables.anchors_.find uri).map NodePtr.node = some (.node target) →
      target ∈ c.registered := by
    intro uri huri
    obtain ⟨n, hn, he⟩ := Option.map_eq_some_iff.mp huri
    obtain rfl := NodePtr.node.inj he
    exact List.mem_append_left _ (List.mem_map.mpr ⟨_, Table.find_eq_some.mp hn, rfl⟩)
  have hid : ∀ uri, c.tables.ids_.find uri = some (.node target) → target ∈ c.registered := by
    intro uri huri
    exact List.mem_append_right _ (List.mem_filterMap.mpr ⟨_, Table.find_eq_some.mp huri, rfl⟩)
  have hregistered : target ∈ c.registered := by
    unfold find_ref at h
    rcases Option.or_eq_some_iff.mp h with h | ⟨-, h⟩
    · exact hanchor _ h
    rcases Option.or_eq_some_iff.mp h with h | ⟨-, h⟩
    · exact hid _ h
    split at h
    · rcases Option.or_eq_some_iff.mp h with h | ⟨-, h⟩
      · exact hanchor _ h
      split at h
      · exact hanchor _ h
      · exact absurd h (by simp)
    · exact absurd h (by simp)
  exact mem_preorders (List.mem_cons_of_mem _ hregistered)

end SchemaCompiler

/-! ### The calls of a node -/

/-- The nodes `validate_node` can call for the value it has: the subschemas that constrain the same
value, and the node a reference finds. -/
def SchemaCompiler.sameValue (c : SchemaCompiler) (node : SchemaNode) : List SchemaNode :=
  match node.keyword with
  | .Schema | .AllOf | .AnyOf | .OneOf => node.children
  | .Not => node.children.take 1
  | .If =>
    node.children.take 1 ++
      if node.parent = .root then
        (lastWith .Then c.root_node_.children).toList ++ (lastWith .Else c.root_node_.children).toList
      else []
  | .DependentSchemas => node.children.flatMap SchemaNode.children
  | .Ref =>
    match node.value.get_string.bind c.find_ref with
    | some (.node target) => [target]
    | _ => []
  | _ => []

/-- `g` is a call `validate_node` can make for `f`: for the same value, or for a value inside it. -/
structure Follows (c : SchemaCompiler) (f g : Call) : Prop where
  location : g.schema_location = g.node.uri.to_string
  target : (g.element = f.element ∧ g.node ∈ c.sameValue f.node) ∨
    (g.element ∈ inner f.element ∧ (g.node ∈ f.node.children ∨ ∃ n ∈ f.node.children, g.node ∈ n.children))

/-- The names of the members of an object. -/
def memberNames : Json → List Str
  | .obj members => members.map Prod.fst
  | _ => []

/-- The number of items of an array. -/
def itemCount : Json → ℕ
  | .arr items => items.length
  | _ => 0

/-- What the check of `x` can see of the evaluation context: which of the names in `x` have been
evaluated, and as many items as an array in `x` can have. -/
def visible (x : Json) (ctx : EvaluationContext) : List Str × List Bool :=
  (((parts x).flatMap memberNames).filter fun name => name ∈ ctx.evaluated_properties,
    ctx.evaluated_items.take ((parts x).map itemCount).sum)

/-- The check of `x` cannot see a difference. -/
def Unseen (x : Json) (ctx ctx' : EvaluationContext) : Prop := visible x ctx = visible x ctx'

section Visible

variable {x : Json} {ctx ctx' : EvaluationContext}

theorem mem_evaluated_properties_of_visible (h : visible x ctx = visible x ctx') {members : List (Str × Json)}
    (hx : .obj members ∈ parts x) {member : Str × Json} (hmember : member ∈ members) :
    member.1 ∈ ctx.evaluated_properties ↔ member.1 ∈ ctx'.evaluated_properties := by
  have hname : member.1 ∈ (parts x).flatMap memberNames :=
    List.mem_flatMap.mpr ⟨_, hx, List.mem_map_of_mem hmember⟩
  have hseen : member.1 ∈ (visible x ctx).1 ↔ member.1 ∈ (visible x ctx').1 := by rw [h]
  simpa [visible, List.mem_filter, hname] using hseen

theorem evaluated_items_of_visible (h : visible x ctx = visible x ctx') {items : List Json}
    (hx : .arr items ∈ parts x) {index : ℕ} (hindex : index < items.length) :
    ctx.evaluated_items.getD index false = ctx'.evaluated_items.getD index false := by
  have hwidth : items.length ≤ ((parts x).map itemCount).sum :=
    List.single_le_sum (by simp) _ (List.mem_map_of_mem hx)
  have hseen : (visible x ctx).2[index]? = (visible x ctx').2[index]? := by rw [h]
  unfold visible at hseen
  dsimp only at hseen
  rw [List.getElem?_take_of_lt (by omega), List.getElem?_take_of_lt (by omega)] at hseen
  rw [List.getD_eq_getElem?_getD, List.getD_eq_getElem?_getD, hseen]

theorem visible_evaluateProperty (h : visible x ctx = visible x ctx') (name : Str) :
    visible x { ctx with evaluated_properties := insert name ctx.evaluated_properties } =
      visible x { ctx' with evaluated_properties := insert name ctx'.evaluated_properties } := by
  obtain ⟨hnames, hitems⟩ := Prod.mk.inj h
  refine Prod.ext ?_ hitems
  refine List.filter_congr fun n hn => ?_
  have hseen : n ∈ ctx.evaluated_properties ↔ n ∈ ctx'.evaluated_properties := by
    have := congrArg (n ∈ ·) hnames
    simpa [List.mem_filter, hn] using this
  simp [hseen]

theorem take_append_congr {α : Type} {l l' : List α} {n : ℕ} (h : l.take n = l'.take n) (a : α) :
    (l ++ [a]).take n = (l' ++ [a]).take n := by
  have hlength : n - l.length = n - l'.length := by
    have := congrArg List.length h
    simp only [List.length_take] at this
    omega
  rw [List.take_append, List.take_append, h, hlength]

theorem visible_evaluateItem (h : visible x ctx = visible x ctx') :
    visible x { ctx with evaluated_items := ctx.evaluated_items ++ [true] } =
      visible x { ctx' with evaluated_items := ctx'.evaluated_items ++ [true] } := by
  obtain ⟨hnames, hitems⟩ := Prod.mk.inj h
  exact Prod.ext hnames (take_append_congr hitems true)

/-- There are finitely many things to see. -/
theorem finite_range_visible (x : Json) : (Set.range (visible x)).Finite := by
  have hnames : {l : List Str | l ∈ ((parts x).flatMap memberNames).sublists}.Finite :=
    List.finite_toSet _
  have hitems : {l : List Bool | l.length ≤ ((parts x).map itemCount).sum}.Finite :=
    List.finite_length_le Bool _
  refine (hnames.prod hitems).subset ?_
  rintro _ ⟨ctx, rfl⟩
  exact ⟨List.mem_sublists.mpr List.filter_sublist, by simp [visible]⟩

end Visible

/-! ### What the keywords call -/

section Leaves

variable {Q : Call → Prop} {N : (EvaluationContext → EvaluationContext) → Prop}
  {G : (EvaluationContext → Bool) → Prop} {P : Platform} {value x : Json} {loc : Str}

theorem over_require {ok : Bool} {message : Str} : (require ok loc message).Over Q N G := by
  unfold require
  split <;> trivial

theorem over_validateType : (validateType P value x loc).Over Q N G := by
  unfold validateType
  split
  · exact over_require
  · exact over_require
  · trivial

theorem over_validateEnum : (validateEnum P value x loc).Over Q N G := by
  unfold validateEnum
  split
  · exact over_require
  · trivial

theorem over_validateMultipleOf : (validateMultipleOf P value x loc).Over Q N G := by
  unfold validateMultipleOf
  split
  · exact over_require
  · trivial

theorem over_validateBound {violates : P.Double → P.Double → Bool} {text : String} :
    (validateBound P value x loc violates text).Over Q N G := by
  unfold validateBound
  split
  · exact over_require
  · trivial

theorem over_validateMaxLength : (validateMaxLength value x loc).Over Q N G := by
  unfold validateMaxLength
  split
  · exact over_require
  · trivial

theorem over_validateMinLength : (validateMinLength value x loc).Over Q N G := by
  unfold validateMinLength
  split
  · exact over_require
  · trivial

theorem over_validatePattern : (validatePattern P value x loc).Over Q N G := by
  unfold validatePattern
  split
  · cases patternError P _ _ <;> trivial
  · trivial

theorem over_validateCount {count : Option ℕ} {exceeded : ℕ → ℕ → Bool} {subject text unit : String} :
    (validateCount value loc count exceeded subject text unit).Over Q N G := by
  unfold validateCount
  split
  · exact over_require
  · trivial

theorem over_validateUniqueItems : (validateUniqueItems P value x loc).Over Q N G := by
  unfold validateUniqueItems
  split
  · split <;> trivial
  · trivial

theorem over_requireName {members : Record Str Json} {req : Json} :
    (requireName loc members req).Over Q N G := by
  unfold requireName
  split
  · exact over_require
  · trivial

theorem over_validateRequired : (validateRequired value x loc).Over Q N G := by
  unfold validateRequired
  split
  · split
    · exact .all_map fun _ _ => over_requireName
    · trivial
  · trivial

theorem over_validateDependentRequired {children : List SchemaNode} :
    (validateDependentRequired x loc children).Over Q N G := by
  unfold validateDependentRequired
  split
  · refine .all_map fun child _ => ?_
    unfold dependentNames
    dsimp only
    split
    · exact .all_map fun _ _ => over_require
    · trivial
  · trivial

theorem over_validatePropertyNames {children : List SchemaNode} :
    (validatePropertyNames P x loc children).Over Q N G := by
  unfold validatePropertyNames
  split
  · refine .all_map fun member _ => ?_
    unfold validateName
    split
    · split
      · trivial
      · exact ⟨.all_map fun _ _ => trivial, over_require⟩
    · trivial
  · trivial

theorem over_validateDefault : (validateDefault value loc).Over Q N G := by
  unfold validateDefault
  split
  · exact over_require
  · trivial

end Leaves

/-- The notes `validate_node` takes. -/
inductive ContextNote : (EvaluationContext → EvaluationContext) → Prop
  | property (name : Str) :
    ContextNote fun ctx => { ctx with evaluated_properties := insert name ctx.evaluated_properties }
  | item : ContextNote fun ctx => { ctx with evaluated_items := ctx.evaluated_items ++ [true] }
  | maxContains (n : ℕ) : ContextNote fun ctx => { ctx with max_contains_count := n }
  | minContains (n : ℕ) : ContextNote fun ctx => { ctx with min_contains_count := n }

/-- What `validate_node` asks the context for when it has `y`. -/
inductive ContextGuard (y : Json) : (EvaluationContext → Bool) → Prop
  | property {members : List (Str × Json)} (hy : y = .obj members) {member : Str × Json}
      (hmember : member ∈ members) : ContextGuard y fun ctx => member.1 ∈ ctx.evaluated_properties
  | item {items : List Json} (hy : y = .arr items) {index : ℕ} (hindex : index < items.length) :
      ContextGuard y fun ctx => ctx.evaluated_items.getD index false

theorem over_noteMaxContains {Q : Call → Prop} {G : (EvaluationContext → Bool) → Prop} {value : Json} :
    (noteMaxContains value).Over Q ContextNote G := by
  unfold noteMaxContains
  split
  · exact .maxContains _
  · trivial

theorem over_noteMinContains {Q : Call → Prop} {G : (EvaluationContext → Bool) → Prop} {value : Json} :
    (noteMinContains value).Over Q ContextNote G := by
  unfold noteMinContains
  split
  · exact .minContains _
  · trivial

section Calls

variable {Q : Call → Prop} {N : (EvaluationContext → EvaluationContext) → Prop}
  {G : (EvaluationContext → Bool) → Prop} {P : Platform} {c : SchemaCompiler} {y : Json} {loc : Str}
  {children : List SchemaNode}

/-- `Q` holds of the call that visits the node. -/
def Allows (Q : Call → Prop) (y : Json) (node : SchemaNode) : Prop := Q ⟨node, y, node.uri.to_string⟩

theorem over_visitAll (h : ∀ n ∈ children, Allows Q y n) : (visitAll y children).Over Q N G :=
  .all_map h

theorem over_validateAnyOf (h : ∀ n ∈ children, Allows Q y n) :
    (validateAnyOf y loc children).Over Q N G := by
  induction children with
  | nil => trivial
  | cons child children ih =>
    refine ⟨h child (List.mem_cons_self ..), fun matched => ?_⟩
    cases matched with
    | true => trivial
    | false => exact ih fun n hn => h n (List.mem_cons_of_mem _ hn)

theorem over_validateOneOf (h : ∀ n ∈ children, Allows Q y n) :
    ∀ found, (validateOneOf y loc children found).Over Q N G := by
  induction children with
  | nil => exact fun _ => over_require
  | cons child children ih =>
    intro found
    exact ⟨h child (List.mem_cons_self ..), fun _ => ih (fun n hn => h n (List.mem_cons_of_mem _ hn)) _⟩

theorem over_validateNot (h : ∀ n ∈ children.take 1, Allows Q y n) :
    (validateNot y loc children).Over Q N G := by
  cases children with
  | nil => trivial
  | cons child children =>
    refine ⟨h child (by simp), fun matched => ?_⟩
    cases matched <;> trivial

theorem over_validateIf {parent : Parent} (h : ∀ n ∈ children.take 1, Allows Q y n)
    (hbranch : parent = .root → ∀ matched : Bool, ∀ n ∈ lastWith (if matched then .Then else .Else)
      c.root_node_.children, Allows Q y n) : (validateIf c y children parent).Over Q N G := by
  cases children with
  | nil => trivial
  | cons child children =>
    refine ⟨h child (by simp), fun matched => ?_⟩
    cases parent with
    | null => trivial
    | destroyed => trivial
    | root =>
      cases hlast : lastWith (if matched then .Then else .Else) c.root_node_.children with
      | none => simp only [hlast]; trivial
      | some branch =>
        simp only [hlast]
        exact hbranch rfl matched branch hlast

theorem over_validateContains (h : ∀ item ∈ inner y, ∀ n ∈ children, Allows Q item n) :
    (validateContains y loc children).Over Q N G := by
  unfold validateContains
  split
  · rename_i items child rest
    have hcount : ∀ (items : List Json) (n : ℕ), (∀ item ∈ items, Allows Q item child) →
        (countMatches loc child items n).Over Q N G := by
      intro items
      induction items with
      | nil => exact fun _ _ => over_require
      | cons item items ih =>
        intro n hitems
        exact ⟨hitems item (List.mem_cons_self ..),
          fun _ => ih _ fun i hi => hitems i (List.mem_cons_of_mem _ hi)⟩
    exact hcount items 0 fun item hitem => h item hitem child (List.mem_cons_self ..)
  · trivial

theorem over_validateRef {value : Json}
    (h : ∀ target, value.get_string.bind c.find_ref = some (.node target) → Allows Q y target) :
    (validateRef c y loc value).Over Q N G := by
  unfold validateRef
  split
  · trivial
  · rename_i ref_target href
    split
    · rename_i target htarget
      exact h target (by rw [href]; exact htarget)
    · trivial
    · trivial

theorem over_validateDependentSchemas (h : ∀ n ∈ children.flatMap SchemaNode.children, Allows Q y n) :
    (validateDependentSchemas y children).Over Q N G := by
  unfold validateDependentSchemas
  split
  · refine .all_map fun child hchild => ?_
    split
    · exact over_visitAll fun n hn => h n (List.mem_flatMap.mpr ⟨child, hchild, hn⟩)
    · trivial
  · trivial

theorem over_validateAdditionalItems {parent : Parent} (h : ∀ item ∈ inner y, ∀ n ∈ children, Allows Q item n) :
    (validateAdditionalItems c y children parent).Over Q N G := by
  unfold validateAdditionalItems
  split
  · rename_i items child rest
    refine .all_map ?_
    rintro ⟨item, index⟩ hp
    cases parent with
    | root =>
      dsimp only
      split
      · exact h item (List.fst_mem_of_mem_zipIdx hp) child (List.mem_cons_self ..)
      · trivial
    | null => trivial
    | destroyed => trivial
  · trivial

theorem over_validateProperties
    (h : ∀ z ∈ inner y, ∀ n ∈ children.flatMap SchemaNode.children, Allows Q z n) :
    (validateProperties y children).Over Q ContextNote G := by
  unfold validateProperties
  split
  · rename_i members
    refine .all_map fun child hchild => ?_
    unfold validateProperty
    dsimp only
    split
    · trivial
    · rename_i prop_value hfind
      have hvalue : prop_value ∈ inner (.obj members) :=
        List.mem_map.mpr ⟨_, Record.mem_of_find hfind, rfl⟩
      exact ⟨over_visitAll fun n hn => h _ hvalue n (List.mem_flatMap.mpr ⟨child, hchild, hn⟩),
        ContextNote.property _⟩
  · trivial

theorem over_validatePatternProperties
    (h : ∀ z ∈ inner y, ∀ n ∈ children.flatMap SchemaNode.children, Allows Q z n) :
    (validatePatternProperties P y children).Over Q ContextNote G := by
  unfold validatePatternProperties
  split
  · rename_i members
    refine .all_map fun child hchild => .all_map fun member hmember => ?_
    unfold validatePatternMember
    dsimp only
    split
    · exact ⟨over_visitAll fun n hn => h _ (List.mem_map_of_mem hmember) n
        (List.mem_flatMap.mpr ⟨child, hchild, hn⟩), ContextNote.property _⟩
    · trivial
  · trivial

theorem over_validateOtherProperties (h : ∀ z ∈ inner y, ∀ n ∈ children, Allows Q z n) :
    (validateOtherProperties y children).Over Q N (ContextGuard y) := by
  unfold validateOtherProperties
  split
  · rename_i members child rest
    refine .all_map fun member hmember => ⟨.property rfl hmember, ?_⟩
    exact h _ (List.mem_map_of_mem hmember) child (List.mem_cons_self ..)
  · trivial

theorem over_validateItems (h : ∀ z ∈ inner y, ∀ n ∈ children, Allows Q z n) :
    (validateItems y children).Over Q ContextNote G := by
  unfold validateItems
  split
  · exact .all_map fun item hitem => ⟨h item hitem _ (List.mem_cons_self ..), ContextNote.item⟩
  · trivial

theorem over_validatePrefixItems (h : ∀ z ∈ inner y, ∀ n ∈ children, Allows Q z n) :
    (validatePrefixItems y children).Over Q ContextNote G := by
  unfold validatePrefixItems
  split
  · refine .all_map ?_
    rintro ⟨item, index⟩ hp
    refine ⟨?_, ContextNote.item⟩
    cases hchild : children[index]?.or children.getLast? with
    | none => trivial
    | some child =>
      have hmem : child ∈ children := by
        rcases Option.or_eq_some_iff.mp hchild with hchild | ⟨-, hchild⟩
        · exact List.mem_of_getElem? hchild
        · exact List.mem_of_getLast? hchild
      exact h item (List.fst_mem_of_mem_zipIdx hp) child hmem
  · trivial

theorem over_validateUnevaluatedItems (h : ∀ z ∈ inner y, ∀ n ∈ children, Allows Q z n) :
    (validateUnevaluatedItems y children).Over Q N (ContextGuard y) := by
  unfold validateUnevaluatedItems
  split
  · rename_i items child rest
    refine .all_map fun p hp => ⟨.item rfl (List.snd_lt_of_mem_zipIdx hp), ?_⟩
    exact h p.1 (List.fst_mem_of_mem_zipIdx hp) child (List.mem_cons_self ..)
  · trivial

end Calls

/-- `validate_node` makes no other calls than `Follows` says, and takes and asks for no other notes. -/
theorem over_validate_node {P : Platform} {c : SchemaCompiler} {f : Call} :
    (validate_node P c f).Over (Follows c f) ContextNote (ContextGuard f.element) := by
  have hsame : ∀ n ∈ c.sameValue f.node, Allows (Follows c f) f.element n := fun n hn =>
    ⟨rfl, .inl ⟨rfl, hn⟩⟩
  have hchild : ∀ z ∈ inner f.element, ∀ n ∈ f.node.children, Allows (Follows c f) z n := fun z hz n hn =>
    ⟨rfl, .inr ⟨hz, .inl hn⟩⟩
  have hgrandchild : ∀ z ∈ inner f.element, ∀ n ∈ f.node.children.flatMap SchemaNode.children,
      Allows (Follows c f) z n := by
    intro z hz n hn
    exact ⟨rfl, .inr ⟨hz, .inr (List.mem_flatMap.mp hn)⟩⟩
  unfold SchemaCompiler.sameValue at hsame
  unfold validate_node
  dsimp only
  cases hkeyword : f.node.keyword <;> simp only [hkeyword] at hsame ⊢
  case Schema | AllOf => exact over_visitAll hsame
  case Type_ => exact over_validateType
  case Enum => exact over_validateEnum
  case Const => exact over_require
  case MultipleOf => exact over_validateMultipleOf
  case Maximum | Minimum | ExclusiveMaximum | ExclusiveMinimum => exact over_validateBound
  case MaxLength => exact over_validateMaxLength
  case MinLength => exact over_validateMinLength
  case Pattern => exact over_validatePattern
  case MaxItems | MinItems | MaxProperties | MinProperties => exact over_validateCount
  case UniqueItems => exact over_validateUniqueItems
  case MaxContains => exact over_noteMaxContains
  case MinContains => exact over_noteMinContains
  case Required => exact over_validateRequired
  case AnyOf => exact over_validateAnyOf hsame
  case OneOf => exact over_validateOneOf hsame 0
  case Not => exact over_validateNot hsame
  case If =>
    refine over_validateIf (fun n hn => hsame n (List.mem_append_left _ hn)) fun hparent matched n hn => ?_
    refine hsame n (List.mem_append_right _ ?_)
    rw [if_pos hparent, List.mem_append]
    cases matched with
    | true => exact .inl (by simpa using hn)
    | false => exact .inr (by simpa using hn)
  case Properties => exact over_validateProperties hgrandchild
  case AdditionalProperties | UnevaluatedProperties => exact over_validateOtherProperties hchild
  case Items => exact over_validateItems hchild
  case PrefixItems => exact over_validatePrefixItems hchild
  case Contains => exact over_validateContains hchild
  case Ref =>
    refine over_validateRef fun target htarget => hsame target ?_
    rw [htarget]
    exact List.mem_singleton_self target
  case PatternProperties => exact over_validatePatternProperties hgrandchild
  case DependentRequired => exact over_validateDependentRequired
  case DependentSchemas => exact over_validateDependentSchemas hsame
  case PropertyNames => exact over_validatePropertyNames
  case AdditionalItems => exact over_validateAdditionalItems hchild
  case UnevaluatedItems => exact over_validateUnevaluatedItems hchild
  all_goals exact over_validateDefault

/-- What the check of `x` cannot see makes no difference to `validate_node`. -/
theorem within_validate_node {P : Platform} {c : SchemaCompiler} {x : Json} {f : Call}
    (hx : f.element ∈ parts x) : (validate_node P c f).Within (Follows c f) (Unseen x) := by
  refine over_validate_node.mono (fun g hg => hg) ?_ ?_
  · rintro _ (⟨name⟩ | _ | ⟨n⟩ | ⟨n⟩) ctx ctx' h
    · exact visible_evaluateProperty h name
    · exact visible_evaluateItem h
    · exact h
    · exact h
  · rintro _ (⟨hy, hmember⟩ | ⟨hy, hindex⟩) ctx ctx' h
    · rw [hy] at hx
      simp only [mem_evaluated_properties_of_visible h hx hmember]
    · rw [hy] at hx
      exact evaluated_items_of_visible h hx hindex

/-! ### Termination -/

/-- A call for a node there is, and a value there is in the instance. -/
def Possible (c : SchemaCompiler) (x : Json) (f : Call) : Prop :=
  f = rootCall c x ∨ (f.node ∈ c.nodes ∧ f.element ∈ parts x ∧ f.schema_location = f.node.uri.to_string)

theorem Possible.node {c : SchemaCompiler} {x : Json} {f : Call} (h : Possible c x f) : f.node ∈ c.nodes := by
  rcases h with rfl | h
  · exact c.root_mem_nodes
  · exact h.1

theorem Possible.element {c : SchemaCompiler} {x : Json} {f : Call} (h : Possible c x f) :
    f.element ∈ parts x := by
  rcases h with rfl | h
  · exact self_mem_parts x
  · exact h.2.1

/-- The nodes called for the same value are among the nodes there are. -/
theorem sameValue_mem_nodes {c : SchemaCompiler} {node n : SchemaNode} (h : node ∈ c.nodes)
    (hn : n ∈ c.sameValue node) : n ∈ c.nodes := by
  have hlast : ∀ kw, n ∈ (lastWith kw c.root_node_.children).toList → n ∈ c.nodes := by
    intro kw hkw
    have hmem := List.mem_of_getLast? (Option.mem_toList.mp hkw)
    exact SchemaCompiler.child_mem_nodes c.root_mem_nodes (List.mem_filter.mp hmem).1
  unfold SchemaCompiler.sameValue at hn
  split at hn
  · exact SchemaCompiler.child_mem_nodes h hn
  · exact SchemaCompiler.child_mem_nodes h hn
  · exact SchemaCompiler.child_mem_nodes h hn
  · exact SchemaCompiler.child_mem_nodes h hn
  · exact SchemaCompiler.child_mem_nodes h (List.mem_of_mem_take hn)
  · rcases List.mem_append.mp hn with hn | hn
    · exact SchemaCompiler.child_mem_nodes h (List.mem_of_mem_take hn)
    · split at hn
      · exact (List.mem_append.mp hn).elim (hlast _) (hlast _)
      · simp at hn
  · obtain ⟨child, hchild, hn⟩ := List.mem_flatMap.mp hn
    exact SchemaCompiler.child_mem_nodes (SchemaCompiler.child_mem_nodes h hchild) hn
  · split at hn
    · rename_i target htarget
      obtain rfl := List.mem_singleton.mp hn
      obtain ⟨ref_uri, -, hfind⟩ := Option.bind_eq_some_iff.mp htarget
      exact SchemaCompiler.find_ref_mem_nodes hfind
    · simp at hn
  · simp at hn

theorem Follows.possible {c : SchemaCompiler} {x : Json} {f g : Call} (hf : Possible c x f)
    (h : Follows c f g) : Possible c x g := by
  refine .inr ?_
  rcases h.target with ⟨helement, hnode⟩ | ⟨helement, hnode⟩
  · exact ⟨sameValue_mem_nodes hf.node hnode, helement ▸ hf.element, h.location⟩
  · refine ⟨?_, inner_mem_parts hf.element helement, h.location⟩
    rcases hnode with hnode | ⟨n, hn, hnode⟩
    · exact SchemaCompiler.child_mem_nodes hf.node hnode
    · exact SchemaCompiler.child_mem_nodes (SchemaCompiler.child_mem_nodes hf.node hn) hnode

theorem finite_possible (c : SchemaCompiler) (x : Json) : {f | Possible c x f}.Finite := by
  have hpairs : {p : SchemaNode × Json | p.1 ∈ c.nodes ∧ p.2 ∈ parts x}.Finite :=
    (List.finite_toSet c.nodes).prod (List.finite_toSet (parts x))
  have hcalls := hpairs.image fun p => (⟨p.1, p.2, p.1.uri.to_string⟩ : Call)
  refine ((Set.finite_singleton (rootCall c x)).union hcalls).subset ?_
  rintro ⟨node, element, location⟩ (hroot | ⟨hnode, helement, hlocation⟩)
  · exact .inl hroot
  · obtain rfl : location = node.uri.to_string := hlocation
    exact .inr ⟨(node, element), ⟨hnode, helement⟩, rfl⟩

/-- The recursion of `validate_node` is finite: with calls deep enough, `validate` returns or stops with
a fault. -/
def Terminates (P : Platform) (c : SchemaCompiler) (x : Json) : Prop :=
  ∃ depth, validate P c depth x ≠ .error .depth

/-- A call of `validate_node` that is under way is entered again, and the check of the instance cannot
see a difference in the evaluation context. -/
def ComesBack (P : Platform) (c : SchemaCompiler) (x : Json) : Prop :=
  ∃ f t t', ReflTransGen (Calls (validate_node P c)) (rootCall c x, ⟨[], {}⟩) (f, t) ∧
    TransGen (Calls (validate_node P c)) (f, t) (f, t') ∧ visible x t'.notes = visible x t.notes

/-- A node leads to itself through nodes that constrain the same value. -/
def Circular (c : SchemaCompiler) : Prop :=
  ∃ n ∈ c.nodes, TransGen (fun n m => m ∈ c.sameValue n) n n

theorem terminates_iff_ends {P : Platform} {c : SchemaCompiler} {x : Json} :
    Terminates P c x ↔ Ends (validate_node P c) (validate_node P c (rootCall c x)) ⟨[], {}⟩ := by
  rw [← ends_call_iff]
  have hdepth : ∀ depth, validate P c depth x = .error .depth ↔
      runCalls (validate_node P c) depth (rootCall c x) ⟨[], {}⟩ = .error .depth := by
    intro depth
    unfold validate
    cases runCalls (validate_node P c) depth (rootCall c x) ⟨[], {}⟩ <;> simp [bind, Except.bind]
  constructor
  · rintro ⟨depth, h⟩
    exact ⟨depth, fun hrun => h ((hdepth depth).mpr hrun)⟩
  · rintro ⟨depth, h⟩
    exact ⟨depth, fun hrun => h ((hdepth depth).mp hrun)⟩

/-- A call is followed by calls for smaller values, or for the same value along the schema. -/
theorem follows_of_transGen {P : Platform} {c : SchemaCompiler} {x : Json}
    {a b : Call × Tally ValidationError EvaluationContext} (ha : Possible c x a.1)
    (h : TransGen (Calls (validate_node P c)) a b) :
    Possible c x b.1 ∧ (sizeOf b.1.element < sizeOf a.1.element ∨
      (b.1.element = a.1.element ∧ TransGen (fun n m => m ∈ c.sameValue n) a.1.node b.1.node)) := by
  induction h with
  | single hab =>
    have hfollows := Enters.over hab (within_validate_node ha.element)
    refine ⟨hfollows.possible ha, ?_⟩
    rcases hfollows.target with ⟨helement, hnode⟩ | ⟨helement, -⟩
    · exact .inr ⟨helement, .single hnode⟩
    · exact .inl (sizeOf_inner helement)
  | tail _ hbc ih =>
    obtain ⟨hb, hsofar⟩ := ih
    have hfollows := Enters.over hbc (within_validate_node hb.element)
    refine ⟨hfollows.possible hb, ?_⟩
    rcases hfollows.target with ⟨helement, hnode⟩ | ⟨helement, -⟩
    · rw [helement]
      exact hsofar.imp id fun h => ⟨h.1, h.2.tail hnode⟩
    · have hsmaller := sizeOf_inner helement
      left
      rcases hsofar with hsofar | ⟨hsofar, -⟩
      · omega
      · rwa [hsofar] at hsmaller

/-- A validation comes to nodes of the schema only. -/
theorem possible_of_calls {P : Platform} {c : SchemaCompiler} {x : Json}
    {a b : Call × Tally ValidationError EvaluationContext} (ha : Possible c x a.1)
    (h : ReflTransGen (Calls (validate_node P c)) a b) : Possible c x b.1 := by
  induction h with
  | refl => exact ha
  | tail _ hcall ih => exact Follows.possible ih (hcall.over over_validate_node)

/-- The calls come to an end exactly if none of them comes back to itself. -/
theorem ends_iff_not_comesBack (P : Platform) (c : SchemaCompiler) (x : Json) :
    Ends (validate_node P c) (validate_node P c (rootCall c x)) ⟨[], {}⟩ ↔ ¬ ComesBack P c x := by
  have hbody : ∀ f, Possible c x f → (validate_node P c f).Within (Possible c x) (Unseen x) :=
    fun f hf => (within_validate_node hf.element).mono (fun _ => Follows.possible hf) (fun _ h => h) fun _ h => h
  have hends := ends_iff_no_return hbody (finite_possible c x) (finite_range_visible x)
    (a := (rootCall c x, ⟨[], {}⟩)) (.inl rfl)
  rw [hends]
  constructor
  · rintro h ⟨f, t, t', hreach, hback, hsame⟩
    exact h _ _ hreach hback ⟨rfl, hsame⟩
  · rintro h ⟨f, t⟩ ⟨f', t'⟩ hreach hback ⟨hf, hsame⟩
    obtain rfl : f' = f := hf
    exact h ⟨f', t, t', hreach, hback, hsame⟩

/-- **When `validate` terminates.**  The recursion is finite exactly if no call of `validate_node` comes
back to itself, and a call can come back to itself only along a cycle of nodes that constrain the same
value. -/
theorem terminates_iff (P : Platform) (c : SchemaCompiler) (x : Json) :
    (Terminates P c x ↔ ¬ ComesBack P c x) ∧ (ComesBack P c x → Circular c) := by
  constructor
  · rw [terminates_iff_ends]
    exact ends_iff_not_comesBack P c x
  · rintro ⟨f, t, t', hreach, hback, -⟩
    have hpossible : Possible c x f := possible_of_calls (.inl rfl) hreach
    obtain ⟨-, hsmaller | ⟨-, hcycle⟩⟩ := follows_of_transGen hpossible hback
    · exact absurd hsmaller (lt_irrefl _)
    · exact ⟨f.node, hpossible.node, hcycle⟩

/-! ### A schema that refers to itself -/

def selfReference : Json := .obj [("$ref".toList, .str "#".toList)]

/-- Its root, with the node of the `$ref`. -/
def selfNode : SchemaNode :=
  { uri := .parse "#".toList, keyword := .Schema, value := selfReference, children := [refNode "#".toList] }

/-- The calls for the two nodes use up every depth. -/
theorem runCalls_self {P : Platform} {c : SchemaCompiler}
    (hfind : c.find_ref "#".toList = some (.node selfNode)) (x : Json) :
    ∀ depth t, runCalls (validate_node P c) depth ⟨selfNode, x, "#".toList⟩ t = .error .depth ∧
      runCalls (validate_node P c) depth ⟨refNode "#".toList, x, "#/$ref".toList⟩ t = .error .depth := by
  have hself : validate_node P c ⟨selfNode, x, "#".toList⟩ =
      .seq (.call ⟨refNode "#".toList, x, "#/$ref".toList⟩) .done := rfl
  have href : validate_node P c ⟨refNode "#".toList, x, "#/$ref".toList⟩ =
      .call ⟨selfNode, x, "#".toList⟩ := by
    show validateRef c x _ (.str "#".toList) = _
    unfold validateRef
    simp only [Json.get_string, hfind]
    rfl
  intro depth
  induction depth with
  | zero => exact fun t => ⟨rfl, rfl⟩
  | succ depth ih =>
    intro t
    obtain ⟨hroot, hchild⟩ := ih t
    constructor
    · rw [runCalls, hself, Check.run, Check.run, hchild]
      rfl
    · rw [runCalls, href, Check.run]
      exact hroot

/-- It is compiled, and `validate` does not come back from it. -/
theorem self_reference_diverges :
    ∃ c, compile selfReference = .ok c ∧ ¬ Terminates wholeNumbers c .null := by
  have hcompile : ∃ c, compile selfReference = .ok c ∧ c.root_node_ = selfNode ∧
      c.find_ref "#".toList = some (.node selfNode) := ⟨_, rfl, rfl, rfl⟩
  obtain ⟨c, hc, hroot, hfind⟩ := hcompile
  refine ⟨c, hc, ?_⟩
  rw [terminates_iff_ends, ← ends_call_iff, rootCall, hroot]
  rintro ⟨depth, h⟩
  exact h (runCalls_self hfind .null depth _).1

end Siesta.JsonSchema
