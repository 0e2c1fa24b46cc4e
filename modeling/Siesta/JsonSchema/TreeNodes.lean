import Siesta.JsonSchema.Building
import Siesta.JsonSchema.Termination

/-!
# The nodes a validation comes to

`$ref` finds nodes of the tree only: `build_schema_tree` enters in `ids_` addresses of local variables, which
point to no node, and `collect_anchors` the nodes of the tree (`mem_preorder_of_mem_nodes`).  Of these, the
root's own nodes alone have the root for their parent (`keyword_of_parent_root`).
-/

namespace Siesta.JsonSchema

open Lib

/-! ### The tables -/

section Tables

variable {nodes : List SchemaNode} {tables : Anchors}

/-- The tables point to some of the nodes. -/
structure PointsTo (nodes : List SchemaNode) (tables : Anchors) : Prop where
  anchors : ∀ uri node, tables.anchors_.find uri = some node → node ∈ nodes
  ids : ∀ uri node, tables.ids_.find uri = some (.node node) → node ∈ nodes

theorem PointsTo.collectNode (h : PointsTo nodes tables) {node : SchemaNode} (hnode : node ∈ nodes) :
    PointsTo nodes (collectNode tables node) := by
  have hemplace : ∀ (anchors_ : Table Str SchemaNode) (key : Str),
      (∀ uri n, anchors_.find uri = some n → n ∈ nodes) →
        ∀ uri n, (anchors_.emplace key node).find uri = some n → n ∈ nodes := by
    intro anchors_ key hanchors uri n hn
    rw [Table.find_emplace] at hn
    split at hn
    · obtain rfl := Option.some.inj hn
      exact hnode
    · exact hanchors uri n hn
  constructor
  · refine hemplace _ _ ?_
    split
    · refine hemplace _ _ ?_
      split
      · exact hemplace _ _ h.anchors
      · exact h.anchors
    · split
      · exact hemplace _ _ h.anchors
      · exact h.anchors
  · intro uri n hn
    unfold JsonSchema.collectNode at hn
    dsimp only at hn
    split at hn
    · rw [Table.find_emplace] at hn
      split at hn
      · obtain rfl := NodePtr.node.inj (Option.some.inj hn)
        exact hnode
      · exact h.ids uri n hn
    · exact h.ids uri n hn

theorem PointsTo.collect : ∀ (l : List SchemaNode) (tables : Anchors), PointsTo nodes tables →
    (∀ node ∈ l, node ∈ nodes) → PointsTo nodes (l.foldl JsonSchema.collectNode tables) := by
  intro l
  induction l with
  | nil => exact fun _ h _ => h
  | cons node l ih =>
    intro tables h hl
    exact ih _ (h.collectNode (hl node (List.mem_cons_self ..))) fun n hn => hl n (List.mem_cons_of_mem _ hn)

/-- The tables of a compiled document point to nodes of its tree. -/
theorem pointsTo_of_compile {schema : Json} {c : SchemaCompiler} (hc : compile schema = .ok c) :
    PointsTo c.root_node_.preorder c.tables := by
  obtain ⟨⟨children, st⟩, htree, hc⟩ := bind_eq_ok.mp hc
  obtain rfl := Except.ok.inj hc
  have hunbound := unbound_of_build htree unbound_empty
  refine PointsTo.collect _ _ ⟨fun uri node h => ?_, fun uri node h => absurd h (hunbound uri node)⟩ fun _ h => h
  rw [Table.find_empty] at h
  cases h

end Tables

/-! ### The tree -/

mutual

theorem preorder_subset {root : SchemaNode} :
    ∀ {node : SchemaNode}, node ∈ root.preorder → ∀ n ∈ node.preorder, n ∈ root.preorder
  | ⟨_, _, _, _, _, _, children, _⟩, hnode, n, hn => by
    rw [SchemaNode.preorder, List.mem_cons] at hn
    rcases hn with rfl | hn
    · exact hnode
    · exact preorders_subset (fun child hchild => child_mem_preorder_of_mem hnode hchild) n hn

theorem preorders_subset {root : SchemaNode} :
    ∀ {nodes : List SchemaNode}, (∀ node ∈ nodes, node ∈ root.preorder) → ∀ n ∈ preorders nodes, n ∈ root.preorder
  | [], _, n, hn => by cases hn
  | node :: nodes, hnodes, n, hn => by
    rw [preorders, List.mem_append] at hn
    rcases hn with hn | hn
    · exact preorder_subset (hnodes node (List.mem_cons_self ..)) n hn
    · exact preorders_subset (fun m hm => hnodes m (List.mem_cons_of_mem _ hm)) n hn

end

theorem mem_preorder_of_mem_nodes {schema : Json} {c : SchemaCompiler} (hc : compile schema = .ok c)
    {node : SchemaNode} (h : node ∈ c.nodes) : node ∈ c.root_node_.preorder := by
  have htables := pointsTo_of_compile hc
  refine preorders_subset (fun n hn => ?_) node h
  rcases List.mem_cons.mp hn with rfl | hn
  · exact self_mem_preorder _
  rcases List.mem_append.mp hn with hn | hn
  · obtain ⟨⟨uri, m⟩, hm, rfl⟩ := List.mem_map.mp hn
    exact htables.anchors uri m (Table.find_eq_some.mpr hm)
  · obtain ⟨⟨uri, ptr⟩, hptr, hn⟩ := List.mem_filterMap.mp hn
    cases ptr with
    | node m =>
      obtain rfl := Option.some.inj hn
      exact htables.ids uri m (Table.find_eq_some.mpr hptr)
    | destroyed => cases hn

/-- The nodes that have the root for their parent stand for its members. -/
theorem keyword_of_parent_root {schema : Json} {c : SchemaCompiler} (hc : compile schema = .ok c)
    {node : SchemaNode} (h : node ∈ c.nodes) (hparent : node.parent = .root) :
    ∃ members, schema = .obj members ∧ ∃ m ∈ members, keywordOf m.1 = node.keyword := by
  let N (n : SchemaNode) : Prop :=
    n.parent = .root → ∃ members, schema = .obj members ∧ ∃ m ∈ members, keywordOf m.1 = n.keyword
  have hnested : ∀ no_parent key, MemberRule N ⟨.destroyed, no_parent⟩ key := by
    refine fun no_parent key => ⟨fun _ value uri node_uri children hroot => ?_, ?_⟩
    · have hdestroyed : Parent.root = .destroyed := hroot.symm.trans (keywordNode_parent ..)
      cases hdestroyed
    · exact fun _ uri table children st st' _ hroot => absurd hroot (by simp)
  have hrule : NodeRule N := ⟨fun uri value children hroot => absurd hroot (by simp), hnested⟩
  have hall := all_of_compile hrule hc fun members hschema m hm => ⟨fun _ value uri node_uri children _ =>
    ⟨members, hschema, m, hm, (keywordNode_keyword ..).symm⟩, fun _ uri table children st st' _ _ =>
    ⟨members, hschema, m, hm, rfl⟩⟩
  have htree := mem_preorder_of_mem_nodes hc h
  obtain ⟨r, -, hc⟩ := bind_eq_ok.mp hc
  obtain rfl := Except.ok.inj hc
  rcases List.mem_cons.mp htree with rfl | htree
  · exact absurd hparent (by simp)
  · exact hall node htree hparent

end Siesta.JsonSchema
