import Siesta.JsonSchema.Faults

/-!
# How deep `validate_node` calls itself

The calls for one value go along the schema, and the others to values inside it.  Where the former do not
come back to a node, the depth of all calls is at most the number of nodes times the nesting of the instance
(`returns_of_sound`), and a schema without references has no more levels of calls than its tree, whatever
the instance (`returns_without_refs`).
-/

namespace Siesta.JsonSchema

open Lib Relation

/-! ### Nesting and height -/

mutual

/-- How deep arrays and objects are nested in a value. -/
def nesting : Json → ℕ
  | .arr items => itemsNesting items + 1
  | .obj members => membersNesting members + 1
  | _ => 0

def itemsNesting : List Json → ℕ
  | [] => 0
  | x :: items => max (nesting x) (itemsNesting items)

def membersNesting : List (Str × Json) → ℕ
  | [] => 0
  | (_, x) :: members => max (nesting x) (membersNesting members)

end

theorem nesting_le_items {x : Json} {items : List Json} (h : x ∈ items) : nesting x ≤ itemsNesting items := by
  induction items with
  | nil => cases h
  | cons y items ih =>
    rw [itemsNesting]
    rcases List.mem_cons.mp h with rfl | h
    · exact Nat.le_max_left ..
    · exact (ih h).trans (Nat.le_max_right ..)

theorem nesting_le_members {x : Json} {members : List (Str × Json)} (h : x ∈ members.map Prod.snd) :
    nesting x ≤ membersNesting members := by
  induction members with
  | nil => cases h
  | cons member members ih =>
    rw [membersNesting]
    rcases List.mem_cons.mp h with rfl | h
    · exact Nat.le_max_left ..
    · exact (ih h).trans (Nat.le_max_right ..)

theorem nesting_inner {x y : Json} (h : y ∈ inner x) : nesting y < nesting x := by
  cases x with
  | arr items => exact Nat.lt_succ_of_le (nesting_le_items h)
  | obj members => exact Nat.lt_succ_of_le (nesting_le_members h)
  | _ => cases h

mutual

/-- The length of the longest way down from a node. -/
def SchemaNode.height : SchemaNode → ℕ
  | ⟨_, _, _, _, _, _, children, _⟩ => heightUnder children

def heightUnder : List SchemaNode → ℕ
  | [] => 0
  | node :: nodes => max (node.height + 1) (heightUnder nodes)

end

theorem height_lt_under {node : SchemaNode} {nodes : List SchemaNode} (h : node ∈ nodes) :
    node.height < heightUnder nodes := by
  induction nodes with
  | nil => cases h
  | cons other nodes ih =>
    rw [heightUnder]
    rcases List.mem_cons.mp h with rfl | h
    · exact Nat.lt_of_lt_of_le (Nat.lt_succ_self _) (Nat.le_max_left ..)
    · exact (ih h).trans_le (Nat.le_max_right ..)

theorem height_child {node child : SchemaNode} (h : child ∈ node.children) : child.height < node.height := by
  obtain ⟨uri, id, anchor, dynamic_anchor, keyword, value, children, parent⟩ := node
  rw [SchemaNode.height]
  exact height_lt_under h

/-! ### Nodes without faults -/

/-- The node asks for nothing that `validate_node` cannot do. -/
structure Sound (c : SchemaCompiler) (node : SchemaNode) : Prop where
  arrays : node.keyword = .Enum ∨ node.keyword = .Required → node.value.if_array.isSome
  condition : node.keyword = .If → node.parent ≠ .destroyed
  additional : node.keyword = .AdditionalItems → node.parent = .root
  ref : node.keyword = .Ref → node.value.get_string.bind c.find_ref ≠ some .destroyed

section Trees

variable {P : Platform} {schema : Json} {c : SchemaCompiler}

theorem mem_nodes_of_mem_preorder {node : SchemaNode} (h : node ∈ c.root_node_.preorder) : node ∈ c.nodes := by
  unfold SchemaCompiler.nodes
  rw [preorders, List.mem_append]
  exact .inl h

theorem not_faulty_of_sound (hc : compile schema = .ok c)
    (hsound : ∀ node ∈ c.root_node_.preorder, Sound c node) {x : Json} {f : Call} (hf : Possible c x f)
    (a : Abort) : ¬ Faulty c f a := by
  have hall : ∀ node ∈ c.nodes, Sound c node := fun node hnode =>
    hsound node (mem_preorder_of_mem_nodes hc hnode)
  have hnode := hall f.node hf.node
  rintro (⟨hkeyword, hvalue⟩ | ⟨hkeyword, hvalue, -⟩ | ⟨hkeyword, hchild, hsubchild, henum, hvalue, -, -⟩ |
    ⟨hkeyword, -, hparent⟩ | ⟨hkeyword, -, hparent, -⟩ | ⟨hkeyword, hvalue⟩)
  · have harray := hnode.arrays (.inl hkeyword)
    rw [hvalue] at harray
    cases harray
  · have harray := hnode.arrays (.inr hkeyword)
    rw [hvalue] at harray
    cases harray
  · have hmem := SchemaCompiler.child_mem_nodes hf.node (List.mem_of_mem_head? hchild)
    have harray := (hall _ (SchemaCompiler.child_mem_nodes hmem hsubchild)).arrays (.inl henum)
    rw [hvalue] at harray
    cases harray
  · exact hnode.condition hkeyword hparent
  · exact hparent (hnode.additional hkeyword)
  · exact hnode.ref hkeyword hvalue

/-- Where every call is below the one that makes it, `validate` returns, and its calls are no deeper. -/
theorem returns_of_measure (hc : compile schema = .ok c)
    (hsound : ∀ node ∈ c.root_node_.preorder, Sound c node) {x : Json} (measure : Call → ℕ)
    (hover : ∀ f, Possible c x f → (validate_node P c f).Over
      (fun g => Possible c x g ∧ measure g < measure f) ContextNote (ContextGuard f.element))
    {depth : ℕ} (hdepth : measure (rootCall c x) < depth) :
    ∃ verdict, validate P c depth x = .ok verdict := by
  have hyields : ∀ f, Possible c x f → (validate_node P c f).Yields (fun _ => True) fun _ => False :=
    fun f hf => yields_validate_node.mono (fun _ _ => trivial) (not_faulty_of_sound hc hsound hf)
  have hbelow : ∀ f, Possible c x f → (validate_node P c f).Over
      (fun g => Possible c x g ∧ measure g < measure f) (fun _ => True) fun _ => True :=
    fun f hf => (hover f hf).mono (fun _ h => h) (fun _ _ => trivial) fun _ _ => trivial
  obtain ⟨t', hrun⟩ := runCalls_returns measure hbelow hyields depth (rootCall c x) (.inl rfl) hdepth ⟨[], {}⟩
  exact ⟨_, validate_eq_ok.mpr ⟨t', hrun, rfl⟩⟩

/-! ### The bounds -/

/-- **Every instance is validated.**  Where nothing in the schema is at fault, and its nodes do not lead back
to themselves for one value, `validate` returns for every instance, and the depth of its calls is at most
the number of nodes times one more than the nesting of the instance. -/
theorem returns_of_sound (P : Platform) (hc : compile schema = .ok c)
    (hsound : ∀ node ∈ c.root_node_.preorder, Sound c node) (hacyclic : ¬ Circular c) (x : Json) :
    ∃ verdict, validate P c (c.root_node_.preorder.length * (nesting x + 1)) x = .ok verdict := by
  let next (n m : SchemaNode) : Prop := m ∈ c.sameValue n
  let size := c.root_node_.preorder.length
  have hnext : ∀ n ∈ c.root_node_.preorder, ∀ m, next n m → m ∈ c.root_node_.preorder := fun n hn m hm =>
    mem_preorder_of_mem_nodes hc (sameValue_mem_nodes (mem_nodes_of_mem_preorder hn) hm)
  have hno : ∀ n ∈ c.root_node_.preorder, ¬ TransGen next n n := fun n hn hcycle =>
    hacyclic ⟨n, mem_nodes_of_mem_preorder hn, hcycle⟩
  have hrank : ∀ n ∈ c.root_node_.preorder, rank next n < size := fun n hn => rank_lt_length hnext hno hn
  let measure (f : Call) : ℕ := size * nesting f.element + rank next f.node
  have hover : ∀ f, Possible c x f → (validate_node P c f).Over
      (fun g => Possible c x g ∧ measure g < measure f) ContextNote (ContextGuard f.element) := by
    intro f hf
    refine over_validate_node.mono (fun g hg => ⟨hg.possible hf, ?_⟩) (fun _ h => h) fun _ h => h
    have hfnode := mem_preorder_of_mem_nodes hc hf.node
    have hgnode := mem_preorder_of_mem_nodes hc (hg.possible hf).node
    rcases hg.target with ⟨helement, hnode⟩ | ⟨helement, -⟩
    · -- along the schema
      have hlt := rank_lt hnext hno hfnode hnode
      show size * nesting g.element + rank next g.node < size * nesting f.element + rank next f.node
      rw [helement]
      omega
    · -- into the value
      have hle : size * (nesting g.element + 1) ≤ size * nesting f.element :=
        Nat.mul_le_mul_left size (nesting_inner helement)
      have hlt := hrank g.node hgnode
      show size * nesting g.element + rank next g.node < size * nesting f.element + rank next f.node
      rw [Nat.mul_succ] at hle
      omega
  refine returns_of_measure hc hsound measure hover ?_
  have hlt := hrank c.root_node_ (self_mem_preorder _)
  show size * nesting x + rank next c.root_node_ < size * (nesting x + 1)
  rw [Nat.mul_succ]
  omega

theorem not_circular_of_rank (r : SchemaNode → ℕ) (h : ∀ n ∈ c.nodes, ∀ m ∈ c.sameValue n, r m < r n) :
    ¬ Circular c := by
  rintro ⟨n, hn, hcycle⟩
  have hlower : ∀ m, TransGen (fun n m => m ∈ c.sameValue n) n m → m ∈ c.nodes ∧ r m < r n := by
    intro m hm
    induction hm with
    | single hnm => exact ⟨sameValue_mem_nodes hn hnm, h n hn _ hnm⟩
    | tail _ hmk ih => exact ⟨sameValue_mem_nodes ih.1 hmk, (h _ ih.1 _ hmk).trans ih.2⟩
  exact lt_irrefl _ (hlower n hcycle).2

/-- Lists whose rest is a list: a property with a reference to the root. -/
def listSchema : Json :=
  .obj [("properties".toList, .obj [("next".toList, .obj [("$ref".toList, .str "#".toList)])])]

/-- A reference leads to the root, and the root to its members. -/
def listRank (node : SchemaNode) : ℕ :=
  match node.keyword with
  | .Ref => 2
  | .Schema => 1
  | _ => 0

theorem returns_of_sound_list : ∃ c, compile listSchema = .ok c ∧
    ∀ x, ∃ verdict,
      validate wholeNumbers c (c.root_node_.preorder.length * (nesting x + 1)) x = .ok verdict := by
  have hcompile : ∃ c, compile listSchema = .ok c ∧ c.find_ref ['#'] = some (.node c.root_node_) ∧
      (∀ n ∈ c.root_node_.preorder, n.keyword = .Schema ∨ n.keyword = .Properties ∨ n.keyword = .Unknown ∨
        n.keyword = .Ref ∧ n.value.get_string = some ['#']) ∧
      ∀ n ∈ c.nodes, ∀ m ∈ c.sameValue n, listRank m < listRank n :=
    ⟨_, rfl, rfl, by decide +kernel, by decide +kernel⟩
  obtain ⟨c, hc, hfind, hkeywords, hrank⟩ := hcompile
  refine ⟨c, hc, returns_of_sound wholeNumbers hc (fun node hnode => ?_) (not_circular_of_rank listRank hrank)⟩
  rcases hkeywords node hnode with h | h | h | ⟨h, hvalue⟩
  · constructor <;> simp [h]
  · constructor <;> simp [h]
  · constructor <;> simp [h]
  · constructor <;> simp [h, hvalue, hfind]

/-! ### Without references -/

/-- The level of a node: `then` and `else` are called from the node of their `if`, and make no calls. -/
def level (node : SchemaNode) : ℕ := if node.keyword = .Then ∨ node.keyword = .Else then 0 else node.height

theorem level_le_height (node : SchemaNode) : level node ≤ node.height := by
  unfold level
  split
  · exact Nat.zero_le _
  · exact le_rfl

/-- Without a reference to follow, the calls of a node are for nodes of lower levels. -/
theorem level_of_follows {f g : Call}
    (hrefs : f.node.keyword = .Ref → f.node.value.get_string.bind c.find_ref = none)
    (hleaf : f.node.keyword ≠ .Then ∧ f.node.keyword ≠ .Else)
    (hif : f.node.keyword = .If → f.node.children ≠ []) (h : Follows c f g) :
    level g.node < level f.node := by
  have hlevel : level f.node = f.node.height := if_neg (not_or.mpr hleaf)
  have hchild : ∀ n ∈ f.node.children, level n < f.node.height := fun n hn =>
    (level_le_height n).trans_lt (height_child hn)
  have hgrandchild : ∀ n ∈ f.node.children, ∀ m ∈ n.children, level m < f.node.height := fun n hn m hm =>
    (level_le_height m).trans_lt ((height_child hm).trans (height_child hn))
  have hbranch : ∀ kw, kw = .Then ∨ kw = .Else → g.node ∈ lastWith kw c.root_node_.children →
      level g.node = 0 := by
    intro kw hkw hmem
    have hlast : g.node.keyword = kw := by
      simpa using (List.mem_filter.mp (List.mem_of_getLast? hmem)).2
    exact if_pos (by rwa [hlast])
  rw [hlevel]
  rcases h.target with ⟨-, hnode⟩ | ⟨-, hnode | ⟨n, hn, hnode⟩⟩
  · unfold SchemaCompiler.sameValue at hnode
    split at hnode
    · exact hchild _ hnode
    · exact hchild _ hnode
    · exact hchild _ hnode
    · exact hchild _ hnode
    · exact hchild _ (List.mem_of_mem_take hnode)
    · rename_i hkeyword
      obtain ⟨child, rest, hrest⟩ := List.exists_cons_of_ne_nil (hif hkeyword)
      have hmem : child ∈ f.node.children := by
        rw [hrest]
        exact List.mem_cons_self ..
      have hpos : 0 < f.node.height := (Nat.zero_le _).trans_lt (height_child hmem)
      rcases List.mem_append.mp hnode with hnode | hnode
      · exact hchild _ (List.mem_of_mem_take hnode)
      · split at hnode
        · rcases List.mem_append.mp hnode with hnode | hnode
          · rwa [hbranch .Then (.inl rfl) (Option.mem_toList.mp hnode)]
          · rwa [hbranch .Else (.inr rfl) (Option.mem_toList.mp hnode)]
        · cases hnode
    · obtain ⟨n, hn, hnode⟩ := List.mem_flatMap.mp hnode
      exact hgrandchild n hn _ hnode
    · rename_i hkeyword
      rw [hrefs hkeyword] at hnode
      cases hnode
    · cases hnode
  · exact hchild _ hnode
  · exact hgrandchild n hn _ hnode

/-- **Levels of calls.**  Where nothing in the schema is at fault, and no reference finds a node, the calls
of `validate_node` have no more levels than the tree of the schema, whatever the instance. -/
theorem returns_without_refs (P : Platform) (hc : compile schema = .ok c)
    (hsound : ∀ node ∈ c.root_node_.preorder, Sound c node)
    (hrefs : ∀ node ∈ c.root_node_.preorder, node.keyword = .Ref →
      node.value.get_string.bind c.find_ref = none)
    (x : Json) : ∃ verdict, validate P c (c.root_node_.height + 1) x = .ok verdict := by
  refine returns_of_measure hc hsound (fun f => level f.node) (fun f hf => ?_)
    (Nat.lt_succ_of_le (level_le_height _))
  by_cases hbranch : f.node.keyword = .Then ∨ f.node.keyword = .Else
  · -- the default case
    have hdefault : validate_node P c f = validateDefault f.node.value f.schema_location := by
      unfold validate_node
      rcases hbranch with h | h <;> simp only [h]
    rw [hdefault]
    exact over_validateDefault
  by_cases hif : f.node.keyword = .If ∧ f.node.children = []
  · have hdone : validate_node P c f = .done := by
      unfold validate_node
      simp only [hif.1, hif.2]
      rfl
    rw [hdone]
    trivial
  refine over_validate_node.mono (fun g hg => ⟨hg.possible hf, ?_⟩) (fun _ h => h) fun _ h => h
  exact level_of_follows (hrefs f.node (mem_preorder_of_mem_nodes hc hf.node)) (not_or.mp hbranch)
    (fun hkeyword hnil => hif ⟨hkeyword, hnil⟩) hg

/-- An object with a property that is a string. -/
def memberSchema : Json :=
  .obj [("properties".toList, .obj [("name".toList, .obj [("type".toList, .str "string".toList)])])]

theorem returns_without_refs_member : ∃ c, compile memberSchema = .ok c ∧
    ∀ x, ∃ verdict, validate wholeNumbers c (c.root_node_.height + 1) x = .ok verdict := by
  have hcompile : ∃ c, compile memberSchema = .ok c ∧ ∀ n ∈ c.root_node_.preorder,
      n.keyword = .Schema ∨ n.keyword = .Properties ∨ n.keyword = .Unknown ∨ n.keyword = .Type_ :=
    ⟨_, rfl, by decide +kernel⟩
  obtain ⟨c, hc, hkeywords⟩ := hcompile
  refine ⟨c, hc, returns_without_refs wholeNumbers hc (fun node hnode => ?_) fun node hnode href => ?_⟩
  · rcases hkeywords node hnode with h | h | h | h <;> constructor <;> simp [h]
  · rcases hkeywords node hnode with h | h | h | h <;> simp [h] at href

end Trees

end Siesta.JsonSchema
