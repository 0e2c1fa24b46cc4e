import Siesta.IR.CycleDetection
import Siesta.IR.TopologicalSort

/-!
# The order of the definitions: `sortTypes`

`sortTypes` sorts the dependency graph, drops the nodes that are no types of the AST, and appends
the types that have no edges.
-/

namespace Siesta

open Lib

/-! ### The two algorithms on one graph -/

/-- **The two graph algorithms agree.**  When `detectCycles` reports nothing, `topologicalSort`
returns every node once, each after all nodes it depends on; when it reports a cycle,
`topologicalSort` returns the empty list. -/
theorem DependencyGraph.topologicalSort_agrees (g : DependencyGraph) (ho : HashOrders) :
    ∃ cycles order, g.detectCycles ho = some cycles ∧ g.topologicalSort ho = some order ∧
      (cycles = [] → order.Nodup ∧ (∀ v, v ∈ order ↔ v ∈ g.adjacency_) ∧
        DepsFirst g.DependsOn order) ∧
      (cycles ≠ [] → order = []) := by
  obtain ⟨cycles, hcycles⟩ := g.detectCycles_isSome ho
  by_cases hnil : cycles = []
  · subst hnil
    obtain ⟨order, hsort, hspec⟩ :=
      topologicalSort_spec ho fun v hv => g.grounded_of_detectCycles hcycles hv
    exact ⟨[], order, hcycles, hsort, fun _ => hspec, fun hne => absurd rfl hne⟩
  · have hcycle : g.HasCycle := (detectCycles_ne_nil_iff hcycles).mp hnil
    exact ⟨cycles, [], hcycles, topologicalSort_of_hasCycle ho hcycle,
      fun h => absurd h hnil, fun _ => rfl⟩

/-! ### `sortTypes` -/

/-- `TopologicalOrder`. -/
structure TopologicalOrder where
  ordered_types : List Str := []
  has_cycles : Bool := false
  cycles : List (List Str) := []

/-- The second half of `sortTypes`: what is left of the sorted nodes, and what is appended. -/
def completeOrder (ho : HashOrders) (ast : NormalizedAST) (sorted : List Str) : List Str :=
  let filtered := sorted.filter (· ∈ ast)
  if filtered.isEmpty then (ast.getTypes ho .allTypes).map Prod.fst
  else filtered ++ ((ast.getTypes ho .missingTypes).map Prod.fst).filter (· ∉ filtered)

/-- `sortTypes`. -/
def sortTypes (ho : HashOrders) (ast : NormalizedAST) : Option TopologicalOrder := do
  let graph := DependencyGraph.buildFromAST ho ast
  let cycles ← graph.detectCycles ho
  if !cycles.isEmpty then some { has_cycles := true, cycles := cycles }
  else
    let sorted ← graph.topologicalSort ho
    some { ordered_types := completeOrder ho ast sorted }

/-! ### No type is lost or repeated -/

theorem mem_completeOrder {ho : HashOrders} {ast : NormalizedAST} {sorted : List Str} {n : Str} :
    n ∈ completeOrder ho ast sorted ↔ n ∈ ast := by
  unfold completeOrder
  dsimp only
  split
  · exact NormalizedAST.mem_getTypes_fst
  · rw [List.mem_append, List.mem_filter, List.mem_filter, NormalizedAST.mem_getTypes_fst]
    simp only [decide_eq_true_eq, List.mem_filter]
    tauto

theorem nodup_completeOrder {ho : HashOrders} {ast : NormalizedAST} {sorted : List Str}
    (h : sorted.Nodup) : (completeOrder ho ast sorted).Nodup := by
  unfold completeOrder
  dsimp only
  split
  · exact NormalizedAST.nodup_getTypes ho .allTypes ast
  · refine List.nodup_append.mpr ⟨h.filter _, (NormalizedAST.nodup_getTypes ..).filter _, ?_⟩
    rintro a ha _ hb rfl
    have := (List.mem_filter.mp hb).2
    simp only [decide_eq_true_eq] at this
    exact this ha

/-- An edge between two types of the AST survives the filter: the list is not empty then, and what
is appended comes last. -/
theorem standsBefore_completeOrder {ho : HashOrders} {ast : NormalizedAST} {sorted : List Str}
    {t u : Str} (h : StandsBefore sorted u t) (hsorted : t ∈ sorted) (ht : t ∈ ast) (hu : u ∈ ast) :
    StandsBefore (completeOrder ho ast sorted) u t := by
  have hfilter : StandsBefore (sorted.filter (· ∈ ast)) u t := h.filter _ (by simpa) (by simpa)
  unfold completeOrder
  dsimp only
  split
  · rename_i hempty
    have hmem : t ∈ sorted.filter (· ∈ ast) := List.mem_filter.mpr ⟨hsorted, by simpa⟩
    rw [List.isEmpty_iff.mp hempty] at hmem
    exact absurd hmem (by simp)
  · exact hfilter.append_right _

/-! ### The order respects the edges -/

/-- **`sortTypes` returns, and what it returns is an order of the definitions.**  When it reports no
cycle, the types of the AST are listed once each, every one after the types its edges go to. -/
theorem sortTypes_order (ho : HashOrders) (ast : NormalizedAST) :
    ∃ order, sortTypes ho ast = some order ∧
      (order.has_cycles = false →
        order.ordered_types.Nodup ∧ (∀ n, n ∈ order.ordered_types ↔ n ∈ ast) ∧
          ∀ t u, (DependencyGraph.buildFromAST ho ast).DependsOn t u → u ∈ ast →
            StandsBefore order.ordered_types u t) := by
  set graph := DependencyGraph.buildFromAST ho ast with hgraph
  obtain ⟨cycles, hcycles⟩ := graph.detectCycles_isSome ho
  unfold sortTypes
  rw [← hgraph]
  simp only [hcycles, Option.bind_eq_bind, Option.bind_some]
  cases cycles with
  | cons c cs => exact ⟨_, rfl, fun h => absurd h (by simp)⟩
  | nil =>
    have hgrounded : ∀ v, v ∈ graph.adjacency_ → Grounded graph.DependsOn v := fun v hv =>
      graph.grounded_of_detectCycles hcycles hv
    obtain ⟨sorted, hsort, hnd, hmem, hfirst⟩ := graph.topologicalSort_spec ho hgrounded
    refine ⟨{ ordered_types := completeOrder ho ast sorted }, by simp [hsort], fun _ => ?_⟩
    refine ⟨nodup_completeOrder hnd, fun n => mem_completeOrder, fun t u hdep hu => ?_⟩
    have ht : t ∈ sorted := (hmem t).mpr hdep.mem_left
    have hast : t ∈ ast := DependencyGraph.mem_ast_of_dependsOn hdep
    exact standsBefore_completeOrder (hfirst.standsBefore ht hdep) ht hast hu

/-- **Dependencies first, for every edge.**  The order holds for each edge `buildFromAST` records
between two types of the AST, of whatever kind and however often it is recorded. -/
theorem sortTypes_respects_dependencies (ho : HashOrders) (ast : NormalizedAST) :
    ∃ order, sortTypes ho ast = some order ∧
      (order.has_cycles = false →
        order.ordered_types.Nodup ∧ (∀ n, n ∈ order.ordered_types ↔ n ∈ ast) ∧
          ∀ d ∈ (DependencyGraph.buildFromAST ho ast).dependencies_,
            d.from_.name ∈ ast → d.to_.name ∈ ast →
              StandsBefore order.ordered_types d.to_.name d.from_.name) := by
  obtain ⟨order, hrun, horder⟩ := sortTypes_order ho ast
  refine ⟨order, hrun, fun hno => ?_⟩
  obtain ⟨hnd, hmem, hdeps⟩ := horder hno
  refine ⟨hnd, hmem, fun d hd _ hto => ?_⟩
  have hdep : (DependencyGraph.buildFromAST ho ast).DependsOn d.from_.name d.to_.name :=
    DependencyGraph.dependsOn_iff.mpr ⟨d, hd, rfl, rfl⟩
  exact hdeps d.from_.name d.to_.name hdep hto

end Siesta
