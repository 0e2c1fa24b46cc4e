import Siesta.Frontend.AST
import Mathlib.Logic.Relation

/-!
# The dependency graph: `generator/src/IR/DependencyGraph.hpp`, `DependencyGraph.cpp`

A `DependencyGraph` keeps its edges twice, as the list `dependencies_` and as the adjacency map;
that the two agree is a field of the structure.  `buildFromAST` reads the edges off the texts of the
type references.
-/

namespace Siesta

open Lib

inductive DepKind where
  | Value | Variant | Base | ArrayElem | MapValue
  deriving DecidableEq, Repr

/-- An edge: `from_` depends on `to_`. -/
structure Dependency where
  from_ : TypeRef
  to_ : TypeRef
  kind : DepKind
  deriving DecidableEq, Repr

/-- The names `n` depends on, in the order the edges were added, once for every edge. -/
def targetsOf (deps : List Dependency) (n : Str) : List Str :=
  (deps.filter fun d => d.from_.name = n).map fun d => d.to_.name

theorem mem_targetsOf {deps : List Dependency} {n m : Str} :
    m ∈ targetsOf deps n ↔ ∃ d ∈ deps, d.from_.name = n ∧ d.to_.name = m := by
  simp [targetsOf, and_assoc]

/-- A dependency graph, as `addDependency` calls build it. -/
structure DependencyGraph where
  dependencies_ : List Dependency
  adjacency_ : Table Str (List Str)
  /-- The adjacency list of a node are the targets of its edges. -/
  adjacency_eq : ∀ n, adjacency_.getD n [] = targetsOf dependencies_ n
  /-- The nodes are the ends of the edges. -/
  mem_adjacency : ∀ n, n ∈ adjacency_ ↔ ∃ d ∈ dependencies_, d.from_.name = n ∨ d.to_.name = n

namespace DependencyGraph

def empty : DependencyGraph where
  dependencies_ := []
  adjacency_ := ∅
  adjacency_eq n := by simp [targetsOf]
  mem_adjacency n := by simp

/-- `addDependency`: the target becomes a node even if it has no edges of its own. -/
def addDependency (g : DependencyGraph) (from_ to_ : TypeRef) (kind : DepKind) : DependencyGraph where
  dependencies_ := g.dependencies_ ++ [⟨from_, to_, kind⟩]
  adjacency_ :=
    let adj := g.adjacency_.pushBack from_.name to_.name
    if to_.name ∈ adj then adj else adj.set to_.name []
  adjacency_eq n := by
    have hpush : (g.adjacency_.pushBack from_.name to_.name).getD n [] =
        targetsOf (g.dependencies_ ++ [⟨from_, to_, kind⟩]) n := by
      rw [Table.getD_pushBack, g.adjacency_eq, g.adjacency_eq]
      by_cases h : n = from_.name
      · subst h; simp [targetsOf, List.filter_append]
      · simp [targetsOf, List.filter_append, h, Ne.symm h]
    dsimp only
    split
    · exact hpush
    · rename_i hto
      rw [Table.getD_set]
      split
      · rename_i hn
        subst hn
        rw [← hpush, Table.getD_of_notMem hto]
      · exact hpush
  mem_adjacency n := by
    have hpush : n ∈ g.adjacency_.pushBack from_.name to_.name ↔ n = from_.name ∨ n ∈ g.adjacency_ :=
      Table.mem_pushBack
    have hnew : (∃ d ∈ g.dependencies_ ++ [⟨from_, to_, kind⟩], d.from_.name = n ∨ d.to_.name = n) ↔
        n = to_.name ∨ n = from_.name ∨ n ∈ g.adjacency_ := by
      rw [g.mem_adjacency]
      simp only [List.mem_append, List.mem_singleton, or_and_right, exists_or, exists_eq_left]
      grind
    dsimp only
    rw [hnew]
    split
    · rename_i hto
      rw [hpush]
      exact ⟨.inr, fun h => h.elim (fun he => Table.mem_pushBack.mp (he ▸ hto)) id⟩
    · rw [Table.mem_set, hpush]

/-- `t` has an edge to `u`. -/
def DependsOn (g : DependencyGraph) (t u : Str) : Prop := u ∈ g.adjacency_.getD t []

theorem dependsOn_iff {g : DependencyGraph} {t u : Str} :
    g.DependsOn t u ↔ ∃ d ∈ g.dependencies_, d.from_.name = t ∧ d.to_.name = u := by
  rw [DependsOn, g.adjacency_eq, mem_targetsOf]

theorem DependsOn.mem_left {g : DependencyGraph} {t u : Str} (h : g.DependsOn t u) :
    t ∈ g.adjacency_ := by
  obtain ⟨d, hd, ht, -⟩ := dependsOn_iff.mp h
  exact (g.mem_adjacency t).mpr ⟨d, hd, .inl ht⟩

theorem DependsOn.mem_right {g : DependencyGraph} {t u : Str} (h : g.DependsOn t u) :
    u ∈ g.adjacency_ := by
  obtain ⟨d, hd, -, hu⟩ := dependsOn_iff.mp h
  exact (g.mem_adjacency u).mpr ⟨d, hd, .inr hu⟩

/-- Some node depends on itself, directly or through other nodes. -/
def HasCycle (g : DependencyGraph) : Prop := ∃ n, Relation.TransGen g.DependsOn n n

/-! ### The edges of a type -/

def fieldDependency (type : TypeRef) : Option (TypeRef × DepKind) :=
  if !isSyntheticCppType type.name then some (type, .Value)
  else if vectorPrefix.isPrefixOf type.name then
    let elem_type := elementText type.name
    if !isSyntheticCppType elem_type then some (⟨elem_type, false⟩, .ArrayElem) else none
  else if mapPrefix.isPrefixOf type.name then
    let value_type := valueText type.name
    if !isSyntheticCppType value_type then some (⟨value_type, false⟩, .MapValue) else none
  else none

def alternativeDependency (alt : TypeRef) : Option (TypeRef × DepKind) :=
  if isSyntheticCppType alt.name then
    let dep_type :=
      if vectorPrefix.isPrefixOf alt.name then elementText alt.name
      else if mapPrefix.isPrefixOf alt.name then valueText alt.name
      else []
    if !dep_type.isEmpty && !isSyntheticCppType dep_type then some (⟨dep_type, false⟩, .Variant)
    else none
  else some (alt, .Variant)

/-- The edge of a reference whose text is taken as it is. -/
def plainDependency (kind : DepKind) (ref : TypeRef) : Option (TypeRef × DepKind) :=
  if !isSyntheticCppType ref.name then some (ref, kind) else none

/-- The edges of a type, in the order `buildDependencies` adds them. -/
def dependenciesOf : SchemaType → List (TypeRef × DepKind)
  | .struct t =>
    t.fields.filterMap (fun field => fieldDependency field.type) ++
      t.allOf_bases.filterMap (plainDependency .Base)
  | .variant t => t.alternatives.filterMap alternativeDependency
  | .array t => [t.element_type].filterMap (plainDependency .ArrayElem)
  | .map t => [t.value_type].filterMap (plainDependency .MapValue)
  | .enum _ => []
  | .primitive _ => []

/-- `buildDependencies`. -/
def buildDependencies (graph : DependencyGraph) (name : Str) (type : SchemaType) : DependencyGraph :=
  (dependenciesOf type).foldl (fun graph e => graph.addDependency ⟨name, false⟩ e.1 e.2) graph

/-- `buildFromAST`. -/
def buildFromAST (ho : HashOrders) (ast : NormalizedAST) : DependencyGraph :=
  (ast.getTypes ho .buildFromAST).foldl (fun graph e => graph.buildDependencies e.1 e.2) empty

theorem foldl_addDependency (name : TypeRef) (es : List (TypeRef × DepKind)) (g : DependencyGraph) :
    (es.foldl (fun graph e => graph.addDependency name e.1 e.2) g).dependencies_ =
      g.dependencies_ ++ es.map fun e => ⟨name, e.1, e.2⟩ := by
  induction es generalizing g with
  | nil => simp
  | cons e es ih => rw [List.foldl_cons, ih]; simp [addDependency]

/-- The edges of the graph are those of the types of the AST. -/
theorem mem_dependencies_buildFromAST {ho : HashOrders} {ast : NormalizedAST} {d : Dependency} :
    d ∈ (buildFromAST ho ast).dependencies_ ↔
      ∃ name type, ast.getType name = some type ∧
        ∃ e ∈ dependenciesOf type, d = ⟨⟨name, false⟩, e.1, e.2⟩ := by
  have hfold : ∀ (l : List (Str × SchemaType)) (g : DependencyGraph),
      (l.foldl (fun graph e => graph.buildDependencies e.1 e.2) g).dependencies_ =
        g.dependencies_ ++ l.flatMap fun p =>
          (dependenciesOf p.2).map fun e => ⟨⟨p.1, false⟩, e.1, e.2⟩ := by
    intro l
    induction l with
    | nil => simp
    | cons p l ih =>
      intro g
      rw [List.foldl_cons, ih, buildDependencies, foldl_addDependency]
      simp
  unfold buildFromAST
  rw [hfold]
  simp only [empty, List.nil_append, List.mem_flatMap, List.mem_map, Prod.exists,
    NormalizedAST.mem_getTypes]
  constructor
  · rintro ⟨name, type, ht, ref, kind, he, rfl⟩
    exact ⟨name, type, ht, ref, kind, he, rfl⟩
  · rintro ⟨name, type, ht, ref, kind, he, rfl⟩
    exact ⟨name, type, ht, ref, kind, he, rfl⟩

/-- An edge of `buildFromAST` starts at a type of the AST. -/
theorem mem_ast_of_dependsOn {ho : HashOrders} {ast : NormalizedAST} {t u : Str}
    (h : (buildFromAST ho ast).DependsOn t u) : t ∈ ast := by
  obtain ⟨d, hd, rfl, -⟩ := dependsOn_iff.mp h
  obtain ⟨name, type, ht, e, -, rfl⟩ := mem_dependencies_buildFromAST.mp hd
  exact NormalizedAST.mem_of_getType ht

theorem dependsOn_of_mem {ho : HashOrders} {ast : NormalizedAST} {name : Str} {type : SchemaType}
    {e : TypeRef × DepKind} (ht : ast.getType name = some type) (he : e ∈ dependenciesOf type) :
    (buildFromAST ho ast).DependsOn name e.1.name :=
  dependsOn_iff.mpr
    ⟨_, mem_dependencies_buildFromAST.mpr ⟨name, type, ht, e, he, rfl⟩, rfl, rfl⟩

end DependencyGraph

end Siesta
