import Siesta.IR.DependencyGraph
import Siesta.Lib.Precedence
import Mathlib.Algebra.BigOperators.Group.List.Basic

/-!
# Kahn's algorithm: `DependencyGraph::topologicalSort`

The invariant of the loop (`KahnInv`): the nodes popped so far stand in an order that respects the
edges, `in_degree` counts the edges to nodes not popped yet, with their multiplicity, and a node has
been queued exactly when all nodes it depends on have been popped.

The loop pops every node at most once, so the number of nodes bounds it (`kahnLoop_spec`).
-/

namespace Siesta

open Lib

structure KahnState where
  in_degree : Table Str ℤ
  queue : List Str
  result : List Str

namespace DependencyGraph

variable (g : DependencyGraph)

/-! ### The algorithm -/

/-- `reverse_adj`: for each target the sources of its edges. -/
def reverseAdj (ho : HashOrders) : Table Str (List Str) :=
  (ho.iter .reverseAdjacency g.adjacency_.entries).foldl
    (fun rev e => e.2.foldl (fun rev to_ => rev.pushBack to_ e.1) rev) ∅

/-- `in_degree`: for each node the number of its edges. -/
def inDegree (ho : HashOrders) : Table Str ℤ :=
  let zero := (ho.iter .initInDegree g.adjacency_.entries).foldl (fun deg e => deg.set e.1 0) ∅
  (ho.iter .countInDegree g.adjacency_.entries).foldl
    (fun deg e => deg.set e.1 (deg.getD e.1 0 + e.2.length)) zero

/-- The body of the loop over the dependents of a popped node. -/
def relax (st : KahnState) (dependent : Str) : KahnState :=
  let degree := st.in_degree.getD dependent 0 - 1
  { st with
    in_degree := st.in_degree.set dependent degree
    queue := if degree = 0 then st.queue ++ [dependent] else st.queue }

def popNode (rev : Table Str (List Str)) (st : KahnState) (current : Str) (queue : List Str) :
    KahnState :=
  (rev.getD current []).foldl relax { st with queue := queue, result := st.result ++ [current] }

/-- `while (!queue.empty())`, for a bounded number of turns. -/
def kahnLoop (rev : Table Str (List Str)) : ℕ → KahnState → Option (List Str)
  | 0, st => if st.queue.isEmpty then some st.result else none
  | fuel + 1, st =>
    match st.queue with
    | [] => some st.result
    | current :: queue => kahnLoop rev fuel (popNode rev st current queue)

/-- `topologicalSort`. -/
def topologicalSort (ho : HashOrders) : Option (List Str) := do
  let in_degree := g.inDegree ho
  let ready := ((ho.iter .readyNodes in_degree.entries).filter fun e => e.2 = 0).map Sigma.fst
  let result ← kahnLoop (g.reverseAdj ho) g.adjacency_.entries.length ⟨in_degree, ready, []⟩
  some (if result.length ≠ g.adjacency_.entries.length then [] else result)

/-! ### The tables the loop starts from -/

theorem count_reverseAdj (ho : HashOrders) (s t : Str) :
    ((g.reverseAdj ho).getD t []).count s = (g.adjacency_.getD s []).count t := by
  have hinner : ∀ (l : List Str) (a : Str) (rev : Table Str (List Str)),
      ((l.foldl (fun rev to_ => rev.pushBack to_ a) rev).getD t []).count s =
        (rev.getD t []).count s + if a = s then l.count t else 0 := by
    intro l a
    induction l with
    | nil => simp
    | cons b l ih =>
      intro rev
      rw [List.foldl_cons, ih, Table.getD_pushBack]
      by_cases hb : t = b <;> by_cases ha : a = s
      · subst hb ha; simp; omega
      · subst hb; simp [ha]
      · simp [hb, Ne.symm hb, ha]
      · simp [hb, ha]
  have houter : ∀ (es : List (Sigma fun _ : Str => List Str)) (rev : Table Str (List Str)),
      ((es.foldl (fun rev e => e.2.foldl (fun rev to_ => rev.pushBack to_ e.1) rev) rev).getD t
          []).count s =
        (rev.getD t []).count s + (es.map fun e => if e.1 = s then e.2.count t else 0).sum := by
    intro es
    induction es with
    | nil => simp
    | cons e es ih => intro rev; rw [List.foldl_cons, ih, hinner]; simp; omega
  have hsum := ((ho.perm .reverseAdjacency g.adjacency_.entries).map
    fun e => if e.1 = s then e.2.count t else 0).sum_eq
  unfold reverseAdj
  rw [houter, hsum, Table.sum_entries g.adjacency_ (List.count t) s, Table.getD_empty,
    List.count_nil, Nat.zero_add, Table.getD]
  cases g.adjacency_.find s <;> simp

theorem getD_inDegree (ho : HashOrders) (v : Str) :
    (g.inDegree ho).getD v 0 = (g.adjacency_.getD v []).length := by
  have hzero : ∀ (es : List (Sigma fun _ : Str => List Str)) (deg : Table Str ℤ),
      deg.getD v 0 = 0 → (es.foldl (fun deg e => deg.set e.1 0) deg).getD v 0 = 0 := by
    intro es
    induction es with
    | nil => exact fun _ h => h
    | cons e es ih =>
      intro deg h
      refine ih _ ?_
      rw [Table.getD_set, h, ite_self]
  have hcount : ∀ (es : List (Sigma fun _ : Str => List Str)) (deg : Table Str ℤ),
      (es.foldl (fun deg e => deg.set e.1 (deg.getD e.1 0 + e.2.length)) deg).getD v 0 =
        deg.getD v 0 + ((es.map fun e => if e.1 = v then e.2.length else 0).sum : ℕ) := by
    intro es
    induction es with
    | nil => simp
    | cons e es ih =>
      intro deg
      rw [List.foldl_cons, ih, Table.getD_set]
      by_cases h : e.1 = v
      · simp [h]; omega
      · simp [h, Ne.symm h]
  have hsum := ((ho.perm .countInDegree g.adjacency_.entries).map
    fun e => if e.1 = v then e.2.length else 0).sum_eq
  simp only [inDegree]
  rw [hcount, hzero _ _ (Table.getD_empty v 0), hsum, Table.sum_entries g.adjacency_ List.length v,
    Table.getD]
  cases g.adjacency_.find v <;> simp

theorem mem_inDegree (ho : HashOrders) (v : Str) : v ∈ g.inDegree ho ↔ v ∈ g.adjacency_ := by
  have hzero : ∀ (es : List (Sigma fun _ : Str => List Str)) (deg : Table Str ℤ),
      v ∈ es.foldl (fun deg e => deg.set e.1 0) deg ↔ v ∈ deg ∨ v ∈ es.map Sigma.fst := by
    intro es
    induction es with
    | nil => simp
    | cons e es ih => intro deg; rw [List.foldl_cons, ih]; simp; tauto
  have hcount : ∀ (es : List (Sigma fun _ : Str => List Str)) (deg : Table Str ℤ),
      v ∈ es.foldl (fun deg e => deg.set e.1 (deg.getD e.1 0 + e.2.length)) deg ↔
        v ∈ deg ∨ v ∈ es.map Sigma.fst := by
    intro es
    induction es with
    | nil => simp
    | cons e es ih => intro deg; rw [List.foldl_cons, ih]; simp; tauto
  have hmem : ∀ i, v ∈ (ho.iter i g.adjacency_.entries).map Sigma.fst ↔ v ∈ g.adjacency_ := fun i =>
    ((ho.perm i g.adjacency_.entries).map Sigma.fst).mem_iff.trans AList.mem_keys
  simp only [inDegree]
  rw [hcount, hzero, hmem, hmem]
  simp

/-! ### One turn of the loop -/

/-- What the loop over the dependents `l` of a node does: each dependent loses its multiplicity in
`l`, and is queued once if that brings its degree from above to zero. -/
theorem foldl_relax : ∀ (l : List Str) (st : KahnState),
    (l.foldl relax st).result = st.result ∧
    (∀ d, (l.foldl relax st).in_degree.getD d 0 = st.in_degree.getD d 0 - l.count d) ∧
    ∃ pushed, (l.foldl relax st).queue = st.queue ++ pushed ∧ pushed.Nodup ∧
      ∀ d, d ∈ pushed ↔ 0 < st.in_degree.getD d 0 ∧ st.in_degree.getD d 0 ≤ l.count d := by
  intro l
  induction l with
  | nil =>
    intro st
    refine ⟨rfl, by simp, [], by simp, List.nodup_nil, fun d => ?_⟩
    simp only [List.not_mem_nil, List.count_nil, false_iff]
    omega
  | cons a l ih =>
    intro st
    obtain ⟨hres, hdeg, pushed, hq, hnd, hmem⟩ := ih (relax st a)
    have hget : ∀ d, (relax st a).in_degree.getD d 0 =
        if d = a then st.in_degree.getD a 0 - 1 else st.in_degree.getD d 0 := fun d =>
      Table.getD_set _ _ _ _ _
    have hcount : ∀ d, ((a :: l).count d : ℤ) = l.count d + if d = a then 1 else 0 := by
      intro d
      by_cases h : d = a
      · subst h; simp
      · simp [h, Ne.symm h]
    refine ⟨hres, fun d => ?_, ?_⟩
    · rw [List.foldl_cons, hdeg, hget, hcount]
      split
      · rename_i h; subst h; omega
      · omega
    · by_cases hzero : st.in_degree.getD a 0 - 1 = 0
      · -- the last edge to `a`: it is queued now, and the rest of `l` does not queue it again
        have ha : a ∉ pushed := by
          rw [hmem, hget, if_pos rfl]
          omega
        refine ⟨a :: pushed, ?_, List.nodup_cons.mpr ⟨ha, hnd⟩, fun d => ?_⟩
        · rw [List.foldl_cons, hq]
          simp [relax, hzero]
        · rw [List.mem_cons, hmem, hget, hcount]
          by_cases h : d = a
          · subst h; simp only [true_or, true_iff, if_true]; omega
          · simp only [h, false_or, if_false]; omega
      · refine ⟨pushed, ?_, hnd, fun d => ?_⟩
        · rw [List.foldl_cons, hq]
          simp [relax, hzero]
        · rw [hmem, hget, hcount]
          by_cases h : d = a
          · subst h; simp only [if_true]; omega
          · simp only [h, if_false]; omega

/-- The invariant of `while (!queue.empty())`. -/
structure KahnInv (st : KahnState) : Prop where
  /-- No node is queued twice. -/
  nodup : (st.result ++ st.queue).Nodup
  /-- The degree of a node counts its edges to nodes that have not been popped. -/
  degree : ∀ v, st.in_degree.getD v 0 =
    (((g.adjacency_.getD v []).filter (· ∉ st.result)).length : ℤ)
  /-- A node has been queued exactly when all it depends on has been popped. -/
  queued : ∀ v, v ∈ st.result ++ st.queue ↔
    v ∈ g.adjacency_ ∧ ∀ w, g.DependsOn v w → w ∈ st.result
  /-- The popped nodes respect the edges. -/
  order : DepsFirst g.DependsOn st.result

variable {g}

theorem KahnInv.degree_eq_zero {st : KahnState} (h : g.KahnInv st) (v : Str) :
    st.in_degree.getD v 0 = 0 ↔ ∀ w, g.DependsOn v w → w ∈ st.result := by
  rw [h.degree, Int.natCast_eq_zero, List.length_eq_zero_iff, List.filter_eq_nil_iff]
  simp [DependsOn]

theorem KahnInv.pop {ho : HashOrders} {st : KahnState} {current : Str} {queue : List Str}
    (h : g.KahnInv st) (hq : st.queue = current :: queue) :
    g.KahnInv (popNode (g.reverseAdj ho) st current queue) := by
  obtain ⟨hres, hdeg, pushed, hqueue, hpnd, hpush⟩ :=
    foldl_relax ((g.reverseAdj ho).getD current [])
      { st with queue := queue, result := st.result ++ [current] }
  have hnd : (st.result ++ current :: queue).Nodup := hq ▸ h.nodup
  have hcur : current ∉ st.result := fun hm =>
    (List.nodup_append.mp hnd).2.2 current hm current (List.mem_cons_self ..) rfl
  have hdeps : ∀ w, g.DependsOn current w → w ∈ st.result :=
    ((h.queued current).mp (hq ▸ by simp)).2
  -- popping `current` takes its edges off the degree of every node
  have hfilter : ∀ l : List Str, ((l.filter (· ∉ st.result)).length : ℤ) - l.count current =
      (l.filter (· ∉ st.result ++ [current])).length := by
    intro l
    induction l with
    | nil => simp
    | cons a l ih =>
      by_cases ha : a = current
      · subst ha; simp [hcur] at ih ⊢; omega
      · by_cases hr : a ∈ st.result
        · simp [ha, hr] at ih ⊢; omega
        · simp [ha, hr] at ih ⊢; omega
  have hdeg' : ∀ v, (popNode (g.reverseAdj ho) st current queue).in_degree.getD v 0 =
      (((g.adjacency_.getD v []).filter (· ∉ st.result ++ [current])).length : ℤ) := by
    intro v
    have := hdeg v
    simp only [count_reverseAdj] at this
    rw [← hfilter, ← h.degree]
    exact this
  have hresult : (popNode (g.reverseAdj ho) st current queue).result = st.result ++ [current] := hres
  have hqueue' : (popNode (g.reverseAdj ho) st current queue).queue = queue ++ pushed := hqueue
  -- the nodes queued in this turn are those that waited for `current` only
  have hpushed : ∀ v, v ∈ pushed ↔ (¬ ∀ w, g.DependsOn v w → w ∈ st.result) ∧
      ∀ w, g.DependsOn v w → w ∈ st.result ++ [current] := by
    intro v
    have hv := h.degree v
    have hv' := hdeg' v
    have hd := hdeg v
    have hzero : (∀ w, g.DependsOn v w → w ∈ st.result ++ [current]) ↔
        (((g.adjacency_.getD v []).filter (· ∉ st.result ++ [current])).length : ℤ) = 0 := by
      rw [Int.natCast_eq_zero, List.length_eq_zero_iff, List.filter_eq_nil_iff]
      simp only [DependsOn, List.mem_append, List.mem_singleton, decide_eq_true_eq, not_not]
    have hle : (((g.reverseAdj ho).getD current []).count v : ℤ) ≤ st.in_degree.getD v 0 := by
      have hnonneg : 0 ≤ (popNode (g.reverseAdj ho) st current queue).in_degree.getD v 0 :=
        hv' ▸ Int.natCast_nonneg _
      rw [show (popNode _ _ _ _).in_degree.getD v 0 = _ from hd] at hnonneg
      dsimp only at hnonneg
      omega
    rw [hpush, ← h.degree_eq_zero, hzero, ← hv', show (popNode _ _ _ _).in_degree.getD v 0 = _ from hd]
    dsimp only
    omega
  have hsplit : ∀ v, v ∈ (st.result ++ [current]) ++ (queue ++ pushed) ↔
      v ∈ st.result ++ st.queue ∨ v ∈ pushed := by
    intro v
    rw [hq]
    simp only [List.mem_append, List.mem_cons, List.not_mem_nil, or_false]
    tauto
  refine ⟨?_, ?_, ?_, ?_⟩
  · rw [hresult, hqueue']
    have hassoc : (st.result ++ [current]) ++ (queue ++ pushed) =
        (st.result ++ current :: queue) ++ pushed := by simp
    rw [hassoc]
    refine List.nodup_append.mpr ⟨hnd, hpnd, ?_⟩
    rintro v hv _ hp rfl
    exact ((hpushed v).mp hp).1 ((h.queued v).mp (hq ▸ hv)).2
  · rw [hresult]; exact hdeg'
  · intro v
    rw [hresult, hqueue', hsplit, h.queued, hpushed]
    constructor
    · rintro (⟨hv, hall⟩ | ⟨hnot, hall⟩)
      · exact ⟨hv, fun w hw => List.mem_append_left _ (hall w hw)⟩
      · obtain ⟨w, hw, -⟩ := not_forall₂.mp hnot
        exact ⟨hw.mem_left, hall⟩
    · rintro ⟨hv, hall⟩
      by_cases hold : ∀ w, g.DependsOn v w → w ∈ st.result
      · exact .inl ⟨hv, hold⟩
      · exact .inr ⟨hold, hall⟩
  · rw [hresult]
    exact h.order.snoc hdeps

theorem kahnInv_init (ho : HashOrders) :
    g.KahnInv ⟨g.inDegree ho,
      ((ho.iter .readyNodes (g.inDegree ho).entries).filter fun e => e.2 = 0).map Sigma.fst, []⟩ := by
  have hdeg := g.getD_inDegree ho
  refine ⟨?_, fun v => by simpa using hdeg v, fun v => ?_, DepsFirst.nil⟩
  · rw [List.nil_append]
    have hall : ((ho.iter .readyNodes (g.inDegree ho).entries).map Sigma.fst).Nodup :=
      ((ho.perm .readyNodes _).map Sigma.fst).nodup_iff.mpr (g.inDegree ho).keys_nodup
    exact hall.sublist (List.filter_sublist.map Sigma.fst)
  · simp only [List.nil_append, List.not_mem_nil, imp_false]
    have hdep : (∀ w, ¬ g.DependsOn v w) ↔ (g.inDegree ho).getD v 0 = 0 := by
      rw [hdeg, Int.natCast_eq_zero, List.length_eq_zero_iff, List.eq_nil_iff_forall_not_mem]
      rfl
    rw [hdep, ← g.mem_inDegree ho]
    constructor
    · intro hm
      obtain ⟨⟨n, d⟩, he, rfl⟩ := List.mem_map.mp hm
      obtain ⟨he, hd⟩ := List.mem_filter.mp he
      have hf := Table.find_eq_some.mpr ((ho.mem_iter _).mp he)
      exact ⟨Table.mem_of_find hf, by rw [Table.getD_of_find hf]; simpa using hd⟩
    · rintro ⟨hm, hd⟩
      obtain ⟨d, hf⟩ := Table.mem_iff_find.mp hm
      rw [Table.getD_of_find hf] at hd
      refine List.mem_map.mpr ⟨⟨v, d⟩, List.mem_filter.mpr ⟨?_, by simpa using hd⟩, rfl⟩
      exact (ho.mem_iter _).mpr (Table.find_eq_some.mp hf)

/-! ### The whole run -/

theorem kahnLoop_nil (rev : Table Str (List Str)) (fuel : ℕ) (st : KahnState) (h : st.queue = []) :
    kahnLoop rev fuel st = some st.result := by
  cases fuel <;> simp [kahnLoop, h]

theorem kahnLoop_cons (rev : Table Str (List Str)) (fuel : ℕ) (st : KahnState) {current : Str}
    {queue : List Str} (h : st.queue = current :: queue) :
    kahnLoop rev (fuel + 1) st = kahnLoop rev fuel (popNode rev st current queue) := by
  simp only [kahnLoop, h]

/-- The loop ends within as many turns as there are nodes left to pop, in a state that satisfies the
invariant and has an empty queue. -/
theorem kahnLoop_spec (ho : HashOrders) : ∀ (fuel : ℕ) (st : KahnState), g.KahnInv st →
    g.adjacency_.entries.length ≤ fuel + st.result.length →
    ∃ st', kahnLoop (g.reverseAdj ho) fuel st = some st'.result ∧ g.KahnInv st' ∧ st'.queue = [] := by
  intro fuel
  induction fuel with
  | zero =>
    intro st hinv hlen
    -- all nodes have been popped, so there is none left for the queue
    have hsub : (st.result ++ st.queue).length ≤ g.adjacency_.keys.length :=
      (List.subperm_of_subset hinv.nodup fun v hv =>
        AList.mem_keys.mpr ((hinv.queued v).mp hv).1).length_le
    have hkeys : g.adjacency_.keys.length = g.adjacency_.entries.length := List.length_map _
    have hq : st.queue = [] := by
      rw [List.length_append, hkeys] at hsub
      exact List.length_eq_zero_iff.mp (by omega)
    exact ⟨st, kahnLoop_nil _ _ _ hq, hinv, hq⟩
  | succ fuel ih =>
    intro st hinv hlen
    cases hq : st.queue with
    | nil => exact ⟨st, kahnLoop_nil _ _ _ hq, hinv, hq⟩
    | cons current queue =>
      rw [kahnLoop_cons _ _ _ hq]
      refine ih _ (hinv.pop hq) ?_
      have : (popNode (g.reverseAdj ho) st current queue).result = st.result ++ [current] :=
        (foldl_relax _ _).1
      rw [this, List.length_append, List.length_singleton]
      omega

theorem kahnLoop_ready (ho : HashOrders) :
    ∃ st : KahnState, kahnLoop (g.reverseAdj ho) g.adjacency_.entries.length
        ⟨g.inDegree ho, ((ho.iter .readyNodes (g.inDegree ho).entries).filter
          fun e => e.2 = 0).map Sigma.fst, []⟩ = some st.result ∧
      st.result.Nodup ∧ DepsFirst g.DependsOn st.result ∧
      ∀ v, v ∈ st.result ↔ v ∈ g.adjacency_ ∧ ∀ w, g.DependsOn v w → w ∈ st.result := by
  have hinit := kahnInv_init (g := g) ho
  obtain ⟨st, hrun, hinv, hq⟩ := kahnLoop_spec ho g.adjacency_.entries.length _ hinit (by simp)
  refine ⟨st, hrun, by simpa [hq] using hinv.nodup, hinv.order, fun v => ?_⟩
  have := hinv.queued v
  rwa [hq, List.append_nil] at this

/-- **Kahn's algorithm on a graph without cycles.**  When every node is grounded, `topologicalSort`
returns every node once, each after all nodes it depends on. -/
theorem topologicalSort_spec (ho : HashOrders)
    (hg : ∀ v, v ∈ g.adjacency_ → Grounded g.DependsOn v) :
    ∃ order, g.topologicalSort ho = some order ∧ order.Nodup ∧
      (∀ v, v ∈ order ↔ v ∈ g.adjacency_) ∧ DepsFirst g.DependsOn order := by
  obtain ⟨st, hrun, hnd, hfirst, hqueued⟩ := kahnLoop_ready (g := g) ho
  have hmem : ∀ v, v ∈ st.result ↔ v ∈ g.adjacency_ := by
    intro v
    refine ⟨fun hv => ((hqueued v).mp hv).1, fun hv => ?_⟩
    refine (hg v hv).induction (C := fun v => v ∈ g.adjacency_ → v ∈ st.result) ?_ hv
    intro x ih hx
    exact (hqueued x).mpr ⟨hx, fun w hw => ih w hw hw.mem_right⟩
  have hlen : st.result.length = g.adjacency_.entries.length := by
    have hperm : st.result.Perm g.adjacency_.keys :=
      (List.perm_ext_iff_of_nodup hnd g.adjacency_.keys_nodup).mpr fun v =>
        (hmem v).trans AList.mem_keys.symm
    rw [hperm.length_eq]
    exact List.length_map _
  refine ⟨st.result, ?_, hnd, hmem, hfirst⟩
  unfold topologicalSort
  simp only [hrun, hlen, Option.bind_eq_bind, Option.bind_some, ne_eq, not_true_eq_false, if_false]

/-- **Kahn's algorithm on a graph with a cycle.**  The nodes on a cycle are never dequeued, so
`topologicalSort` returns the empty list. -/
theorem topologicalSort_of_hasCycle (ho : HashOrders) (h : g.HasCycle) :
    g.topologicalSort ho = some [] := by
  obtain ⟨st, hrun, hnd, hfirst, hqueued⟩ := kahnLoop_ready (g := g) ho
  obtain ⟨n, hn⟩ := h
  have hnode : n ∈ g.adjacency_ := by
    obtain ⟨m, hm, -⟩ := Relation.TransGen.head'_iff.mp hn
    exact hm.mem_left
  have hleft : n ∉ st.result := fun hmem => (hfirst.grounded hmem).not_transGen hn
  -- the popped nodes and `n` are different nodes of the graph
  have hlen : (n :: st.result).length ≤ g.adjacency_.keys.length := by
    refine (List.subperm_of_subset (List.nodup_cons.mpr ⟨hleft, hnd⟩) fun v hv => ?_).length_le
    rcases List.mem_cons.mp hv with rfl | hv
    · exact AList.mem_keys.mpr hnode
    · exact AList.mem_keys.mpr ((hqueued v).mp hv).1
  have hkeys : g.adjacency_.keys.length = g.adjacency_.entries.length := List.length_map _
  have hne : st.result.length ≠ g.adjacency_.entries.length := by
    rw [List.length_cons, hkeys] at hlen
    omega
  unfold topologicalSort
  simp only [hrun, Option.bind_eq_bind, Option.bind_some, if_pos hne]

end DependencyGraph

end Siesta
