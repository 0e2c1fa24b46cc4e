import Siesta.IR.DependencyGraph
import Siesta.Lib.Precedence
import Mathlib.Data.Finset.Card

/-!
# Cycle detection: `detectCycles`, `dfsDetectCycle`

A depth-first search with a recursion stack, on an explicit bound of the recursion depth that the
number of nodes always meets (`detectCycles_isSome`).

The invariant of the search is `Finished`: as long as no cycle has been reported, every node that
was visited and has left the recursion stack is grounded.  When the search reports nothing, all
nodes are (`grounded_of_detectCycles`).  The other invariant, `OnPath`, says that the path is the
recursion stack in order; it makes every report a simple cycle (`simpleCycle_of_detectCycles`).
-/

namespace Siesta

open Lib

/-- The arguments `dfsDetectCycle` passes by reference. -/
structure DfsState where
  visited : Finset Str
  rec_stack : Finset Str
  path : List Str
  out_cycles : List (List Str)

namespace DependencyGraph

variable (g : DependencyGraph)

def enter (node : Str) (st : DfsState) : DfsState :=
  { st with
    visited := insert node st.visited, rec_stack := insert node st.rec_stack
    path := st.path ++ [node] }

def leave (node : Str) (st : DfsState) : DfsState :=
  { st with path := st.path.dropLast, rec_stack := st.rec_stack.erase node }

/-- The report of a neighbor that is on the recursion stack: the path from there on, closed. -/
def report (neighbor : Str) (st : DfsState) : DfsState :=
  { st with
    out_cycles := st.out_cycles ++ [st.path.dropWhile (fun n => n ≠ neighbor) ++ [neighbor]] }

/-- The body of the loop over the neighbors of a node, with the recursive call as a parameter. -/
def visitNeighbor (dfs : Str → DfsState → Option DfsState) (st : DfsState) (neighbor : Str) :
    Option DfsState :=
  if neighbor ∉ st.visited then dfs neighbor st
  else if neighbor ∈ st.rec_stack then some (report neighbor st)
  else some st

/-- `dfsDetectCycle`, up to the given depth of recursion. -/
def dfsDetectCycle : ℕ → Str → DfsState → Option DfsState
  | 0, _, _ => none
  | fuel + 1, node, st =>
    ((g.adjacency_.getD node []).foldlM (visitNeighbor (dfsDetectCycle fuel)) (enter node st)).map
      (leave node)

/-- The body of the loop over the nodes: a search starts at each node no earlier search has seen. -/
def visitRoot (st : DfsState) (node : Str) : Option DfsState :=
  if node ∉ st.visited then g.dfsDetectCycle g.adjacency_.entries.length node st else some st

/-- `detectCycles`: the cycles it reports. -/
def detectCycles (ho : HashOrders) : Option (List (List Str)) :=
  (((ho.iter .detectCycles g.adjacency_.entries).map Sigma.fst).foldlM g.visitRoot
      ⟨∅, ∅, [], []⟩).map DfsState.out_cycles

/-! ### The depth of the recursion -/

def nodes : Finset Str := g.adjacency_.keys.toFinset

theorem mem_nodes {n : Str} : n ∈ g.nodes ↔ n ∈ g.adjacency_ := by
  rw [nodes, List.mem_toFinset, AList.mem_keys]

theorem card_nodes : g.nodes.card = g.adjacency_.entries.length := by
  rw [nodes, List.toFinset_card_of_nodup g.adjacency_.keys_nodup]
  exact List.length_map _

def unseen (st : DfsState) : Finset Str := g.nodes \ st.visited

/-- A bound on the depth is kept by a loop that calls itself on unseen nodes only. -/
theorem foldlM_visitNeighbor_isSome {dfs : Str → DfsState → Option DfsState} {n : ℕ}
    (hdfs : ∀ node st, node ∈ g.unseen st → (g.unseen st).card ≤ n →
      ∃ st', dfs node st = some st' ∧ st.visited ⊆ st'.visited) :
    ∀ (l : List Str) (st : DfsState), (∀ m ∈ l, m ∈ g.nodes) → (g.unseen st).card ≤ n →
      ∃ st', l.foldlM (visitNeighbor dfs) st = some st' ∧ st.visited ⊆ st'.visited := by
  intro l
  induction l with
  | nil => exact fun st _ _ => ⟨st, rfl, Finset.Subset.refl _⟩
  | cons m l ih =>
    intro st hl hcard
    have hm : m ∈ g.nodes := hl m (List.mem_cons_self ..)
    obtain ⟨st₁, h₁, hsub⟩ : ∃ st₁, visitNeighbor dfs st m = some st₁ ∧ st.visited ⊆ st₁.visited := by
      unfold visitNeighbor
      split_ifs with hv hr
      · exact ⟨_, rfl, Finset.Subset.refl _⟩
      · exact ⟨_, rfl, Finset.Subset.refl _⟩
      · exact hdfs m st (Finset.mem_sdiff.mpr ⟨hm, hv⟩) hcard
    have hcard₁ : (g.unseen st₁).card ≤ n :=
      le_trans (Finset.card_le_card (Finset.sdiff_subset_sdiff (Finset.Subset.refl _) hsub)) hcard
    obtain ⟨st₂, h₂, hsub₂⟩ := ih st₁ (fun x hx => hl x (List.mem_cons_of_mem _ hx)) hcard₁
    exact ⟨st₂, by rw [List.foldlM_cons, h₁]; exact h₂, hsub.trans hsub₂⟩

/-- The recursion is never deeper than the number of unseen nodes. -/
theorem dfsDetectCycle_isSome : ∀ (n : ℕ) (node : Str) (st : DfsState), node ∈ g.unseen st →
    (g.unseen st).card ≤ n →
    ∃ st', g.dfsDetectCycle n node st = some st' ∧ st.visited ⊆ st'.visited := by
  intro n
  induction n with
  | zero =>
    intro node st hn hcard
    exact absurd (Finset.card_pos.mpr ⟨node, hn⟩) (by omega)
  | succ n ih =>
    intro node st hn hcard
    have hsub : g.unseen (enter node st) ⊆ (g.unseen st).erase node := by
      intro x hx
      obtain ⟨hx₁, hx₂⟩ := Finset.mem_sdiff.mp hx
      have hx₂ : x ≠ node ∧ x ∉ st.visited := by simpa [enter] using hx₂
      exact Finset.mem_erase.mpr ⟨hx₂.1, Finset.mem_sdiff.mpr ⟨hx₁, hx₂.2⟩⟩
    have hcard' : (g.unseen (enter node st)).card ≤ n := by
      have h₁ := Finset.card_le_card hsub
      rw [Finset.card_erase_of_mem hn] at h₁
      omega
    obtain ⟨st', h, hv⟩ := g.foldlM_visitNeighbor_isSome ih (g.adjacency_.getD node [])
      (enter node st) (fun m hm => g.mem_nodes.mpr (DependsOn.mem_right hm)) hcard'
    refine ⟨leave node st', by rw [dfsDetectCycle, h]; rfl, ?_⟩
    exact (Finset.subset_insert node st.visited).trans hv

theorem foldlM_visitRoot_isSome : ∀ (l : List Str) (st : DfsState), (∀ n ∈ l, n ∈ g.nodes) →
    ∃ st', l.foldlM g.visitRoot st = some st' := by
  intro l
  induction l with
  | nil => exact fun st _ => ⟨st, rfl⟩
  | cons n l ih =>
    intro st hl
    obtain ⟨st₁, h₁⟩ : ∃ st₁, g.visitRoot st n = some st₁ := by
      unfold visitRoot
      split_ifs with hv
      · exact ⟨st, rfl⟩
      · have hcard : (g.unseen st).card ≤ g.adjacency_.entries.length :=
          g.card_nodes ▸ Finset.card_le_card Finset.sdiff_subset
        obtain ⟨st₁, h₁, -⟩ := g.dfsDetectCycle_isSome _ n st
          (Finset.mem_sdiff.mpr ⟨hl n (List.mem_cons_self ..), hv⟩) hcard
        exact ⟨st₁, h₁⟩
    obtain ⟨st', h⟩ := ih st₁ fun x hx => hl x (List.mem_cons_of_mem _ hx)
    exact ⟨st', by rw [List.foldlM_cons, h₁]; exact h⟩

theorem mem_roots {ho : HashOrders} {n : Str} :
    n ∈ (ho.iter .detectCycles g.adjacency_.entries).map Sigma.fst ↔ n ∈ g.adjacency_ :=
  ((ho.perm .detectCycles g.adjacency_.entries).map Sigma.fst).mem_iff.trans AList.mem_keys

theorem detectCycles_isSome (ho : HashOrders) : ∃ cycles, g.detectCycles ho = some cycles := by
  obtain ⟨st', h⟩ := g.foldlM_visitRoot_isSome
    ((ho.iter .detectCycles g.adjacency_.entries).map Sigma.fst) ⟨∅, ∅, [], []⟩
    fun n hn => g.mem_nodes.mpr (g.mem_roots.mp hn)
  exact ⟨st'.out_cycles, by unfold detectCycles; rw [h]; rfl⟩

/-! ### Nothing reported, no cycle -/

/-- A visited node that has left the recursion stack is grounded. -/
def Finished (st : DfsState) : Prop :=
  ∀ n ∈ st.visited, n ∉ st.rec_stack → Grounded g.DependsOn n

/-- What a step of the search keeps: the recursion stack, and `Finished` unless it reports. -/
structure Searched (st st' : DfsState) : Prop where
  visited : st.visited ⊆ st'.visited
  rec_stack : st'.rec_stack = st.rec_stack
  /-- A report is never taken back. -/
  silent : st'.out_cycles = [] → st.out_cycles = []
  finished : st'.out_cycles = [] → g.Finished st → g.Finished st'

theorem Searched.refl (st : DfsState) : g.Searched st st := ⟨Finset.Subset.refl _, rfl, id, fun _ => id⟩

theorem Searched.trans {st₁ st₂ st₃ : DfsState} (h₁ : g.Searched st₁ st₂) (h₂ : g.Searched st₂ st₃) :
    g.Searched st₁ st₃ where
  visited := h₁.visited.trans h₂.visited
  rec_stack := h₂.rec_stack.trans h₁.rec_stack
  silent h := h₁.silent (h₂.silent h)
  finished h hf := h₂.finished h (h₁.finished (h₂.silent h) hf)

/-- The claim for a visit: the node is entered for the first time, and finished on return. -/
def VisitSpec (dfs : Str → DfsState → Option DfsState) : Prop :=
  ∀ node st st', dfs node st = some st' → node ∉ st.visited → st.rec_stack ⊆ st.visited →
    g.Searched st st' ∧ (st'.out_cycles = [] → node ∈ st'.visited)

/-- The loop over the neighbors: when it reports nothing, each of them is visited and has left the
recursion stack. -/
theorem foldlM_visitNeighbor {dfs : Str → DfsState → Option DfsState} (hdfs : g.VisitSpec dfs) :
    ∀ (l : List Str) (st st' : DfsState), l.foldlM (visitNeighbor dfs) st = some st' →
      st.rec_stack ⊆ st.visited →
      g.Searched st st' ∧
        (st'.out_cycles = [] → ∀ m ∈ l, m ∈ st'.visited ∧ m ∉ st.rec_stack) := by
  intro l
  induction l with
  | nil =>
    intro st st' h _
    obtain rfl : st = st' := by simpa using h
    exact ⟨.refl g st, by simp⟩
  | cons m l ih =>
    intro st st' h hrec
    rw [List.foldlM_cons] at h
    obtain ⟨st₁, h₁, h⟩ := Option.bind_eq_some_iff.mp h
    obtain ⟨hs₁, hm⟩ : g.Searched st st₁ ∧
        (st₁.out_cycles = [] → m ∈ st₁.visited ∧ m ∉ st.rec_stack) := by
      unfold visitNeighbor at h₁
      split_ifs at h₁ with hv hr
      · -- a neighbor on the stack is reported
        obtain rfl := Option.some.inj h₁
        exact ⟨⟨Finset.Subset.refl _, rfl, by simp [report], by simp [report]⟩, by simp [report]⟩
      · obtain rfl := Option.some.inj h₁
        exact ⟨.refl g st, fun _ => ⟨hv, hr⟩⟩
      · obtain ⟨hs, hmem⟩ := hdfs m st st₁ h₁ hv hrec
        exact ⟨hs, fun hc => ⟨hmem hc, fun hr => hv (hrec hr)⟩⟩
    have hrec₁ : st₁.rec_stack ⊆ st₁.visited := hs₁.rec_stack ▸ hrec.trans hs₁.visited
    obtain ⟨hs₂, hl⟩ := ih st₁ st' h hrec₁
    refine ⟨hs₁.trans g hs₂, fun hc x hx => ?_⟩
    rcases List.mem_cons.mp hx with rfl | hx
    · obtain ⟨hv, hr⟩ := hm (hs₂.silent hc)
      exact ⟨hs₂.visited hv, hr⟩
    · exact hs₁.rec_stack ▸ hl hc x hx

theorem visitSpec_dfsDetectCycle : ∀ n, g.VisitSpec (g.dfsDetectCycle n) := by
  intro n
  induction n with
  | zero => intro node st st' h; simp [dfsDetectCycle] at h
  | succ n ih =>
    intro node st st' h hnew hrec
    rw [dfsDetectCycle] at h
    obtain ⟨st₁, hloop, rfl⟩ := Option.map_eq_some_iff.mp h
    have hrec' : (enter node st).rec_stack ⊆ (enter node st).visited := Finset.insert_subset_insert _ hrec
    obtain ⟨hs, hnb⟩ := g.foldlM_visitNeighbor ih _ _ _ hloop hrec'
    have hnode : node ∈ st₁.visited := hs.visited (Finset.mem_insert_self _ _)
    have hstack : (leave node st₁).rec_stack = st.rec_stack := by
      show st₁.rec_stack.erase node = st.rec_stack
      rw [hs.rec_stack]
      exact Finset.erase_insert fun hr => hnew (hrec hr)
    refine ⟨⟨(Finset.subset_insert _ _).trans hs.visited, hstack, hs.silent, ?_⟩, fun _ => hnode⟩
    intro hc hfin
    -- `Finished` holds after entering the node, since the node itself is on the stack
    have hfin' : g.Finished (enter node st) := by
      intro x hx hxr
      rcases Finset.mem_insert.mp hx with rfl | hx
      · exact absurd (Finset.mem_insert_self _ _) hxr
      · exact hfin x hx fun hr => hxr (Finset.mem_insert_of_mem hr)
    have hfin₁ : g.Finished st₁ := hs.finished hc hfin'
    intro x hx hxr
    by_cases hxn : x = node
    · subst hxn
      refine Grounded.intro fun m hm => ?_
      obtain ⟨hmv, hmr⟩ := hnb hc m hm
      exact hfin₁ m hmv (hs.rec_stack ▸ hmr)
    · refine hfin₁ x hx fun hr => hxr ?_
      exact Finset.mem_erase.mpr ⟨hxn, hr⟩

theorem foldlM_visitRoot : ∀ (l : List Str) (st st' : DfsState), l.foldlM g.visitRoot st = some st' →
    st.rec_stack = ∅ → g.Searched st st' ∧ (st'.out_cycles = [] → ∀ n ∈ l, n ∈ st'.visited) := by
  intro l
  induction l with
  | nil =>
    intro st st' h _
    obtain rfl : st = st' := by simpa using h
    exact ⟨.refl g st, by simp⟩
  | cons n l ih =>
    intro st st' h hempty
    rw [List.foldlM_cons] at h
    obtain ⟨st₁, h₁, h⟩ := Option.bind_eq_some_iff.mp h
    obtain ⟨hs₁, hn⟩ : g.Searched st st₁ ∧ (st₁.out_cycles = [] → n ∈ st₁.visited) := by
      unfold visitRoot at h₁
      split_ifs at h₁ with hv
      · obtain rfl := Option.some.inj h₁
        exact ⟨.refl g st, fun _ => hv⟩
      · exact g.visitSpec_dfsDetectCycle _ n st st₁ h₁ hv (by simp [hempty])
    obtain ⟨hs₂, hl⟩ := ih st₁ st' h (hs₁.rec_stack.trans hempty)
    refine ⟨hs₁.trans g hs₂, fun hc x hx => ?_⟩
    rcases List.mem_cons.mp hx with rfl | hx
    · exact hs₂.visited (hn (hs₂.silent hc))
    · exact hl hc x hx

/-- **Soundness of a negative answer.**  When `detectCycles` reports nothing, every node is
grounded: no chain of dependencies is infinite. -/
theorem grounded_of_detectCycles {ho : HashOrders} (h : g.detectCycles ho = some []) {n : Str}
    (hn : n ∈ g.adjacency_) : Grounded g.DependsOn n := by
  obtain ⟨st', hrun, hc⟩ := Option.map_eq_some_iff.mp h
  obtain ⟨hs, hall⟩ := g.foldlM_visitRoot _ _ _ hrun rfl
  have hmem : n ∈ st'.visited := hall hc n (g.mem_roots.mpr hn)
  have hstack : n ∉ st'.rec_stack := by rw [hs.rec_stack]; exact Finset.notMem_empty n
  exact hs.finished hc (fun x hx => absurd hx (Finset.notMem_empty x)) n hmem hstack

/-! ### Everything reported is a simple cycle -/

/-- The path is the recursion stack in the order of entering, each node a dependency of the one
before it, and the vectors reported so far are simple cycles. -/
structure OnPath (st : DfsState) : Prop where
  nodup : st.path.Nodup
  chain : st.path.IsChain g.DependsOn
  mem_path : ∀ n, n ∈ st.path ↔ n ∈ st.rec_stack
  visited : st.rec_stack ⊆ st.visited
  reported : ∀ c ∈ st.out_cycles, SimpleCycle g.DependsOn c

/-- The end of the path has an edge to `m`. -/
def LeadsTo (st : DfsState) (m : Str) : Prop := ∀ x ∈ st.path.getLast?, g.DependsOn x m

/-- The claim for a visit: the path is the same on return. -/
def PathSpec (dfs : Str → DfsState → Option DfsState) : Prop :=
  ∀ node st st', dfs node st = some st' → node ∉ st.visited → g.OnPath st → g.LeadsTo st node →
    g.OnPath st' ∧ st'.path = st.path

variable {g}

theorem OnPath.enter {st : DfsState} {node : Str} (h : g.OnPath st) (hnew : node ∉ st.visited)
    (hlead : g.LeadsTo st node) : g.OnPath (enter node st) where
  nodup := by
    have hpath : node ∉ st.path := fun hp => hnew (h.visited ((h.mem_path node).mp hp))
    refine List.nodup_append.mpr ⟨h.nodup, List.nodup_singleton node, ?_⟩
    rintro a ha _ hb rfl
    exact hpath (List.mem_singleton.mp hb ▸ ha)
  chain := h.chain.append (List.isChain_singleton node) (by simpa [LeadsTo] using hlead)
  mem_path n := by
    show n ∈ st.path ++ [node] ↔ n ∈ insert node st.rec_stack
    rw [List.mem_append, List.mem_singleton, Finset.mem_insert, h.mem_path, or_comm]
  visited := Finset.insert_subset_insert _ h.visited
  reported := h.reported

theorem OnPath.report {st : DfsState} {m : Str} (h : g.OnPath st) (hm : m ∈ st.rec_stack)
    (hlead : g.LeadsTo st m) : g.OnPath (report m st) where
  nodup := h.nodup
  chain := h.chain
  mem_path := h.mem_path
  visited := h.visited
  reported c hc := by
    rcases List.mem_append.mp hc with hc | hc
    · exact h.reported c hc
    · rw [List.mem_singleton.mp hc]
      exact simpleCycle_of_path h.nodup h.chain ((h.mem_path m).mpr hm) hlead

theorem OnPath.leave {st : DfsState} {node : Str} {path : List Str} (h : g.OnPath st)
    (hpath : st.path = path ++ [node]) :
    g.OnPath (leave node st) ∧ (leave node st).path = path := by
  have hleave : (DependencyGraph.leave node st).path = path := by
    show st.path.dropLast = path
    rw [hpath, List.dropLast_concat]
  have hnd : (path ++ [node]).Nodup := hpath ▸ h.nodup
  have hchain : (path ++ [node]).IsChain g.DependsOn := hpath ▸ h.chain
  have hmem : ∀ n, n ∈ path ++ [node] ↔ n ∈ st.rec_stack := hpath ▸ h.mem_path
  have hnode : node ∉ path := fun hp => (List.nodup_append.mp hnd).2.2 node hp node (by simp) rfl
  refine ⟨⟨?_, ?_, fun n => ?_, (Finset.erase_subset _ _).trans h.visited, h.reported⟩, hleave⟩
  · rw [hleave]; exact (List.nodup_append.mp hnd).1
  · rw [hleave]; exact hchain.left_of_append
  · rw [hleave]
    show n ∈ path ↔ n ∈ st.rec_stack.erase node
    rw [Finset.mem_erase, ← hmem, List.mem_append, List.mem_singleton]
    constructor
    · exact fun hn => ⟨fun he => hnode (he ▸ hn), .inl hn⟩
    · rintro ⟨hne, hn | hn⟩
      · exact hn
      · exact absurd hn hne

/-- The loop over the neighbors keeps the path, whose end is the node they belong to. -/
theorem foldlM_visitNeighbor_path {dfs : Str → DfsState → Option DfsState} (hdfs : g.PathSpec dfs) :
    ∀ (l : List Str) (st st' : DfsState), l.foldlM (visitNeighbor dfs) st = some st' →
      g.OnPath st → (∀ m ∈ l, g.LeadsTo st m) → g.OnPath st' ∧ st'.path = st.path := by
  intro l
  induction l with
  | nil =>
    intro st st' h hpath _
    obtain rfl : st = st' := by simpa using h
    exact ⟨hpath, rfl⟩
  | cons m l ih =>
    intro st st' h hpath hlead
    rw [List.foldlM_cons] at h
    obtain ⟨st₁, h₁, h⟩ := Option.bind_eq_some_iff.mp h
    have hm : g.LeadsTo st m := hlead m (List.mem_cons_self ..)
    obtain ⟨hpath₁, heq₁⟩ : g.OnPath st₁ ∧ st₁.path = st.path := by
      unfold visitNeighbor at h₁
      split_ifs at h₁ with hv hr
      · obtain rfl := Option.some.inj h₁
        exact ⟨hpath.report hr hm, rfl⟩
      · obtain rfl := Option.some.inj h₁
        exact ⟨hpath, rfl⟩
      · exact hdfs m st st₁ h₁ hv hpath hm
    have hlead₁ : ∀ x ∈ l, g.LeadsTo st₁ x := by
      intro x hx
      rw [LeadsTo, heq₁]
      exact hlead x (List.mem_cons_of_mem _ hx)
    obtain ⟨hpath₂, heq₂⟩ := ih st₁ st' h hpath₁ hlead₁
    exact ⟨hpath₂, heq₂.trans heq₁⟩

theorem pathSpec_dfsDetectCycle : ∀ n, g.PathSpec (g.dfsDetectCycle n) := by
  intro n
  induction n with
  | zero => intro node st st' h; simp [dfsDetectCycle] at h
  | succ n ih =>
    intro node st st' h hnew hpath hlead
    rw [dfsDetectCycle] at h
    obtain ⟨st₁, hloop, rfl⟩ := Option.map_eq_some_iff.mp h
    have hneighbors : ∀ m ∈ g.adjacency_.getD node [], g.LeadsTo (enter node st) m := by
      intro m hm x hx
      obtain rfl : node = x := by simpa [enter] using hx
      exact hm
    obtain ⟨hpath₁, heq⟩ :=
      foldlM_visitNeighbor_path ih _ _ _ hloop (hpath.enter hnew hlead) hneighbors
    exact hpath₁.leave heq

theorem foldlM_visitRoot_path : ∀ (l : List Str) (st st' : DfsState),
    l.foldlM g.visitRoot st = some st' → g.OnPath st → st.path = [] → g.OnPath st' := by
  intro l
  induction l with
  | nil =>
    intro st st' h hpath _
    obtain rfl : st = st' := by simpa using h
    exact hpath
  | cons n l ih =>
    intro st st' h hpath hempty
    rw [List.foldlM_cons] at h
    obtain ⟨st₁, h₁, h⟩ := Option.bind_eq_some_iff.mp h
    obtain ⟨hpath₁, heq₁⟩ : g.OnPath st₁ ∧ st₁.path = st.path := by
      unfold visitRoot at h₁
      split_ifs at h₁ with hv
      · obtain rfl := Option.some.inj h₁
        exact ⟨hpath, rfl⟩
      · exact pathSpec_dfsDetectCycle _ n st st₁ h₁ hv hpath (by simp [LeadsTo, hempty])
    exact ih st₁ st' h hpath₁ (heq₁.trans hempty)

theorem simpleCycle_of_detectCycles {ho : HashOrders} {cycles : List (List Str)}
    (h : g.detectCycles ho = some cycles) : ∀ c ∈ cycles, SimpleCycle g.DependsOn c := by
  obtain ⟨st', hrun, rfl⟩ := Option.map_eq_some_iff.mp h
  have hinit : g.OnPath ⟨∅, ∅, [], []⟩ :=
    ⟨List.nodup_nil, .nil, by simp, Finset.Subset.refl _, by simp⟩
  exact (foldlM_visitRoot_path _ _ _ hrun hinit rfl).reported

theorem detectCycles_ne_nil_iff {ho : HashOrders} {cycles : List (List Str)}
    (h : g.detectCycles ho = some cycles) : cycles ≠ [] ↔ g.HasCycle := by
  constructor
  · intro hne
    obtain ⟨c, hc⟩ := List.exists_mem_of_ne_nil _ hne
    exact (simpleCycle_of_detectCycles h c hc).transGen
  · rintro ⟨n, hn⟩ rfl
    obtain ⟨m, hm, -⟩ := Relation.TransGen.head'_iff.mp hn
    exact (g.grounded_of_detectCycles h hm.mem_left).not_transGen hn

/-- **`detectCycles` is right.**  It reports something exactly when the graph has a directed cycle,
and everything it reports is a simple cycle of the graph. -/
theorem detectCycles_correct (g : DependencyGraph) (ho : HashOrders) :
    ∃ cycles, g.detectCycles ho = some cycles ∧ (cycles ≠ [] ↔ g.HasCycle) ∧
      ∀ c ∈ cycles, SimpleCycle g.DependsOn c := by
  obtain ⟨cycles, h⟩ := g.detectCycles_isSome ho
  exact ⟨cycles, h, detectCycles_ne_nil_iff h, simpleCycle_of_detectCycles h⟩

end DependencyGraph

end Siesta
