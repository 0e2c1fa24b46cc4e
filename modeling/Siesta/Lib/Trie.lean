import Mathlib.Data.List.Nodup
import Mathlib.Data.List.Forall2

/-!
# Trees of tokens

A tree whose nodes carry a token and maybe a value.  `insert` takes a list of tokens down the tree,
trying the children one after the other, and adds the nodes that are missing.  As long as no two
siblings have the same token (`Distinct`, which `insert` keeps), the tree is a map from token lists to
values (`find_insert`), its nodes are the prefixes of the lists that were inserted (`has_insert`), and
its leaves are the nodes that no other node lies below (`mem_leaves_iff`).
-/

namespace Siesta.Lib

inductive Trie (τ α : Type) where
  | node (key : τ) (value : Option α) (children : List (Trie τ α))

namespace Trie

variable {τ α : Type}

def key : Trie τ α → τ
  | node key _ _ => key

def value : Trie τ α → Option α
  | node _ value _ => value

def children : Trie τ α → List (Trie τ α)
  | node _ _ children => children

@[simp] theorem key_node (k : τ) (v : Option α) (cs : List (Trie τ α)) : (node k v cs).key = k := rfl

@[simp] theorem children_node (k : τ) (v : Option α) (cs : List (Trie τ α)) :
    (node k v cs).children = cs := rfl

/-- A node with neither a value nor children. -/
def leaf (key : τ) : Trie τ α := node key none []

@[simp] theorem key_leaf (k : τ) : (leaf k : Trie τ α).key = k := rfl

/-- Tries a change on one child after the other, until one takes it. -/
def anyOf (f : Trie τ α → Bool × Trie τ α) : List (Trie τ α) → Bool × List (Trie τ α)
  | [] => (false, [])
  | c :: cs =>
    let r := f c
    if r.1 then (true, r.2 :: cs)
    else
      let rs := anyOf f cs
      (rs.1, r.2 :: rs.2)

theorem anyOf_none {f : Trie τ α → Bool × Trie τ α} {cs : List (Trie τ α)}
    (h : ∀ c ∈ cs, f c = (false, c)) : anyOf f cs = (false, cs) := by
  induction cs with
  | nil => rfl
  | cons c cs ih =>
    rw [anyOf, h c (by simp), ih fun x hx => h x (by simp [hx])]
    simp

/-- The first child that takes the change is the one that is changed. -/
theorem anyOf_first {f : Trie τ α → Bool × Trie τ α} {pre post : List (Trie τ α)} {c : Trie τ α}
    (hpre : ∀ x ∈ pre, f x = (false, x)) (hc : (f c).1 = true) :
    anyOf f (pre ++ c :: post) = (true, pre ++ (f c).2 :: post) := by
  induction pre with
  | nil => simp [anyOf, hc]
  | cons x pre ih =>
    rw [List.cons_append, anyOf, hpre x (by simp), ih fun y hy => hpre y (by simp [hy])]
    simp

/-- There is a node at a list of tokens. -/
def Has : List τ → Trie τ α → Prop
  | [], _ => False
  | t :: ts, n => n.key = t ∧ (ts = [] ∨ ∃ c ∈ n.children, Has ts c)

theorem has_cons {t : τ} {ts : List τ} {n : Trie τ α} :
    Has (t :: ts) n ↔ n.key = t ∧ (ts = [] ∨ ∃ c ∈ n.children, Has ts c) := Iff.rfl

theorem has_leaf {qs : List τ} {k : τ} : Has qs (leaf k : Trie τ α) ↔ qs = [k] := by
  cases qs with
  | nil => simp [Has]
  | cons q qs => simp [has_cons, leaf, eq_comm]

/-- No two siblings have the same token. -/
inductive Distinct : Trie τ α → Prop
  | node {k : τ} {v : Option α} {cs : List (Trie τ α)} (siblings : (cs.map key).Nodup)
      (all : ∀ c ∈ cs, Distinct c) : Distinct (node k v cs)

theorem Distinct.keys {n : Trie τ α} (h : Distinct n) : (n.children.map key).Nodup := by
  cases h with
  | node siblings _ => exact siblings

theorem Distinct.child {n : Trie τ α} (h : Distinct n) : ∀ c ∈ n.children, Distinct c := by
  cases h with
  | node _ all => exact all

theorem distinct_of_childless (k : τ) (v : Option α) : Distinct (Trie.node k v []) :=
  .node List.nodup_nil (by simp)

variable [DecidableEq τ]

/-- Sets the value of a list of tokens; nothing happens when the first token is not that of the node. -/
def insert : List τ → Option α → Trie τ α → Bool × Trie τ α
  | [], _, n => (false, n)
  | t :: ts, v, n =>
    if n.key = t then
      match ts with
      | [] => (true, node n.key v n.children)
      | u :: us =>
        let r := anyOf (insert (u :: us) v) n.children
        if r.1 then (true, node n.key n.value r.2)
        else
          let new := insert (u :: us) v (leaf u)
          (new.1, node n.key n.value (r.2 ++ [new.2]))
    else (false, n)

/-- The value of a list of tokens. -/
def find : List τ → Trie τ α → Option α
  | [], _ => none
  | t :: ts, n =>
    if n.key = t then
      match ts with
      | [] => n.value
      | u :: us => n.children.findSome? (find (u :: us))
    else none

/-! ### What an insertion changes -/

section

variable {t u : τ} {ts us : List τ} {v : Option α} {n : Trie τ α}

theorem insert_of_ne (h : n.key ≠ t) : insert (t :: ts) v n = (false, n) := by
  rw [insert.eq_def]
  exact if_neg h

theorem insert_nil (v : Option α) (n : Trie τ α) :
    insert [n.key] v n = (true, node n.key v n.children) := by
  rw [insert.eq_def]
  exact if_pos rfl

theorem insert_cons (u : τ) (us : List τ) (v : Option α) (n : Trie τ α) :
    insert (n.key :: u :: us) v n =
      if (anyOf (insert (u :: us) v) n.children).1 then
        (true, node n.key n.value (anyOf (insert (u :: us) v) n.children).2)
      else
        ((insert (u :: us) v (leaf u)).1,
          node n.key n.value ((anyOf (insert (u :: us) v) n.children).2 ++
            [(insert (u :: us) v (leaf u)).2])) := by
  rw [insert.eq_def]
  exact if_pos rfl

/-- A node takes every list that starts with its token. -/
theorem insert_fst (ts : List τ) (v : Option α) (n : Trie τ α) : (insert (n.key :: ts) v n).1 = true := by
  cases ts with
  | nil => rw [insert_nil]
  | cons u us =>
    have hnew := insert_fst us v (leaf u)
    rw [key_leaf] at hnew
    rw [insert_cons, hnew]
    split <;> rfl

/-- **One step down.**  Below its first token an insertion changes the first child with the next token,
which it adds when there is none. -/
theorem insert_cons_cases (u : τ) (us : List τ) (v : Option α) (n : Trie τ α) :
    ∃ pre c post, (insert (n.key :: u :: us) v n).2 =
        node n.key n.value (pre ++ (insert (u :: us) v c).2 :: post) ∧
      c.key = u ∧ (∀ x ∈ pre, x.key ≠ u) ∧
      (n.children = pre ++ c :: post ∨ (n.children = pre ∧ c = leaf u ∧ post = [])) := by
  have hrefuse : ∀ x : Trie τ α, x.key ≠ u → insert (u :: us) v x = (false, x) := fun x => insert_of_ne
  rw [insert_cons]
  by_cases hex : ∃ c ∈ n.children, c.key = u
  · -- the first child with the token
    obtain ⟨c, pre, post, hc, hsplit, hpre⟩ : ∃ c pre post, c.key = u ∧ n.children = pre ++ c :: post ∧
        ∀ x ∈ pre, x.key ≠ u := by
      cases hfind : n.children.find? fun c => decide (c.key = u) with
      | none =>
        obtain ⟨c, hmem, hc⟩ := hex
        exact absurd hc (by simpa using List.find?_eq_none.mp hfind c hmem)
      | some c =>
        obtain ⟨hc, pre, post, hsplit, hpre⟩ := List.find?_eq_some_iff_append.mp hfind
        exact ⟨c, pre, post, by simpa using hc, hsplit, fun x hx => by simpa using hpre x hx⟩
    have htake : (insert (u :: us) v c).1 = true := hc ▸ insert_fst us v c
    have hany : anyOf (insert (u :: us) v) (pre ++ c :: post) = (true, pre ++ (insert (u :: us) v c).2 :: post) :=
      anyOf_first (fun x hx => hrefuse x (hpre x hx)) htake
    refine ⟨pre, c, post, ?_, hc, hpre, .inl hsplit⟩
    rw [hsplit, hany]
    rfl
  · have hpre : ∀ x ∈ n.children, x.key ≠ u := fun x hx he => hex ⟨x, hx, he⟩
    have hany := anyOf_none fun x hx => hrefuse x (hpre x hx)
    refine ⟨n.children, leaf u, [], ?_, rfl, hpre, .inr ⟨rfl, rfl, rfl⟩⟩
    rw [hany]
    rfl

theorem key_insert (ts : List τ) (v : Option α) (n : Trie τ α) : (insert ts v n).2.key = n.key := by
  cases ts with
  | nil => rfl
  | cons t ts =>
    by_cases h : n.key = t
    · subst h
      cases ts with
      | nil => rw [insert_nil]; rfl
      | cons u us =>
        obtain ⟨pre, c, post, heq, -⟩ := insert_cons_cases u us v n
        rw [heq]
        rfl
    · rw [insert_of_ne h]

/-- An insertion keeps the tokens of siblings apart. -/
theorem Distinct.insert (h : Distinct n) (ts : List τ) (v : Option α) : Distinct (Trie.insert ts v n).2 := by
  induction ts generalizing n with
  | nil => exact h
  | cons t ts ih =>
    by_cases hk : n.key = t
    · subst hk
      cases ts with
      | nil =>
        rw [insert_nil]
        exact .node h.keys h.child
      | cons u us =>
        obtain ⟨pre, c, post, heq, hc, hpre, hsplit⟩ := insert_cons_cases u us v n
        have hkeys := h.keys
        have hchild := h.child
        rw [heq]
        rcases hsplit with hsplit | ⟨hsplit, rfl, rfl⟩ <;> rw [hsplit] at hkeys hchild
        · refine .node ?_ fun x hx => ?_
          · simpa [key_insert] using hkeys
          · rcases List.mem_append.mp hx with hx | hx
            · exact hchild x (by simp [hx])
            · rcases List.mem_cons.mp hx with rfl | hx
              · exact ih (hchild c (by simp))
              · exact hchild x (by simp [hx])
        · refine .node ?_ fun x hx => ?_
          · rw [List.map_append, List.nodup_append]
            refine ⟨hkeys, by simp, fun a ha b hb => ?_⟩
            obtain ⟨x, hx, rfl⟩ := List.mem_map.mp ha
            obtain rfl : b = u := by simpa [key_insert] using hb
            exact hpre x hx
          · rcases List.mem_append.mp hx with hx | hx
            · exact hchild x hx
            · rw [List.mem_singleton.mp hx]
              exact ih (distinct_of_childless u none)
    · rw [insert_of_ne hk]
      exact h

end

/-! ### The map from token lists to values -/

section

variable {t u : τ} {ts us : List τ} {v : Option α} {n : Trie τ α}

theorem find_of_ne (h : n.key ≠ t) : find (t :: ts) n = none := by
  rw [find.eq_def]
  exact if_neg h

theorem find_singleton (n : Trie τ α) : find [n.key] n = n.value := by
  rw [find.eq_def]
  exact if_pos rfl

theorem find_cons (u : τ) (us : List τ) (n : Trie τ α) :
    find (n.key :: u :: us) n = n.children.findSome? (find (u :: us)) := by
  rw [find.eq_def]
  exact if_pos rfl

theorem find_leaf (ts : List τ) (k : τ) : find ts (leaf k : Trie τ α) = none := by
  cases ts with
  | nil => rfl
  | cons t ts =>
    by_cases h : k = t
    · subst h
      cases ts with
      | nil => exact find_singleton (leaf k)
      | cons u us => exact find_cons u us (leaf k)
    · exact find_of_ne h

theorem findSome?_child {pre post : List (Trie τ α)} {c : Trie τ α} (hpre : ∀ x ∈ pre, x.key ≠ c.key)
    (hpost : ∀ x ∈ post, x.key ≠ c.key) (us : List τ) :
    (pre ++ c :: post).findSome? (find (c.key :: us)) = find (c.key :: us) c := by
  have hnone : ∀ cs : List (Trie τ α), (∀ x ∈ cs, x.key ≠ c.key) →
      cs.findSome? (find (c.key :: us)) = none := fun cs hcs =>
    List.findSome?_eq_none_iff.mpr fun x hx => find_of_ne (hcs x hx)
  rw [List.findSome?_append, List.findSome?_cons, hnone pre hpre, hnone post hpost, Option.none_or]
  cases find (c.key :: us) c <;> rfl

theorem findSome?_other {pre post : List (Trie τ α)} {c : Trie τ α} (h : c.key ≠ u) (us : List τ) :
    (pre ++ c :: post).findSome? (find (u :: us)) = (pre ++ post).findSome? (find (u :: us)) := by
  rw [List.findSome?_append, List.findSome?_append, List.findSome?_cons, find_of_ne h]

/-- The child that an insertion goes down to: it has its token alone, and where it is new, there was
nothing to be found in it. -/
theorem findSome?_changed (hn : Distinct n) {pre post : List (Trie τ α)} {c : Trie τ α}
    (hsplit : n.children = pre ++ c :: post ∨ n.children = pre ∧ c = leaf c.key ∧ post = []) (ws : List τ) :
    Distinct c ∧ (∀ x ∈ post, x.key ≠ c.key) ∧
      n.children.findSome? (find ws) = (pre ++ c :: post).findSome? (find ws) := by
  rcases hsplit with hsplit | ⟨hsplit, hc, rfl⟩
  · have hkeys := hn.keys
    rw [hsplit, List.map_append, List.map_cons] at hkeys
    refine ⟨hn.child c (hsplit ▸ by simp), fun x hx he => ?_, by rw [hsplit]⟩
    have hnd := (List.nodup_cons.mp (List.nodup_append.mp hkeys).2.1).1
    exact hnd (he ▸ List.mem_map_of_mem hx)
  · refine ⟨hc ▸ distinct_of_childless c.key none, by simp, ?_⟩
    rw [hsplit, List.findSome?_append, List.findSome?_cons, hc, find_leaf]
    simp

/-- **An insertion sets one value.** -/
theorem find_insert (hn : Distinct n) (ts : List τ) (v : Option α) (qs : List τ) :
    find qs (insert (n.key :: ts) v n).2 = if qs = n.key :: ts then v else find qs n := by
  induction ts generalizing n qs with
  | nil =>
    rw [insert_nil]
    cases qs with
    | nil => simp [find]
    | cons q qs =>
      by_cases hq : n.key = q
      · subst hq
        cases qs with
        | nil => rw [if_pos rfl]; exact find_singleton (node n.key v n.children)
        | cons w ws =>
          rw [if_neg (by simp), find_cons]
          exact find_cons w ws (node n.key v n.children)
      · rw [if_neg (by simp [Ne.symm hq]), find_of_ne hq]
        exact find_of_ne (n := node n.key v n.children) hq
  | cons u us ih =>
    obtain ⟨pre, c, post, heq, rfl, hpre, hsplit⟩ := insert_cons_cases u us v n
    rw [heq]
    cases qs with
    | nil => simp [find]
    | cons q qs =>
      by_cases hq : n.key = q
      · subst hq
        cases qs with
        | nil =>
          rw [if_neg (by simp), find_singleton]
          exact find_singleton (node n.key n.value _)
        | cons w ws =>
          have hbelow := find_cons w ws (node n.key n.value (pre ++ (insert (c.key :: us) v c).2 :: post))
          rw [key_node, children_node] at hbelow
          have hkey := key_insert (c.key :: us) v c
          rw [hbelow, find_cons]
          -- the changed child is the one with the token, in both cases
          obtain ⟨hcdist, hpost, hold⟩ := findSome?_changed hn hsplit (w :: ws)
          rw [hold]
          by_cases hw : c.key = w
          · subst hw
            have hpre' : ∀ x ∈ pre, x.key ≠ (insert (c.key :: us) v c).2.key := by rwa [hkey]
            have hpost' : ∀ x ∈ post, x.key ≠ (insert (c.key :: us) v c).2.key := by rwa [hkey]
            have hnew := findSome?_child hpre' hpost' ws
            rw [hkey] at hnew
            rw [hnew, findSome?_child hpre hpost, ih hcdist]
            simp
          · have hw' : (insert (c.key :: us) v c).2.key ≠ w := by rwa [hkey]
            rw [if_neg (by simp [Ne.symm hw]), findSome?_other hw, findSome?_other hw']
      · rw [if_neg (by simp [Ne.symm hq]), find_of_ne hq]
        exact find_of_ne (n := node n.key n.value _) hq

end

/-! ### The nodes of a tree -/

/-- **An insertion adds the prefixes of its list.** -/
theorem has_insert (ts : List τ) (v : Option α) (n : Trie τ α) (qs : List τ) :
    Has qs (insert (n.key :: ts) v n).2 ↔ Has qs n ∨ (qs ≠ [] ∧ qs <+: n.key :: ts) := by
  induction ts generalizing n qs with
  | nil =>
    rw [insert_nil]
    cases qs with
    | nil => simp [Has]
    | cons q qs =>
      rw [has_cons, has_cons, List.cons_prefix_cons, List.prefix_nil]
      constructor
      · exact .inl
      · rintro (h | ⟨-, rfl, rfl⟩)
        · exact h
        · exact ⟨rfl, .inl rfl⟩
  | cons u us ih =>
    obtain ⟨pre, c, post, heq, rfl, -, hsplit⟩ := insert_cons_cases u us v n
    rw [heq]
    cases qs with
    | nil => simp [Has]
    | cons q qs =>
      rw [has_cons, has_cons, List.cons_prefix_cons, key_node, children_node]
      -- below `n`, the nodes of the changed child are new, or were there
      have hbelow : (∃ x ∈ pre ++ (insert (c.key :: us) v c).2 :: post, Has qs x) ↔
          (∃ x ∈ n.children, Has qs x) ∨ (qs ≠ [] ∧ qs <+: c.key :: us) := by
        simp only [List.mem_append, List.mem_cons, or_and_right, exists_or, exists_eq_left, ih]
        rcases hsplit with hsplit | ⟨hsplit, hc, rfl⟩
        · rw [hsplit]
          simp only [List.mem_append, List.mem_cons, or_and_right, exists_or, exists_eq_left]
          constructor
          · rintro (h | (h | h) | h)
            · exact .inl (.inl h)
            · exact .inl (.inr (.inl h))
            · exact .inr h
            · exact .inl (.inr (.inr h))
          · rintro ((h | h | h) | h)
            · exact .inl h
            · exact .inr (.inl (.inl h))
            · exact .inr (.inr h)
            · exact .inr (.inl (.inr h))
        · have hleaf : Has qs c → qs ≠ [] ∧ qs <+: c.key :: us := by
            rw [hc, has_leaf]
            rintro rfl
            simp
          rw [hsplit]
          simp only [List.not_mem_nil, false_and, exists_false, or_false]
          exact or_congr_right ⟨fun h => h.elim hleaf id, .inr⟩
      rw [hbelow]
      constructor
      · rintro ⟨rfl, hqs | hqs | hqs⟩
        · exact .inl ⟨rfl, .inl hqs⟩
        · exact .inl ⟨rfl, .inr hqs⟩
        · exact .inr ⟨List.cons_ne_nil _ _, rfl, hqs.2⟩
      · rintro (⟨rfl, hqs | hqs⟩ | ⟨-, rfl, hqs⟩)
        · exact ⟨rfl, .inl hqs⟩
        · exact ⟨rfl, .inr (.inl hqs)⟩
        · by_cases hnil : qs = []
          · exact ⟨rfl, .inl hnil⟩
          · exact ⟨rfl, .inr (.inr ⟨hnil, hqs⟩)⟩

/-! ### Searching with wildcards -/

omit [DecidableEq τ]

/-- Goes down every child whose token accepts the next one of the query. -/
def search (accepts : τ → τ → Bool) : List τ → Trie τ α → Bool
  | [], _ => false
  | q :: qs, n => accepts n.key q && (qs.isEmpty || n.children.any (search accepts qs))

theorem search_cons {accepts : τ → τ → Bool} {q : τ} {qs : List τ} {n : Trie τ α} :
    search accepts (q :: qs) n = true ↔
      accepts n.key q = true ∧ (qs = [] ∨ ∃ c ∈ n.children, search accepts qs c = true) := by
  simp [search]

/-- **A search finds a node when there is one**: it tries every child that may lead to one. -/
theorem search_iff {accepts : τ → τ → Bool} (qs : List τ) (n : Trie τ α) :
    search accepts qs n = true ↔ ∃ ts, Has ts n ∧ List.Forall₂ (fun t q => accepts t q = true) ts qs := by
  induction qs generalizing n with
  | nil =>
    constructor
    · exact fun h => absurd h (by simp [search])
    · rintro ⟨ts, hts, hall⟩
      cases hall
      exact hts.elim
  | cons q qs ih =>
    rw [search_cons]
    constructor
    · rintro ⟨hq, rfl | ⟨c, hc, hsearch⟩⟩
      · exact ⟨[n.key], has_cons.mpr ⟨rfl, .inl rfl⟩, .cons hq .nil⟩
      · obtain ⟨ts, hts, hall⟩ := (ih c).mp hsearch
        exact ⟨n.key :: ts, has_cons.mpr ⟨rfl, .inr ⟨c, hc, hts⟩⟩, .cons hq hall⟩
    · rintro ⟨ts, hts, hall⟩
      cases hall with
      | @cons t _ ts _ hq hall =>
        obtain ⟨rfl, rfl | ⟨c, hc, hbelow⟩⟩ := has_cons.mp hts
        · cases hall
          exact ⟨hq, .inl rfl⟩
        · exact ⟨hq, .inr ⟨c, hc, (ih c).mpr ⟨ts, hbelow, hall⟩⟩⟩

/-! ### The leaves of a tree -/

mutual

/-- The token lists of the nodes without children, from left to right. -/
def leaves : Trie τ α → List (List τ)
  | node k _ cs => if cs.isEmpty then [[k]] else (leavesBelow cs).map (k :: ·)

/-- The leaves of a list of siblings. -/
def leavesBelow : List (Trie τ α) → List (List τ)
  | [] => []
  | c :: cs => leaves c ++ leavesBelow cs

end

theorem leavesBelow_eq (cs : List (Trie τ α)) : leavesBelow cs = cs.flatMap leaves := by
  induction cs with
  | nil => rfl
  | cons c cs ih => rw [leavesBelow, ih, List.flatMap_cons]

theorem mem_leaves {ts : List τ} {n : Trie τ α} :
    ts ∈ leaves n ↔ ∃ us, ts = n.key :: us ∧
      (n.children = [] ∧ us = [] ∨ ∃ c ∈ n.children, us ∈ leaves c) := by
  obtain ⟨k, v, cs⟩ := n
  cases cs with
  | nil => simp [leaves]
  | cons c cs =>
    have hcs : leaves (.node k v (c :: cs)) = ((c :: cs).flatMap leaves).map (k :: ·) := by
      rw [leaves, leavesBelow_eq]
      rfl
    rw [hcs, List.mem_map]
    simp only [List.mem_flatMap, key_node, children_node, reduceCtorEq, false_and, false_or]
    exact ⟨fun ⟨us, hus, h⟩ => ⟨us, h.symm, hus⟩, fun ⟨us, h, hus⟩ => ⟨us, hus, h.symm⟩⟩

/-- What holds of a node when it holds of its children holds of every tree. -/
theorem children_induction {motive : Trie τ α → Prop}
    (step : ∀ n : Trie τ α, (∀ c ∈ n.children, motive c) → motive n) : ∀ n, motive n
  | .node k v cs => step (.node k v cs) fun c hc =>
    have : sizeOf c < sizeOf (Trie.node k v cs) := by
      have := List.sizeOf_lt_of_mem (show c ∈ cs from hc)
      simp
      omega
    children_induction step c

theorem leaves_ne_nil (n : Trie τ α) : leaves n ≠ [] := by
  induction n using children_induction with
  | step n ih =>
    obtain ⟨k, v, cs⟩ := n
    cases cs with
    | nil => simp [leaves]
    | cons c cs => simp [leaves, leavesBelow, ih c (by simp)]

theorem has_of_mem_leaves {ts : List τ} {n : Trie τ α} (h : ts ∈ leaves n) : Has ts n := by
  induction ts generalizing n with
  | nil => obtain ⟨us, hus, -⟩ := mem_leaves.mp h; cases hus
  | cons t ts ih =>
    obtain ⟨us, hus, hbelow⟩ := mem_leaves.mp h
    obtain ⟨rfl, rfl⟩ := List.cons.inj hus
    rcases hbelow with ⟨-, rfl⟩ | ⟨c, hc, hts⟩
    · exact ⟨rfl, .inl rfl⟩
    · exact ⟨rfl, .inr ⟨c, hc, ih hts⟩⟩

theorem Has.head {ts : List τ} {n : Trie τ α} (h : Has ts n) : ts.head? = some n.key := by
  cases ts with
  | nil => exact h.elim
  | cons t ts => exact congrArg some h.1.symm

theorem Distinct.eq_of_key {n c d : Trie τ α} (h : Distinct n) (hc : c ∈ n.children) (hd : d ∈ n.children)
    (hkey : c.key = d.key) : c = d :=
  List.inj_on_of_nodup_map h.keys hc hd hkey

/-- **The leaves are the longest token lists**: the nodes that no other node lies below. -/
theorem mem_leaves_iff {n : Trie τ α} (hn : Distinct n) {ts : List τ} :
    ts ∈ leaves n ↔ Has ts n ∧ ∀ us, Has us n → ts <+: us → us = ts := by
  induction ts generalizing n with
  | nil =>
    refine iff_of_false (fun h => ?_) fun h => h.1
    exact has_of_mem_leaves h
  | cons t ts ih =>
    constructor
    · intro h
      refine ⟨has_of_mem_leaves h, fun us hus hpre => ?_⟩
      obtain ⟨_, heq, hbelow⟩ := mem_leaves.mp h
      obtain ⟨rfl, rfl⟩ := List.cons.inj heq
      obtain ⟨vs, rfl⟩ := hpre
      rcases hus.2 with hnil | ⟨d, hd, hvs⟩
      · obtain ⟨rfl, rfl⟩ := List.append_eq_nil_iff.mp hnil
        rfl
      rcases hbelow with ⟨hleaf, -⟩ | ⟨c, hc, hts⟩
      · rw [hleaf] at hd; cases hd
      · -- the two nodes lie below the same child
        have hts' := (has_of_mem_leaves hts).head
        have hsame : c = d := by
          refine hn.eq_of_key hc hd (Option.some.inj ?_)
          rw [← hts', ← hvs.head]
          cases ts with
          | nil => cases hts'
          | cons u ts => rfl
        subst hsame
        have := ((ih (hn.child c hc)).mp hts).2 _ hvs (List.prefix_append _ _)
        simp only [List.append_eq] at this
        rw [List.cons_append, this]
    · rintro ⟨hts, hmax⟩
      obtain ⟨rfl, hbelow⟩ := has_cons.mp hts
      refine mem_leaves.mpr ⟨ts, rfl, ?_⟩
      rcases hbelow with rfl | ⟨c, hc, hbelow⟩
      · -- a node with a child is not the last one
        refine .inl ⟨?_, rfl⟩
        cases hcs : n.children with
        | nil => rfl
        | cons c cs =>
          have hc : Has [c.key] c := ⟨rfl, .inl rfl⟩
          have := hmax [n.key, c.key] ⟨rfl, .inr ⟨c, by simp [hcs], hc⟩⟩ ⟨[c.key], rfl⟩
          simp at this
      · refine .inr ⟨c, hc, (ih (hn.child c hc)).mpr ⟨hbelow, fun us hus hpre => ?_⟩⟩
        have := hmax (n.key :: us) ⟨rfl, .inr ⟨c, hc, hus⟩⟩ (List.cons_prefix_cons.mpr ⟨rfl, hpre⟩)
        exact (List.cons.inj this).2

theorem nodup_leavesBelow {cs : List (Trie τ α)} (hkeys : (cs.map key).Nodup)
    (hcs : ∀ c ∈ cs, (leaves c).Nodup) : (leavesBelow cs).Nodup := by
  induction cs with
  | nil => exact List.nodup_nil
  | cons c cs ih =>
    rw [List.map_cons, List.nodup_cons] at hkeys
    rw [leavesBelow, List.nodup_append]
    refine ⟨hcs c (by simp), ih hkeys.2 fun x hx => hcs x (by simp [hx]), ?_⟩
    rintro ts hts us hus rfl
    rw [leavesBelow_eq] at hus
    obtain ⟨d, hd, hus⟩ := List.mem_flatMap.mp hus
    have hkey : c.key = d.key :=
      Option.some.inj ((has_of_mem_leaves hts).head.symm.trans (has_of_mem_leaves hus).head)
    exact hkeys.1 (hkey ▸ List.mem_map_of_mem hd)

theorem nodup_leaves {n : Trie τ α} (hn : Distinct n) : (leaves n).Nodup := by
  induction n using children_induction with
  | step n ih =>
    obtain ⟨k, v, cs⟩ := n
    have hbelow := nodup_leavesBelow hn.keys fun c hc => ih c hc (hn.child c hc)
    rw [leaves]
    split
    · exact List.nodup_singleton _
    · exact hbelow.map fun _ _ h => (List.cons.inj h).2

end Trie

end Siesta.Lib
