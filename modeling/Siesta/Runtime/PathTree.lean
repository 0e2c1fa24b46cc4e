import Mathlib.Data.Finset.Card
import Siesta.Lib.Text
import Siesta.Lib.Trie

/-!
# The path tree: `include/siesta/path_tree.hpp`

A `basic_node` is a tree of tokens, and its functions cut a path at the first `/` as they go down.
They do what the functions on token lists do with all the tokens of the path (`insert_eq`, `at_eq`), so
the tree is a map from paths to values (`insert_updates`), `contains` finds the token prefixes of the
paths that were inserted (`contains_iff`) and `size` counts the longest of them (`size_eq_maximal`).
`at_wildcard` reads the wildcards of its own node only (`looksUpWildcards_iff`).
-/

namespace Siesta

open Lib

/-- `basic_node`, with its `_key`, `_value` and `_children`. -/
abbrev BasicNode (α : Type) : Type := Trie Str α

namespace BasicNode

variable {α : Type}

/-- `wildcard`. -/
def wildcard : Str := "*".toList

/-- `path.substr(0, path.find_first_of('/'))`. -/
def firstToken (path : Str) : Str := path.takeWhile (· ≠ '/')

/-- What `remove_prefix` leaves of a path with a `/`. -/
def restOfPath (path : Str) : Option Str :=
  match path.dropWhile (· ≠ '/') with
  | [] => none
  | _ :: rest => some rest

theorem splitOn_of_restOfPath_none {path : Str} (h : restOfPath path = none) :
    path.splitOn '/' = [firstToken path] := by
  unfold restOfPath at h
  split at h
  · rename_i hdrop
    rw [splitOn_eq_cons, hdrop]
    rfl
  · cases h

theorem splitOn_of_restOfPath_some {path rest : Str} (h : restOfPath path = some rest) :
    path.splitOn '/' = firstToken path :: rest.splitOn '/' := by
  unfold restOfPath at h
  split at h
  · cases h
  · rename_i hdrop
    obtain rfl := Option.some.inj h
    rw [splitOn_eq_cons, hdrop]
    rfl

theorem length_restOfPath {path rest : Str} (h : restOfPath path = some rest) :
    rest.length < path.length := by
  unfold restOfPath at h
  split at h
  · cases h
  · rename_i hdrop
    obtain rfl := Option.some.inj h
    have hle := (List.dropWhile_sublist (fun c => decide (c ≠ '/')) (l := path)).length_le
    rw [hdrop, List.length_cons] at hle
    omega

/-- `insert`: whether the node took the path, and the tree afterwards. -/
def insert (n : BasicNode α) (path : Str) (val : Option α) : Bool × BasicNode α :=
  if n.key = firstToken path then
    match _h : restOfPath path with
    | none => (true, .node n.key val n.children)
    | some path' =>
      let inserted := Trie.anyOf (fun n => insert n path' val) n.children
      if inserted.1 then (true, .node n.key n.value inserted.2)
      else
        let added := insert (Trie.leaf (firstToken path')) path' val
        (added.1, .node n.key n.value (inserted.2 ++ [added.2]))
  else (false, n)
termination_by path.length
decreasing_by all_goals exact length_restOfPath _h

/-- `at`. -/
def at_ (n : BasicNode α) (path : Str) : Option α :=
  if n.key = firstToken path then
    match _h : restOfPath path with
    | none => n.value
    | some path' => n.children.findSome? fun child => at_ child path'
  else none
termination_by path.length
decreasing_by exact length_restOfPath _h

/-- `const_at`; below its own node it calls `at`. -/
def const_at (n : BasicNode α) (path : Str) : Option α :=
  if n.key = firstToken path then
    match restOfPath path with
    | none => n.value
    | some path' => n.children.findSome? fun child => at_ child path'
  else none

/-- `at_wildcard`: the tokens its callback is called with, and the value.  Below its own node it calls
`at`. -/
def at_wildcard (n : BasicNode α) (path : Str) : List Str × Option α :=
  let token := firstToken path
  if n.key = token ∨ n.key = wildcard then
    match restOfPath path with
    | none => ([token], n.value)
    | some path' => ([token], n.children.findSome? fun child => at_ child path')
  else ([], none)

/-- `contains`. -/
def contains (n : BasicNode α) (path : Str) : Bool :=
  if n.key = firstToken path ∨ n.key = wildcard then
    match _h : restOfPath path with
    | none => true
    | some path' => n.children.any fun n => contains n path'
  else false
termination_by path.length
decreasing_by exact length_restOfPath _h

/-! ### Token by token -/

theorem insert_eq (n : BasicNode α) (path : Str) (val : Option α) :
    insert n path val = Trie.insert (path.splitOn '/') val n := by
  induction hlen : path.length using Nat.strong_induction_on generalizing n path with
  | _ len ih =>
    rw [insert]
    by_cases hkey : n.key = firstToken path
    · rw [if_pos hkey]
      split
      · rename_i hrest
        rw [splitOn_of_restOfPath_none hrest, ← hkey, Trie.insert_nil]
      · rename_i path' hrest
        have hbelow : ∀ c : BasicNode α, insert c path' val = Trie.insert (path'.splitOn '/') val c :=
          fun c => ih path'.length (hlen ▸ length_restOfPath hrest) c path' rfl
        obtain ⟨ts, hts⟩ : ∃ ts, path'.splitOn '/' = firstToken path' :: ts := ⟨_, splitOn_eq_cons '/' path'⟩
        simp only [hbelow]
        rw [splitOn_of_restOfPath_some hrest, ← hkey, hts, Trie.insert_cons]
    · rw [if_neg hkey, splitOn_eq_cons]
      exact (Trie.insert_of_ne hkey).symm

theorem at_eq (n : BasicNode α) (path : Str) : at_ n path = Trie.find (path.splitOn '/') n := by
  induction hlen : path.length using Nat.strong_induction_on generalizing n path with
  | _ len ih =>
    rw [at_]
    by_cases hkey : n.key = firstToken path
    · rw [if_pos hkey]
      split
      · rename_i hrest
        rw [splitOn_of_restOfPath_none hrest, ← hkey, Trie.find_singleton]
      · rename_i path' hrest
        have hbelow : ∀ c : BasicNode α, at_ c path' = Trie.find (path'.splitOn '/') c :=
          fun c => ih path'.length (hlen ▸ length_restOfPath hrest) c path' rfl
        obtain ⟨ts, hts⟩ : ∃ ts, path'.splitOn '/' = firstToken path' :: ts := ⟨_, splitOn_eq_cons '/' path'⟩
        simp only [hbelow]
        rw [splitOn_of_restOfPath_some hrest, ← hkey, hts, Trie.find_cons]
    · rw [if_neg hkey, splitOn_eq_cons]
      exact (Trie.find_of_ne hkey).symm

theorem const_at_eq (n : BasicNode α) (path : Str) : const_at n path = at_ n path := by
  rw [at_, const_at]
  split
  · split <;> split <;> simp_all
  · rfl

/-! ### A map from paths to values -/

def insertAll (n : BasicNode α) (entries : List (Str × Option α)) : BasicNode α :=
  entries.foldl (fun n e => (insert n e.1 e.2).2) n

theorem distinct_insertAll {n : BasicNode α} (h : Trie.Distinct n) (entries : List (Str × Option α)) :
    Trie.Distinct (insertAll n entries) := by
  induction entries generalizing n with
  | nil => exact h
  | cons e entries ih =>
    refine ih (n := (insert n e.1 e.2).2) ?_
    rw [insert_eq]
    exact h.insert _ _

theorem key_insertAll (n : BasicNode α) (entries : List (Str × Option α)) :
    (insertAll n entries).key = n.key := by
  induction entries generalizing n with
  | nil => rfl
  | cons e entries ih =>
    have hstep : (insert n e.1 e.2).2.key = n.key := by rw [insert_eq, Trie.key_insert]
    exact (ih _).trans hstep

theorem splitOn_inj {p q : Str} (h : p.splitOn '/' = q.splitOn '/') : p = q := by
  calc p = ['/'].intercalate (p.splitOn '/') := (List.intercalate_splitOn '/').symm
    _ = ['/'].intercalate (q.splitOn '/') := by rw [h]
    _ = q := List.intercalate_splitOn '/'

/-- **The path tree is a map.**  An insertion into a tree that was built by insertions is refused when
the path starts with another token; otherwise it sets the value of that path and of no other. -/
theorem insert_updates (key : Str) (value : Option α) (entries : List (Str × Option α)) (p : Str)
    (v : Option α) :
    let n := insertAll (.node key value []) entries
    let r := insert n p v
    (r.1 = true ↔ firstToken p = n.key) ∧ (r.1 = false → r.2 = n) ∧
      (r.1 = true → ∀ q, at_ r.2 q = (if q = p then v else at_ n q) ∧
        const_at r.2 q = (if q = p then v else const_at n q)) := by
  intro n r
  have hdist : Trie.Distinct n := distinct_insertAll (Trie.distinct_of_childless key value) entries
  obtain ⟨ts, hp⟩ : ∃ ts, p.splitOn '/' = firstToken p :: ts := ⟨_, splitOn_eq_cons '/' p⟩
  have hr : r = Trie.insert (firstToken p :: ts) v n := hp ▸ insert_eq n p v
  by_cases hkey : n.key = firstToken p
  · rw [← hkey] at hr hp ⊢
    have htrue : r.1 = true := hr ▸ Trie.insert_fst ts v n
    have hat : ∀ q, at_ r.2 q = if q = p then v else at_ n q := by
      intro q
      rw [at_eq, at_eq, hr, Trie.find_insert hdist, ← hp]
      by_cases hq : q = p
      · rw [if_pos hq, if_pos (by rw [hq])]
      · rw [if_neg hq, if_neg fun h => hq (splitOn_inj h)]
    refine ⟨iff_of_true htrue rfl, fun h => absurd (htrue.symm.trans h) (by decide), fun _ q => ⟨hat q, ?_⟩⟩
    rw [const_at_eq, const_at_eq, hat]
  · have hsame : r = (false, n) := hr.trans (Trie.insert_of_ne hkey)
    have hfalse : r.1 = false := congrArg Prod.fst hsame
    exact ⟨iff_of_false (by simp [hfalse]) (Ne.symm hkey), fun _ => congrArg Prod.snd hsame,
      fun h => absurd (hfalse.symm.trans h) (by decide)⟩

theorem at_insert_insertAll {key p : Str} (hkey : firstToken p = key) (value : Option α)
    (entries : List (Str × Option α)) (v : Option α) (q : Str) :
    at_ (insert (insertAll (.node key value []) entries) p v).2 q =
      if q = p then v else at_ (insertAll (.node key value []) entries) q := by
  have hdist : Trie.Distinct (insertAll (.node key value []) entries) :=
    distinct_insertAll (Trie.distinct_of_childless key value) entries
  obtain ⟨ts, hp⟩ : ∃ ts, p.splitOn '/' = (insertAll (.node key value []) entries).key :: ts := by
    rw [key_insertAll, Trie.key_node, ← hkey]
    exact ⟨_, splitOn_eq_cons '/' p⟩
  rw [at_eq, at_eq, insert_eq, hp, Trie.find_insert hdist, ← hp]
  by_cases hq : q = p
  · rw [if_pos hq, if_pos (by rw [hq])]
  · rw [if_neg hq, if_neg fun h => hq (splitOn_inj h)]

/-! ### The token prefixes of the paths -/

theorem contains_eq (n : BasicNode α) (path : Str) :
    contains n path = Trie.search (fun t u => decide (t = u ∨ t = wildcard)) (path.splitOn '/') n := by
  induction hlen : path.length using Nat.strong_induction_on generalizing n path with
  | _ len ih =>
    rw [contains]
    split
    · rename_i hkey
      split
      · rename_i hrest
        rw [splitOn_of_restOfPath_none hrest]
        simp [Trie.search, hkey]
      · rename_i path' hrest
        have hbelow : ∀ c : BasicNode α, contains c path' = _ := fun c =>
          ih path'.length (hlen ▸ length_restOfPath hrest) c path' rfl
        rw [splitOn_of_restOfPath_some hrest, Trie.search, funext hbelow]
        simp [hkey, List.splitOn_ne_nil]
    · rename_i hkey
      rw [splitOn_eq_cons, ← firstToken, Trie.search]
      simp [hkey]

theorem exists_eq_cons_of_head? {p : Str} (h : p.head? = some '/') : ∃ rest, p = '/' :: rest := by
  cases p with
  | nil => cases h
  | cons c rest => exact ⟨rest, by rw [Option.some.inj h]⟩

theorem has_insertAll (entries : List (Str × Option α)) (hslash : ∀ e ∈ entries, e.1.head? = some '/')
    (qs : List Str) :
    Trie.Has qs (insertAll (.node [] none []) entries) ↔
      qs = [[]] ∨ ∃ e ∈ entries, qs ≠ [] ∧ qs <+: e.1.splitOn '/' := by
  induction entries using List.reverseRecOn with
  | nil =>
    simp only [List.not_mem_nil, false_and, exists_false, or_false]
    exact Trie.has_leaf
  | append_singleton entries e ih =>
    obtain ⟨p, hp⟩ := exists_eq_cons_of_head? (hslash e (by simp))
    have hkey : (insertAll (.node [] none []) entries : BasicNode α).key = [] := key_insertAll _ _
    have htokens : e.1.splitOn '/' =
        (insertAll (.node [] none []) entries : BasicNode α).key :: p.splitOn '/' := by
      rw [hp, splitOn_sep_cons, hkey]
    have hstep : insertAll (.node [] none []) (entries ++ [e]) =
        (insert (insertAll (.node [] none []) entries) e.1 e.2).2 := by
      rw [insertAll, List.foldl_append]
      rfl
    rw [hstep, insert_eq, htokens, Trie.has_insert, ← htokens, ih fun x hx => hslash x (by simp [hx])]
    simp only [List.mem_append, List.mem_singleton, or_and_right, exists_or, exists_eq_left, or_assoc]

/-- **What `contains` finds**: the root, and the token prefixes of the inserted paths, where a token `*`
of a path stands for any token of the query. -/
theorem contains_iff (entries : List (Str × Option α)) (hslash : ∀ e ∈ entries, e.1.head? = some '/')
    (q : Str) :
    contains (insertAll (.node [] none []) entries) q = true ↔
      q.splitOn '/' = [[]] ∨ ∃ e ∈ entries, (q.splitOn '/').length ≤ (e.1.splitOn '/').length ∧
        List.Forall₂ (fun t u => t = u ∨ t = wildcard)
          ((e.1.splitOn '/').take (q.splitOn '/').length) (q.splitOn '/') := by
  have hq : q.splitOn '/' ≠ [] := List.splitOn_ne_nil '/' q
  rw [contains_eq, Trie.search_iff]
  simp only [has_insertAll entries hslash, decide_eq_true_eq]
  generalize q.splitOn '/' = qs at hq ⊢
  constructor
  · rintro ⟨ts, rfl | ⟨e, he, -, hts⟩, hall⟩
    · -- the root
      obtain ⟨u, hu, rfl⟩ : ∃ u, ([] = u ∨ [] = wildcard) ∧ qs = [u] := by
        cases hall with
        | cons hu hnil =>
          cases hnil
          exact ⟨_, hu, rfl⟩
      rcases hu with rfl | hu
      · exact .inl rfl
      · exact absurd hu (by decide)
    · have hlen := hall.length_eq
      refine .inr ⟨e, he, hlen ▸ hts.length_le, ?_⟩
      rwa [← hlen, ← List.prefix_iff_eq_take.mp hts]
  · rintro (rfl | ⟨e, he, -, hall⟩)
    · exact ⟨[[]], .inl rfl, .cons (.inl rfl) .nil⟩
    · refine ⟨_, .inr ⟨e, he, fun hnil => ?_, List.take_prefix _ _⟩, hall⟩
      rw [hnil] at hall
      exact hq (List.forall₂_nil_left_iff.mp hall)

theorem contains_iff_wildcard :
    contains (insertAll (.node [] none []) [("/api/v4/*/ping".toList, some 1)]) "/api/v4/alpha".toList = true :=
  (contains_iff [("/api/v4/*/ping".toList, some 1)] (by decide) "/api/v4/alpha".toList).mpr
    (.inr ⟨_, List.mem_singleton_self _, by decide, by decide⟩)

/-! ### Looking up with wildcards -/

def lastValue (entries : List (Str × Option α)) (p : Str) : Option α :=
  entries.foldl (fun v e => if p = e.1 then e.2 else v) none

theorem lastValue_concat (entries : List (Str × Option α)) (e : Str × Option α) (p : Str) :
    lastValue (entries ++ [e]) p = if p = e.1 then e.2 else lastValue entries p := by
  rw [lastValue, List.foldl_append]
  rfl

theorem mem_of_lastValue {entries : List (Str × Option α)} {p : Str} (h : (lastValue entries p).isSome) :
    ∃ e ∈ entries, e.1 = p := by
  induction entries using List.reverseRecOn with
  | nil => cases h
  | append_singleton entries e ih =>
    rw [lastValue_concat] at h
    by_cases hp : p = e.1
    · exact ⟨e, by simp, hp.symm⟩
    · rw [if_neg hp] at h
      obtain ⟨f, hf, rfl⟩ := ih h
      exact ⟨f, by simp [hf], rfl⟩

theorem at_insertAll (entries : List (Str × Option α)) (hslash : ∀ e ∈ entries, e.1.head? = some '/')
    (q : Str) : at_ (insertAll (.node [] none []) entries) q = lastValue entries q := by
  induction entries using List.reverseRecOn with
  | nil =>
    rw [at_eq]
    exact Trie.find_leaf _ _
  | append_singleton entries e ih =>
    obtain ⟨p, hp⟩ := exists_eq_cons_of_head? (hslash e (by simp))
    have hroot : firstToken e.1 = [] := by
      rw [hp]
      rfl
    have hat := at_insert_insertAll hroot none entries e.2 q
    rw [ih fun x hx => hslash x (by simp [hx])] at hat
    rw [lastValue_concat, insertAll, List.foldl_append]
    exact hat

/-- A path reaches a query: it has as many tokens and equals it token by token, up to its tokens `*`. -/
def Reaches (p q : Str) : Prop :=
  List.Forall₂ (fun t u => t = u ∨ t = wildcard) (p.splitOn '/') (q.splitOn '/')

/-- What a look-up with wildcards is for: a value when an inserted path with a value reaches the query,
and then a callback for each token of the query. -/
def LooksUpWildcards (entries : List (Str × Option α)) (q : Str) : Prop :=
  let r := at_wildcard (insertAll (.node [] none []) entries) q
  (r.2.isSome ↔ ∃ p, (lastValue entries p).isSome ∧ Reaches p q) ∧
    (r.2.isSome → r.1 = q.splitOn '/')

/-- Below the root the tokens `*` are tokens like any other, and the callback sees the first token only. -/
theorem at_wildcard_root {n : BasicNode α} (hkey : n.key = []) (q : Str) :
    (at_wildcard n q).2 = at_ n q ∧
      ((at_wildcard n q).1 = [[]] ∨ (at_wildcard n q).2 = none) := by
  have hroot : n.key ≠ wildcard := by rw [hkey]; decide
  rw [at_wildcard, at_]
  by_cases hq : n.key = firstToken q
  · simp only [hq, true_or, if_true]
    rw [← hq, hkey]
    split <;> split <;> simp_all
  · simp [hq, hroot]

/-- **A look-up with wildcards works only when there is nothing to find.**  A query that an inserted path
with a value reaches either finds nothing, or finds a value without a callback for all its tokens. -/
theorem looksUpWildcards_iff (entries : List (Str × Option α))
    (hslash : ∀ e ∈ entries, e.1.head? = some '/') (q : Str) :
    LooksUpWildcards entries q ↔ ¬ ∃ p, (lastValue entries p).isSome ∧ Reaches p q := by
  obtain ⟨hvalue, hcalls⟩ := at_wildcard_root (n := insertAll (.node [] none []) entries)
    (key_insertAll _ entries) q
  rw [at_insertAll entries hslash] at hvalue
  have hself : Reaches q q := List.forall₂_same.mpr fun _ _ => .inl rfl
  have hfound : (lastValue entries q).isSome → ∃ p, (lastValue entries p).isSome ∧ Reaches p q :=
    fun h => ⟨q, h, hself⟩
  constructor
  · rintro ⟨hsome, htokens⟩ hex
    have hsuccess := hsome.mpr hex
    have hlist := htokens hsuccess
    rcases hcalls with hcalls | hnone
    · -- the path that was found has two tokens or more
      obtain ⟨e, he, rfl⟩ := mem_of_lastValue (hvalue ▸ hsuccess)
      obtain ⟨p, hp⟩ := exists_eq_cons_of_head? (hslash e he)
      rw [hcalls, hp, splitOn_sep_cons] at hlist
      exact List.splitOn_ne_nil '/' p (List.cons.inj hlist).2.symm
    · rw [hnone] at hsuccess
      cases hsuccess
  · intro hex
    have hnone : ¬ (lastValue entries q).isSome := fun h => hex (hfound h)
    rw [LooksUpWildcards, hvalue]
    exact ⟨iff_of_false hnone hex, fun h => absurd h hnone⟩

theorem looksUpWildcards_iff_ping :
    LooksUpWildcards [("/api/*/ping".toList, some 1)] "/api/v4/pong".toList ↔
      ¬ ∃ p, (lastValue [("/api/*/ping".toList, some 1)] p).isSome ∧ Reaches p "/api/v4/pong".toList :=
  looksUpWildcards_iff _ (by decide) _

/-- A path with a wildcard is not found by a query that it reaches. -/
theorem wildcard_not_looked_up :
    ¬ LooksUpWildcards [("/api/*/ping".toList, some 1)] "/api/v4/ping".toList := by
  have hat := at_insertAll [("/api/*/ping".toList, some 1)] (by decide) "/api/v4/ping".toList
  have hvalue := (at_wildcard_root (n := insertAll (.node [] none []) [("/api/*/ping".toList, some 1)])
    (key_insertAll _ _) "/api/v4/ping".toList).1
  rw [hat] at hvalue
  intro h
  have hsome := h.1.mpr ⟨"/api/*/ping".toList, by decide, by unfold Reaches; decide⟩
  rw [hvalue] at hsome
  exact absurd hsome (by decide)

/-! ### Counting the leaves -/

mutual

/-- `size`. -/
def size : BasicNode α → Nat
  | .node _ _ children =>
    let ret := sumSizes 0 children
    if ret = 0 then 1 else ret

/-- The loop of `size` over the children. -/
def sumSizes (ret : Nat) : List (BasicNode α) → Nat
  | [] => ret
  | child :: children => sumSizes (ret + size child) children

end

theorem sumSizes_eq {children : List (BasicNode α)}
    (h : ∀ c ∈ children, size c = (Trie.leaves c).length) (ret : Nat) :
    sumSizes ret children = ret + (Trie.leavesBelow children).length := by
  induction children generalizing ret with
  | nil => rfl
  | cons c children ih =>
    rw [sumSizes, ih fun x hx => h x (by simp [hx]), h c (by simp), Trie.leavesBelow, List.length_append]
    omega

/-- `0` stands for a leaf in the recursion, and no other node counts as `0`. -/
theorem size_eq_length_leaves (n : BasicNode α) : size n = (Trie.leaves n).length := by
  induction n using Trie.children_induction with
  | step n ih =>
    obtain ⟨k, v, children⟩ := n
    have hsum : sumSizes 0 children = (Trie.leavesBelow children).length :=
      (sumSizes_eq ih 0).trans (Nat.zero_add _)
    simp only [size, hsum]
    rw [Trie.leaves]
    cases children with
    | nil => rfl
    | cons c children =>
      simp [Trie.leavesBelow, Trie.leaves_ne_nil c]

/-- The distinct inserted paths whose tokens are no proper prefix of those of another one. -/
def maximalPaths (paths : List Str) : Finset Str :=
  paths.toFinset.filter fun p => ∀ q ∈ paths, p.splitOn '/' <+: q.splitOn '/' → q = p

/-- The leaves of a tree that is built by insertions are the maximal paths. -/
theorem leaves_insertAll {entries : List (Str × Option α)} (hslash : ∀ e ∈ entries, e.1.head? = some '/')
    (hne : entries ≠ []) : (Trie.leaves (insertAll (.node [] none []) entries)).toFinset =
      (maximalPaths (entries.map Prod.fst)).image (·.splitOn '/') := by
  have hdist : Trie.Distinct (insertAll (.node [] none []) entries : BasicNode α) :=
    distinct_insertAll (Trie.distinct_of_childless [] none) entries
  have hhas := has_insertAll entries hslash
  generalize (insertAll (.node [] none []) entries : BasicNode α) = n at hdist hhas ⊢
  -- a path that was inserted is longer than the root
  have hroot : ∀ e ∈ entries, ([[]] : List Str) <+: e.1.splitOn '/' ∧ e.1.splitOn '/' ≠ [[]] := by
    intro e he
    obtain ⟨p, hp⟩ := exists_eq_cons_of_head? (hslash e he)
    rw [hp, splitOn_sep_cons]
    exact ⟨⟨_, rfl⟩, fun h => List.splitOn_ne_nil '/' p (List.cons.inj h).2⟩
  have hnode : ∀ e ∈ entries, Trie.Has (e.1.splitOn '/') n := fun e he =>
    (hhas _).mpr (.inr ⟨e, he, List.splitOn_ne_nil _ _, List.prefix_rfl⟩)
  ext ts
  rw [List.mem_toFinset, Trie.mem_leaves_iff hdist, Finset.mem_image]
  constructor
  · rintro ⟨hts, hmax⟩
    obtain ⟨e, he, hpre⟩ : ∃ e ∈ entries, ts <+: e.1.splitOn '/' := by
      rcases (hhas ts).mp hts with rfl | ⟨e, he, -, hpre⟩
      · obtain ⟨e, he⟩ := List.exists_mem_of_ne_nil entries hne
        exact ⟨e, he, (hroot e he).1⟩
      · exact ⟨e, he, hpre⟩
    have heq := hmax _ (hnode e he) hpre
    refine ⟨e.1, Finset.mem_filter.mpr ⟨by simpa using ⟨_, he⟩, fun q hq hlong => ?_⟩, heq⟩
    obtain ⟨f, hf, rfl⟩ := List.mem_map.mp hq
    exact splitOn_inj ((hmax _ (hnode f hf) (hpre.trans hlong)).trans heq.symm)
  · rintro ⟨p, hp, rfl⟩
    obtain ⟨hmem, hmax⟩ := Finset.mem_filter.mp hp
    obtain ⟨e, he, rfl⟩ := List.mem_map.mp (List.mem_toFinset.mp hmem)
    refine ⟨hnode e he, fun us hus hlong => ?_⟩
    rcases (hhas us).mp hus with rfl | ⟨f, hf, -, hpre⟩
    · have hshort := hlong.length_le
      exact absurd (hlong.eq_of_length (Nat.le_antisymm hshort (hroot e he).1.length_le)) (hroot e he).2
    · have hsame : f.1 = e.1 := hmax _ (List.mem_map_of_mem hf) (hlong.trans hpre)
      rw [hsame] at hpre
      exact hpre.eq_of_length (Nat.le_antisymm hpre.length_le hlong.length_le)

/-- **`size` counts the longest paths.** -/
theorem size_eq_maximal (entries : List (Str × Option α)) (hslash : ∀ e ∈ entries, e.1.head? = some '/') :
    size (insertAll (.node [] none []) entries) =
      if entries = [] then 1 else (maximalPaths (entries.map Prod.fst)).card := by
  split
  · rename_i hnil
    subst hnil
    rfl
  rename_i hne
  have hdist : Trie.Distinct (insertAll (.node [] none []) entries : BasicNode α) :=
    distinct_insertAll (Trie.distinct_of_childless [] none) entries
  have hleaves := leaves_insertAll hslash hne
  generalize (insertAll (.node [] none []) entries : BasicNode α) = n at hdist hleaves ⊢
  calc size n = (Trie.leaves n).length := size_eq_length_leaves n
    _ = (Trie.leaves n).toFinset.card := (List.toFinset_card_of_nodup (Trie.nodup_leaves hdist)).symm
    _ = ((maximalPaths (entries.map Prod.fst)).image (·.splitOn '/')).card := by rw [hleaves]
    _ = (maximalPaths (entries.map Prod.fst)).card := Finset.card_image_of_injective _ fun _ _ => splitOn_inj

theorem size_eq_maximal_ticker :
    size (insertAll (.node [] none [])
      [("/ticker".toList, some 1), ("/ping".toList, none), ("/ticker/price".toList, none),
        ("/ticker".toList, none)]) = 2 :=
  (size_eq_maximal _ (by decide)).trans (by decide)

end BasicNode

end Siesta
