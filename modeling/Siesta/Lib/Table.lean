import Mathlib.Data.List.AList
import Mathlib.Data.List.Perm.Basic
import Mathlib.Algebra.GroupWithZero.Nat

/-!
# Hash tables and the order they are walked in

A hash table is a list of entries with distinct keys (`AList`).  A program that ranges over one
sees its entries in an order it does not choose: `HashOrder ι` is a choice of such an order for
every loop of the program (the loops are named by `ι`) and every table, and a statement that holds
for every `HashOrder` holds whatever the hash function and the number of buckets are.
-/

namespace Siesta.Lib

/-- A hash table from `κ` to `ν`. -/
abbrev Table (κ ν : Type) : Type := AList (fun _ : κ => ν)

/-! ### Reading and writing by key -/

namespace Table

variable {κ ν : Type} [DecidableEq κ]

/-- `m.find(k)`. -/
def find (m : Table κ ν) (k : κ) : Option ν := m.lookup k

/-- The value of a key, or the default one: what `operator[]` reads. -/
def getD (m : Table κ ν) (k : κ) (d : ν) : ν := (m.find k).getD d

/-- `m[k] = v`. -/
def set (m : Table κ ν) (k : κ) (v : ν) : Table κ ν := m.insert k v

/-- `m[k].push_back(v)`. -/
def pushBack (m : Table κ (List ν)) (k : κ) (v : ν) : Table κ (List ν) :=
  m.set k (m.getD k [] ++ [v])

/-- `m.emplace(k, v)`: a key that is there keeps its value. -/
def emplace (m : Table κ ν) (k : κ) (v : ν) : Table κ ν := if k ∈ m then m else m.set k v

theorem find_set (m : Table κ ν) (k k' : κ) (v : ν) :
    (m.set k v).find k' = if k' = k then some v else m.find k' := by
  unfold find set
  by_cases h : k' = k
  · subst h; simp
  · simp [AList.lookup_insert_ne h, h]

@[simp] theorem find_empty (k : κ) : find (∅ : Table κ ν) k = none := AList.lookup_empty k

theorem getD_set (m : Table κ ν) (k k' : κ) (v d : ν) :
    (m.set k v).getD k' d = if k' = k then v else m.getD k' d := by
  unfold getD
  rw [find_set]
  split <;> rfl

theorem getD_pushBack (m : Table κ (List ν)) (k k' : κ) (v : ν) :
    (m.pushBack k v).getD k' [] = if k' = k then m.getD k [] ++ [v] else m.getD k' [] :=
  getD_set m k k' _ []

@[simp] theorem getD_empty (k : κ) (d : ν) : getD (∅ : Table κ ν) k d = d := by simp [getD]

theorem keys_set (m : Table κ ν) (k : κ) (v : ν) : (m.set k v).keys = k :: m.keys.erase k :=
  AList.keys_insert m

@[simp] theorem mem_set {m : Table κ ν} {k k' : κ} {v : ν} :
    k' ∈ m.set k v ↔ k' = k ∨ k' ∈ m := AList.mem_insert m

@[simp] theorem mem_pushBack {m : Table κ (List ν)} {k k' : κ} {v : ν} :
    k' ∈ m.pushBack k v ↔ k' = k ∨ k' ∈ m := mem_set

theorem mem_emplace {m : Table κ ν} {k k' : κ} {v : ν} : k' ∈ m.emplace k v ↔ k' = k ∨ k' ∈ m := by
  unfold emplace
  split
  · rename_i hk
    exact ⟨.inr, fun h => h.elim (fun he => he ▸ hk) id⟩
  · exact mem_set

theorem find_emplace (m : Table κ ν) (k k' : κ) (v : ν) :
    (m.emplace k v).find k' = if k' = k ∧ k ∉ m then some v else m.find k' := by
  unfold emplace
  by_cases hk : k ∈ m
  · simp [hk]
  · simp [hk, find_set]

theorem find_eq_none {m : Table κ ν} {k : κ} : m.find k = none ↔ k ∉ m := AList.lookup_eq_none

theorem find_eq_some {m : Table κ ν} {k : κ} {v : ν} :
    m.find k = some v ↔ ⟨k, v⟩ ∈ m.entries := AList.mem_lookup_iff

/-- A key is in the table when an entry has it. -/
theorem mem_iff_find {m : Table κ ν} {k : κ} : k ∈ m ↔ ∃ v, m.find k = some v := by
  rw [← AList.lookup_isSome, Option.isSome_iff_exists]
  rfl

/-- A table initialised with rows has, for each key, the value of the first row with that key. -/
theorem find_foldl_emplace {ρ : Type} (key : ρ → κ) (val : ρ → ν) (k : κ) :
    ∀ (rows : List ρ) (m : Table κ ν),
      (rows.foldl (fun m row => m.emplace (key row) (val row)) m).find k =
        (m.find k).or ((rows.find? fun row => key row = k).map val) := by
  intro rows
  induction rows with
  | nil => simp
  | cons row rows ih =>
    intro m
    rw [List.foldl_cons, ih, find_emplace]
    by_cases hk : key row = k
    · subst hk
      by_cases hm : key row ∈ m
      · obtain ⟨v, hv⟩ := mem_iff_find.mp hm
        simp [hm, hv]
      · simp [hm, find_eq_none.mpr hm]
    · simp [hk, Ne.symm hk]

theorem mem_of_find {m : Table κ ν} {k : κ} {v : ν} (h : m.find k = some v) : k ∈ m :=
  mem_iff_find.mpr ⟨v, h⟩

theorem getD_of_notMem {m : Table κ ν} {k : κ} (h : k ∉ m) (d : ν) : m.getD k d = d := by
  rw [getD, find_eq_none.mpr h, Option.getD_none]

theorem getD_of_find {m : Table κ ν} {k : κ} {v : ν} (h : m.find k = some v) (d : ν) :
    m.getD k d = v := by
  rw [getD, h, Option.getD_some]

/-- A sum over the entries that only counts one key reads the value of that key. -/
theorem sum_entries (m : Table κ ν) (f : ν → ℕ) (k : κ) :
    (m.entries.map fun e => if e.1 = k then f e.2 else 0).sum = ((m.find k).map f).getD 0 := by
  have key : ∀ es : List (Sigma fun _ : κ => ν), es.NodupKeys →
      (es.map fun e => if e.1 = k then f e.2 else 0).sum = ((es.dlookup k).map f).getD 0 := by
    intro es
    induction es with
    | nil => simp
    | cons e es ih =>
      intro hnd
      obtain ⟨a, b⟩ := e
      obtain ⟨ha, hnd⟩ := List.nodupKeys_cons.mp hnd
      rw [List.map_cons, List.sum_cons, ih hnd]
      by_cases h : a = k
      · subst h
        have hnone : es.dlookup a = none := List.dlookup_eq_none.mpr ha
        simp [hnone, List.dlookup_cons_eq]
      · rw [List.dlookup_cons_ne es (⟨a, b⟩ : Sigma fun _ : κ => ν) (Ne.symm h)]
        simp [h]
  exact key m.entries m.nodupKeys

end Table

/-! ### The order of a walk -/

/-- The order in which each loop over a hash table meets the entries. -/
structure HashOrder (ι : Type) where
  /-- The entries, in the order loop `i` meets them. -/
  iter : ι → {α : Type} → List α → List α
  /-- A loop meets every entry once. -/
  perm : ∀ (i : ι) {α : Type} (l : List α), (iter i l).Perm l

namespace HashOrder

variable {ι α : Type} (ho : HashOrder ι) (i : ι)

@[simp] theorem mem_iter {l : List α} {a : α} : a ∈ ho.iter i l ↔ a ∈ l := (ho.perm i l).mem_iff

def ByKey : Prop :=
  ∀ (i : ι) {κ ν : Type} (l l' : List (Σ _ : κ, ν)), l.map Sigma.fst = l'.map Sigma.fst →
    (ho.iter i l).map Sigma.fst = (ho.iter i l').map Sigma.fst

def newestFirst (ι : Type) : HashOrder ι where
  iter _ _ l := l
  perm _ _ l := List.Perm.refl l

def oldestFirst (ι : Type) : HashOrder ι where
  iter _ _ l := l.reverse
  perm _ _ l := List.reverse_perm l

end HashOrder

end Siesta.Lib
