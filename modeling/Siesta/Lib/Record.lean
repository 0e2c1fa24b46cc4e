import Mathlib.Data.List.Basic
import Mathlib.Data.List.Nodup
import Mathlib.Data.List.Forall2
import Mathlib.Tactic.Tauto

/-!
# Ordered records

A record is a list of fields in the order they were added; `set` overwrites a field in its place or
appends it, `merge` sets the fields of another record one by one.  Records that share no key are
merged by appending them (`merge_of_disjoint`), and a record with distinct keys is read the same way
wherever its fields are found (`find_of_mem`).
-/

namespace Siesta.Lib

/-- The fields of an object, in the order they were added. -/
abbrev Record (κ ν : Type) : Type := List (κ × ν)

namespace Record

variable {κ ν : Type}

def keys (r : Record κ ν) : List κ := r.map Prod.fst

@[simp] theorem keys_nil : keys ([] : Record κ ν) = [] := rfl

@[simp] theorem keys_cons (e : κ × ν) (r : Record κ ν) : keys (e :: r) = e.1 :: keys r := rfl

@[simp] theorem keys_append (r r' : Record κ ν) : keys (r ++ r') = keys r ++ keys r' :=
  List.map_append ..

theorem mem_keys_of_mem {r : Record κ ν} {k : κ} {v : ν} (h : (k, v) ∈ r) : k ∈ keys r :=
  List.mem_map_of_mem h

theorem mem_of_mem_keys {r : Record κ ν} {k : κ} (h : k ∈ keys r) : ∃ v, (k, v) ∈ r := by
  obtain ⟨⟨k', v⟩, he, rfl⟩ := List.mem_map.mp h
  exact ⟨v, he⟩

variable [DecidableEq κ]

/-- The value of the first field with that key. -/
def find (r : Record κ ν) (k : κ) : Option ν := r.lookup k

/-- `obj[k] = v`. -/
def set (r : Record κ ν) (k : κ) (v : ν) : Record κ ν :=
  match r with
  | [] => [(k, v)]
  | e :: r => if e.1 = k then (k, v) :: r else e :: set r k v

/-- `for (auto& [k, v] : other) obj[k] = v`. -/
def merge (r other : Record κ ν) : Record κ ν := other.foldl (fun r e => r.set e.1 e.2) r

theorem find_cons (e : κ × ν) (r : Record κ ν) (k : κ) :
    find (e :: r) k = if k = e.1 then some e.2 else find r k := by
  obtain ⟨k', v⟩ := e
  unfold find
  rw [List.lookup_cons]
  by_cases h : k = k'
  · subst h; simp
  · have : (k == k') = false := by simpa using h
    simp [this, h]

/-- With distinct keys, every field is the one its key finds. -/
theorem find_of_mem {r : Record κ ν} (hnd : (keys r).Nodup) {k : κ} {v : ν} (h : (k, v) ∈ r) :
    find r k = some v := by
  induction r with
  | nil => simp at h
  | cons e r ih =>
    rw [keys_cons, List.nodup_cons] at hnd
    rw [find_cons]
    rcases List.mem_cons.mp h with rfl | h
    · simp
    · have hne : k ≠ e.1 := fun he => hnd.1 (he ▸ mem_keys_of_mem h)
      rw [if_neg hne, ih hnd.2 h]

theorem mem_of_find {r : Record κ ν} {k : κ} {v : ν} (h : find r k = some v) : (k, v) ∈ r := by
  induction r with
  | nil => simp [find] at h
  | cons e r ih =>
    rw [find_cons] at h
    split at h
    · rename_i hk
      rw [← Option.some.inj h, hk]
      exact List.mem_cons_self ..
    · exact List.mem_cons_of_mem _ (ih h)

theorem find_eq_none {r : Record κ ν} {k : κ} : find r k = none ↔ k ∉ keys r := by
  induction r with
  | nil => simp [find]
  | cons e r ih =>
    rw [find_cons, keys_cons, List.mem_cons, not_or]
    split
    · rename_i hk; simp [hk]
    · rename_i hk; simp [hk, ih]

/-- Where there is one field with a key at most, it is what is found under it. -/
theorem filter_key {r : Record κ ν} {k : κ} (h : (r.filter fun e => e.1 = k).length ≤ 1) :
    (r.filter fun e => e.1 = k) = ((find r k).map fun v => (k, v)).toList := by
  induction r with
  | nil => rfl
  | cons e r ih =>
    rw [find_cons]
    by_cases hk : e.1 = k
    · subst hk
      rw [List.filter_cons_of_pos (by simp), List.length_cons] at h
      have hrest : (r.filter fun e' => e'.1 = e.1) = [] := List.length_eq_zero_iff.mp (by omega)
      rw [List.filter_cons_of_pos (by simp), hrest, if_pos rfl]
      rfl
    · rw [List.filter_cons_of_neg (by simpa using hk)] at h ⊢
      rw [ih h, if_neg (Ne.symm hk)]

/-- Records whose fields are related one by one are read alike. -/
theorem find_rel {V : κ → ν → ν → Prop} {r r' : Record κ ν}
    (h : List.Forall₂ (fun e e' => e'.1 = e.1 ∧ V e.1 e.2 e'.2) r r') (k : κ) :
    Option.Rel (V k) (find r k) (find r' k) := by
  induction h with
  | nil => exact .none
  | @cons e e' r r' he _ ih =>
    rw [find_cons, find_cons, he.1]
    by_cases hk : k = e.1
    · rw [if_pos hk, if_pos hk, hk]
      exact .some he.2
    · rw [if_neg hk, if_neg hk]
      exact ih

/-- A part of a record with distinct keys is read as the record is. -/
theorem find_sublist {r part : Record κ ν} (hnd : (keys r).Nodup) (hsub : part.Sublist r) {k : κ}
    (hk : k ∈ keys part) : find part k = find r k := by
  obtain ⟨v, hv⟩ := mem_of_mem_keys hk
  have hpart : (keys part).Nodup := hnd.sublist (hsub.map Prod.fst)
  rw [find_of_mem hpart hv, find_of_mem hnd (hsub.subset hv)]

theorem mem_keys_set {r : Record κ ν} {k k' : κ} {v : ν} :
    k' ∈ keys (r.set k v) ↔ k' = k ∨ k' ∈ keys r := by
  induction r with
  | nil => simp [set]
  | cons e r ih =>
    rw [set]
    split
    · rename_i he
      simp [he]
    · rw [keys_cons, keys_cons, List.mem_cons, List.mem_cons, ih]
      tauto

theorem mem_keys_merge {other r : Record κ ν} {k : κ} :
    k ∈ keys (r.merge other) ↔ k ∈ keys r ∨ k ∈ keys other := by
  induction other generalizing r with
  | nil => simp [merge]
  | cons e other ih =>
    have hstep : merge r (e :: other) = merge (r.set e.1 e.2) other := rfl
    rw [hstep, ih, mem_keys_set, keys_cons, List.mem_cons]
    tauto

theorem set_of_notMem {r : Record κ ν} {k : κ} (v : ν) (h : k ∉ keys r) : r.set k v = r ++ [(k, v)] := by
  induction r with
  | nil => rfl
  | cons e r ih =>
    rw [keys_cons, List.mem_cons, not_or] at h
    rw [set, if_neg (Ne.symm h.1), ih h.2]
    rfl

theorem merge_of_disjoint : ∀ (other r : Record κ ν), (keys (r ++ other)).Nodup →
    r.merge other = r ++ other := by
  intro other
  induction other with
  | nil => intro r _; simp [merge]
  | cons e other ih =>
    intro r hnd
    have hassoc : r ++ e :: other = (r ++ [e]) ++ other := by simp
    have hnew : e.1 ∉ keys r := by
      intro hm
      rw [keys_append, keys_cons] at hnd
      exact (List.nodup_append.mp hnd).2.2 _ hm _ (List.mem_cons_self ..) rfl
    have hset : merge r (e :: other) = merge (r ++ [e]) other := by
      show merge (r.set e.1 e.2) other = _
      rw [set_of_notMem e.2 hnew]
    rw [hset, ih _ (hassoc ▸ hnd), hassoc]

end Record

end Siesta.Lib
