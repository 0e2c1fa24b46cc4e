import Mathlib.Data.List.Chain
import Mathlib.Data.List.Nodup
import Mathlib.Data.List.Sublists
import Mathlib.Data.Set.Card
import Mathlib.Logic.Relation

/-!
# Orders of a list that respect a dependency relation

`StandsBefore l u t` says that `u` occurs in `l` before an occurrence of `t`; `DepsFirst dep l`
says that everything an entry of `l` depends on stands before it.  The invariants of a topological
sort are kept by appending one entry whose dependencies are all there (`DepsFirst.snoc`), and
`Grounded` is the well-foundedness that makes such a sort complete.  `SimpleCycle` is what a
depth-first search finds when an edge leads back to its path (`simpleCycle_of_path`).
-/

namespace Siesta.Lib

variable {α : Type}

/-- `u` occurs in `l`, and `t` after it. -/
def StandsBefore (l : List α) (u t : α) : Prop := [u, t].Sublist l

/-- Everything an entry of `l` depends on occurs before it. -/
def DepsFirst (dep : α → α → Prop) (l : List α) : Prop :=
  ∀ l₁ a l₂, l = l₁ ++ a :: l₂ → ∀ b, dep a b → b ∈ l₁

/-- No infinite chain of dependencies starts at `a`. -/
def Grounded (dep : α → α → Prop) (a : α) : Prop := Acc (fun b a => dep a b) a

/-! ### Standing before -/

theorem standsBefore_of_mem {l₁ l₂ : List α} {u t : α} (h : u ∈ l₁) :
    StandsBefore (l₁ ++ t :: l₂) u t := by
  have h₁ : [u].Sublist l₁ := List.singleton_sublist.mpr h
  have h₂ : [t].Sublist (t :: l₂) := List.singleton_sublist.mpr (List.mem_cons_self ..)
  exact h₁.append h₂

theorem StandsBefore.append_right {l : List α} {u t : α} (h : StandsBefore l u t) (l' : List α) :
    StandsBefore (l ++ l') u t := List.Sublist.trans h (List.sublist_append_left l l')

theorem StandsBefore.filter {l : List α} {u t : α} (p : α → Bool) (h : StandsBefore l u t)
    (hu : p u) (ht : p t) : StandsBefore (l.filter p) u t := by
  have := List.Sublist.filter p h
  simpa [StandsBefore, hu, ht] using this

theorem StandsBefore.mem_left {l : List α} {u t : α} (h : StandsBefore l u t) : u ∈ l :=
  List.Sublist.mem (by simp) h

/-- In a list without repetition, what stands before `t` is in front of its only occurrence. -/
theorem StandsBefore.mem_prefix {l₁ l₂ : List α} {u t : α} (hnd : (l₁ ++ t :: l₂).Nodup)
    (h : StandsBefore (l₁ ++ t :: l₂) u t) : u ∈ l₁ := by
  obtain ⟨s₁, s₂, hs, h₁, h₂⟩ := List.sublist_append_iff.mp h
  have htl : t ∉ l₁ := fun hm => (List.nodup_append.mp hnd).2.2 t hm t (by simp) rfl
  have htr : t ∉ l₂ := (List.nodup_cons.mp (List.nodup_append.mp hnd).2.1).1
  rcases s₁ with _ | ⟨a, s₁⟩
  · -- both occurrences would lie in `t :: l₂`
    rw [List.nil_append] at hs
    subst hs
    rcases List.sublist_cons_iff.mp h₂ with h | ⟨r, hr, h⟩
    · exact absurd (h.subset (by simp)) htr
    · obtain ⟨-, rfl⟩ := List.cons.inj hr
      exact absurd (h.subset (by simp)) htr
  · obtain ⟨rfl, -⟩ := List.cons.inj hs
    exact h₁.subset (by simp)

theorem StandsBefore.mem_right {l : List α} {u t : α} (h : StandsBefore l u t) : t ∈ l :=
  List.Sublist.mem (by simp) h

theorem StandsBefore.idxOf_lt [BEq α] [LawfulBEq α] {l : List α} {u t : α} (h : StandsBefore l u t)
    (hnd : l.Nodup) : l.idxOf u < l.idxOf t := by
  obtain ⟨l₁, l₂, rfl⟩ := List.append_of_mem h.mem_right
  have hu : u ∈ l₁ := h.mem_prefix hnd
  have ht : t ∉ l₁ := fun hm => (List.nodup_append.mp hnd).2.2 t hm t (by simp) rfl
  rw [List.idxOf_append_of_mem hu, List.idxOf_append_of_notMem ht, List.idxOf_cons_self]
  have := List.idxOf_lt_length_of_mem hu
  omega

/-! ### Dependencies first -/

variable {dep : α → α → Prop}

theorem DepsFirst.nil : DepsFirst dep ([] : List α) := by
  intro l₁ a l₂ h
  simp at h

theorem DepsFirst.snoc {l : List α} {v : α} (h : DepsFirst dep l) (hv : ∀ b, dep v b → b ∈ l) :
    DepsFirst dep (l ++ [v]) := by
  intro l₁ a l₂ heq b hb
  rcases List.eq_nil_or_concat l₂ with rfl | ⟨l₂, z, rfl⟩
  · obtain ⟨rfl, ha⟩ := List.append_inj' heq rfl
    rw [← List.head_eq_of_cons_eq ha] at hb
    exact hv b hb
  · have heq : l ++ [v] = (l₁ ++ a :: l₂) ++ [z] := by simpa using heq
    exact h l₁ a l₂ (List.append_inj' heq rfl).1 b hb

theorem DepsFirst.standsBefore {l : List α} {t u : α} (h : DepsFirst dep l) (ht : t ∈ l)
    (hd : dep t u) : StandsBefore l u t := by
  obtain ⟨l₁, l₂, rfl⟩ := List.append_of_mem ht
  exact standsBefore_of_mem (h l₁ t l₂ rfl u hd)

/-! ### Grounded entries -/

theorem Grounded.intro {a : α} (h : ∀ b, dep a b → Grounded dep b) : Grounded dep a :=
  Acc.intro a h

/-- What holds of an entry once it holds of everything it depends on holds of a grounded one. -/
theorem Grounded.induction {C : α → Prop} {a : α} (ha : Grounded dep a)
    (h : ∀ x, (∀ b, dep x b → C b) → C x) : C a := by
  induction ha with
  | intro x _ ih => exact h x ih

theorem Grounded.not_transGen {a : α} (ha : Grounded dep a) : ¬ Relation.TransGen dep a a := by
  refine ha.induction (C := fun x => ¬ Relation.TransGen dep x x) fun x ih hx => ?_
  obtain ⟨b, hxb, hbx⟩ := Relation.TransGen.head'_iff.mp hx
  exact ih b hxb (Relation.TransGen.tail' hbx hxb)

/-- A chain over finitely many keys that never comes back to a key is finite. -/
theorem grounded_of_no_return {κ : Type} {a : α} (key : α → κ) (keys : List κ)
    (hkeys : ∀ b, Relation.ReflTransGen dep a b → key b ∈ keys)
    (hreturn : ∀ b c, Relation.ReflTransGen dep a b → Relation.TransGen dep b c → key c ≠ key b) :
    Grounded dep a := by
  -- the keys that have been passed are different ones, so their number bounds the chain
  have hchain : ∀ n b (passed : List κ), keys.length ≤ passed.length + n → passed.Nodup →
      Relation.ReflTransGen dep a b →
      (∀ k ∈ passed, ∃ d, key d = k ∧ Relation.ReflTransGen dep a d ∧ Relation.TransGen dep d b) →
      Grounded dep b := by
    intro n
    induction n with
    | zero =>
      intro b passed hlength hnd hb hpassed
      have hnew : key b ∉ passed := by
        intro hmem
        obtain ⟨d, hd, had, hdb⟩ := hpassed _ hmem
        exact hreturn d b had hdb hd.symm
      have hsub : (key b :: passed).length ≤ keys.length := by
        refine (List.subperm_of_subset (List.nodup_cons.mpr ⟨hnew, hnd⟩) fun k hk => ?_).length_le
        rcases List.mem_cons.mp hk with rfl | hk
        · exact hkeys b hb
        · obtain ⟨d, rfl, had, -⟩ := hpassed k hk
          exact hkeys d had
      rw [List.length_cons] at hsub
      omega
    | succ n ih =>
      intro b passed hlength hnd hb hpassed
      have hnew : key b ∉ passed := by
        intro hmem
        obtain ⟨d, hd, had, hdb⟩ := hpassed _ hmem
        exact hreturn d b had hdb hd.symm
      refine Grounded.intro fun c hbc => ?_
      refine ih c (key b :: passed) ?_ (List.nodup_cons.mpr ⟨hnew, hnd⟩) (hb.tail hbc) fun k hk => ?_
      · rw [List.length_cons]
        omega
      · rcases List.mem_cons.mp hk with rfl | hk
        · exact ⟨b, rfl, hb, .single hbc⟩
        · obtain ⟨d, hd, had, hdb⟩ := hpassed k hk
          exact ⟨d, hd, had, hdb.tail hbc⟩
  exact hchain keys.length a [] (by simp) List.nodup_nil .refl (by simp)

theorem DepsFirst.grounded {l : List α} (h : DepsFirst dep l) {a : α} (ha : a ∈ l) :
    Grounded dep a := by
  have hprefix : ∀ n l₁ a l₂, l₁.length ≤ n → l = l₁ ++ a :: l₂ → Grounded dep a := by
    intro n
    induction n with
    | zero =>
      intro l₁ a l₂ hlen hl
      refine Grounded.intro fun b hb => ?_
      have hmem : b ∈ l₁ := h l₁ a l₂ hl b hb
      have := List.length_pos_of_mem hmem
      omega
    | succ n ih =>
      intro l₁ a l₂ hlen hl
      refine Grounded.intro fun b hb => ?_
      obtain ⟨l₃, l₄, rfl⟩ := List.append_of_mem (h l₁ a l₂ hl b hb)
      refine ih l₃ b (l₄ ++ a :: l₂) ?_ (by simpa using hl)
      simp only [List.length_append, List.length_cons] at hlen
      omega
  obtain ⟨l₁, l₂, rfl⟩ := List.append_of_mem ha
  exact hprefix l₁.length l₁ a l₂ le_rfl rfl

/-! ### Ranks -/

/-- How many entries there are below `a`. -/
noncomputable def rank (dep : α → α → Prop) (a : α) : ℕ := {b | Relation.TransGen dep a b}.ncard

section Rank

variable {l : List α}

/-- The entries of a list below which there are entries of the list only. -/
theorem finite_below (hl : ∀ a ∈ l, ∀ b, dep a b → b ∈ l) {a : α} (ha : a ∈ l) :
    {b | Relation.TransGen dep a b} ⊆ {b | b ∈ l} := by
  intro b hb
  induction hb with
  | single hab => exact hl a ha _ hab
  | tail _ hbc ih => exact hl _ ih _ hbc

theorem rank_lt (hl : ∀ a ∈ l, ∀ b, dep a b → b ∈ l) (hacyclic : ∀ a ∈ l, ¬ Relation.TransGen dep a a) {a b : α}
    (ha : a ∈ l) (hab : dep a b) : rank dep b < rank dep a := by
  have hfinite : {c | Relation.TransGen dep a c}.Finite := (List.finite_toSet l).subset (finite_below hl ha)
  refine Set.ncard_lt_ncard ⟨fun c hc => .head hab hc, fun hsub => ?_⟩ hfinite
  exact hacyclic b (hl a ha b hab) (hsub (.single hab))

theorem rank_lt_length (hl : ∀ a ∈ l, ∀ b, dep a b → b ∈ l) (hacyclic : ∀ a ∈ l, ¬ Relation.TransGen dep a a)
    {a : α} (ha : a ∈ l) : rank dep a < l.length := by
  classical
  have hproper : {b | Relation.TransGen dep a b} ⊂ {b | b ∈ l} :=
    ⟨finite_below hl ha, fun hsub => hacyclic a ha (hsub ha)⟩
  have hlt := Set.ncard_lt_ncard hproper (List.finite_toSet l)
  have hle : {b | b ∈ l}.ncard ≤ l.length := by
    rw [← List.coe_toFinset, Set.ncard_coe_finset]
    exact List.toFinset_card_le l
  exact hlt.trans_le hle

end Rank

/-! ### Simple cycles -/

/-- A walk that ends where it starts and visits no other entry twice. -/
def SimpleCycle (dep : α → α → Prop) (c : List α) : Prop :=
  ∃ n p, c = n :: p ++ [n] ∧ (n :: p).Nodup ∧ c.IsChain dep

theorem transGen_of_isChain : ∀ (p : List α) (a b : α), (a :: p ++ [b]).IsChain dep →
    Relation.TransGen dep a b := by
  intro p
  induction p with
  | nil => exact fun a b h => .single (by simpa using h)
  | cons c p ih =>
    intro a b h
    obtain ⟨hac, hcb⟩ := List.isChain_cons_cons.mp h
    exact .head hac (ih c b hcb)

theorem SimpleCycle.transGen {c : List α} (h : SimpleCycle dep c) :
    ∃ n, Relation.TransGen dep n n := by
  obtain ⟨n, p, rfl, -, hchain⟩ := h
  exact ⟨n, transGen_of_isChain p n n hchain⟩

/-- An edge from the end of a path back to one of its entries closes a simple cycle. -/
theorem simpleCycle_of_path [DecidableEq α] {path : List α} {m : α} (hnd : path.Nodup)
    (hchain : path.IsChain dep) (hm : m ∈ path) (hlast : ∀ x ∈ path.getLast?, dep x m) :
    SimpleCycle dep (path.dropWhile (fun n => n ≠ m) ++ [m]) := by
  obtain ⟨l₁, l₂, rfl⟩ := List.append_of_mem hm
  have hfront : m ∉ l₁ := fun h => (List.nodup_append.mp hnd).2.2 m h m (by simp) rfl
  have hdrop : (l₁ ++ m :: l₂).dropWhile (fun n => n ≠ m) = m :: l₂ := by
    rw [List.dropWhile_append_of_pos]
    · simp
    · rintro x hx
      simpa using fun he : x = m => hfront (he ▸ hx)
  have hsuffix : (m :: l₂).IsChain dep := hchain.suffix (List.suffix_append _ _)
  have hend : ∀ x ∈ (m :: l₂).getLast?, dep x m := by
    intro x hx
    refine hlast x ?_
    rwa [List.getLast?_append_of_ne_nil _ (by simp)]
  rw [hdrop]
  exact ⟨m, l₂, rfl, (List.nodup_append.mp hnd).2.1,
    hsuffix.append (List.isChain_singleton m) (by simpa using hend)⟩

end Siesta.Lib
