import Mathlib.Data.List.Basic
import Mathlib.Data.List.Nodup

/-!
# Acyclic sets of definitions

A set of named definitions that refer to each other without a cycle is a list in which each refers
to later ones only (`Scoped`).  `define body` is the function the definitions give when `body` says
what one definition means in terms of the names it refers to; it satisfies the equation one would
write for it as a recursive function over all the definitions (`define_eq`).
-/

namespace Siesta.Lib

variable {κ δ β : Type} [DecidableEq κ]

/-- No name is defined twice, and a definition refers to definitions behind it in the list. -/
def Scoped (name : δ → κ) (refs : δ → List κ) : List δ → Prop
  | [] => True
  | d :: ds =>
    name d ∉ ds.map name ∧ (∀ n ∈ refs d, n ∈ ds.map name) ∧ Scoped name refs ds

instance (name : δ → κ) (refs : δ → List κ) : ∀ ds, Decidable (Scoped name refs ds)
  | [] => inferInstanceAs (Decidable True)
  | d :: ds =>
    have := instDecidableScoped name refs ds
    inferInstanceAs (Decidable (name d ∉ ds.map name ∧ (∀ n ∈ refs d, n ∈ ds.map name) ∧ _))

/-- The definition of a name. -/
def lookupDef (name : δ → κ) (ds : List δ) (n : κ) : Option δ := ds.find? fun d => name d = n

/-- What a name means, given what one definition means. -/
def define (name : δ → κ) (body : (κ → β) → δ → β) (undefined : β) : List δ → κ → β
  | [], _ => undefined
  | d :: ds, n =>
    if name d = n then body (define name body undefined ds) d else define name body undefined ds n

section

variable {name : δ → κ} {refs : δ → List κ} {ds : List δ}

theorem lookupDef_cons (d : δ) (ds : List δ) (n : κ) :
    lookupDef name (d :: ds) n = if name d = n then some d else lookupDef name ds n := by
  unfold lookupDef
  by_cases h : name d = n <;> simp [h]

theorem name_of_lookupDef {d : δ} {n : κ} (h : lookupDef name ds n = some d) : name d = n := by
  simpa using List.find?_some h

theorem mem_of_lookupDef {d : δ} {n : κ} (h : lookupDef name ds n = some d) : d ∈ ds :=
  List.mem_of_find?_eq_some h

theorem lookupDef_of_mem {n : κ} (h : n ∈ ds.map name) : ∃ d, lookupDef name ds n = some d := by
  obtain ⟨d, hd, rfl⟩ := List.mem_map.mp h
  refine Option.isSome_iff_exists.mp (List.find?_isSome.mpr ⟨d, hd, by simp⟩)

omit [DecidableEq κ] in
theorem Scoped.refs_mem (hs : Scoped name refs ds) {d : δ} (hd : d ∈ ds) :
    ∀ n ∈ refs d, n ∈ ds.map name := by
  induction ds with
  | nil => simp at hd
  | cons e ds ih =>
    intro n hn
    rw [List.map_cons, List.mem_cons]
    rcases List.mem_cons.mp hd with rfl | hd
    · exact .inr (hs.2.1 n hn)
    · exact .inr (ih hs.2.2 hd n hn)

/-- **The induction over an acyclic set.**  What holds of a name once it holds of the names its
definition refers to holds of every defined name. -/
theorem Scoped.induction {C : κ → Prop} (hs : Scoped name refs ds)
    (h : ∀ d n, lookupDef name ds n = some d → (∀ m ∈ refs d, C m) → C n) :
    ∀ n ∈ ds.map name, C n := by
  induction ds with
  | nil => simp
  | cons e ds ih =>
    have hds : ∀ n ∈ ds.map name, C n := by
      refine ih hs.2.2 fun d n hd hm => h d n ?_ hm
      have hn : n ∈ ds.map name :=
        List.mem_map.mpr ⟨d, mem_of_lookupDef hd, name_of_lookupDef hd⟩
      rw [lookupDef_cons, if_neg (fun he : name e = n => hs.1 (he ▸ hn)), hd]
    intro n hn
    rcases List.mem_cons.mp hn with rfl | hn
    · refine h e (name e) ?_ fun m hm => hds m (hs.2.1 m hm)
      rw [lookupDef_cons, if_pos rfl]
    · exact hds n hn

/-- `define` satisfies its recursion equation, if `body` asks for the names it refers to only. -/
theorem define_eq {body : (κ → β) → δ → β} {undefined : β}
    (hlocal : ∀ d ∈ ds, ∀ f g, (∀ n ∈ refs d, f n = g n) → body f d = body g d)
    (hs : Scoped name refs ds) {d : δ} {n : κ} (h : lookupDef name ds n = some d) :
    define name body undefined ds n = body (define name body undefined ds) d := by
  induction ds with
  | nil => simp [lookupDef] at h
  | cons e ds ih =>
    have hskip : ∀ m ∈ ds.map name,
        define name body undefined ds m = define name body undefined (e :: ds) m := by
      intro m hm
      rw [define, if_neg (fun he : name e = m => hs.1 (he ▸ hm))]
    rw [lookupDef_cons] at h
    rw [define]
    split at h
    · rename_i hn
      obtain rfl := Option.some.inj h
      rw [if_pos hn]
      exact hlocal e (by simp) _ _ fun m hm => hskip m (hs.2.1 m hm)
    · rename_i hn
      rw [if_neg hn, ih (fun d hd => hlocal d (List.mem_cons_of_mem _ hd)) hs.2.2 h]
      exact hlocal d (List.mem_cons_of_mem _ (mem_of_lookupDef h)) _ _ fun m hm =>
        hskip m (hs.2.2.refs_mem (mem_of_lookupDef h) m hm)

end

end Siesta.Lib
