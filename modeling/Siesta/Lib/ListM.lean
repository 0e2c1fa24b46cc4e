import Mathlib.Data.List.Forall2

/-!
# Loops over lists that may fail

`mapM` and `foldlM` in a monad, and the element-wise relations between their inputs and results.
-/

namespace Siesta.Lib

variable {α β γ : Type}

section

variable {m : Type → Type} [Monad m]

/-- A loop only depends on what its body does on the elements. -/
theorem mapM_congr [LawfulMonad m] {f g : α → m β} : ∀ {l : List α}, (∀ a ∈ l, f a = g a) → l.mapM f = l.mapM g := by
  intro l
  induction l with
  | nil => simp
  | cons a l ih =>
    intro h
    rw [List.mapM_cons, List.mapM_cons, h a (by simp), ih fun b hb => h b (by simp [hb])]

theorem foldlM_congr {f g : β → α → m β} : ∀ {l : List α} {b : β}, (∀ a ∈ l, ∀ b, f b a = g b a) →
    l.foldlM f b = l.foldlM g b := by
  intro l
  induction l with
  | nil => simp
  | cons a l ih =>
    intro b h
    rw [List.foldlM_cons, List.foldlM_cons, h a (by simp)]
    exact bind_congr fun c => ih fun x hx => h x (by simp [hx])

end

/-- What a loop that has ended has kept: `J done b` is about the elements it has met. -/
theorem foldlM_some_rule {f : β → α → Option β} {J : List α → β → Prop}
    (hstep : ∀ done a b b', J done b → f b a = some b' → J (done ++ [a]) b') {l : List α} {b b' : β}
    (h0 : J [] b) (h : l.foldlM f b = some b') : J l b' := by
  have key : ∀ (rest done : List α) (b : β), J done b → rest.foldlM f b = some b' → J (done ++ rest) b' := by
    intro rest
    induction rest with
    | nil =>
      intro done b hb hrun
      obtain rfl : b = b' := by simpa using hrun
      simpa using hb
    | cons a rest ih =>
      intro done b hb hrun
      rw [List.foldlM_cons] at hrun
      obtain ⟨b₁, h₁, hrun⟩ := Option.bind_eq_some_iff.mp hrun
      simpa using ih (done ++ [a]) b₁ (hstep done a b b₁ hb h₁) hrun
  simpa using key l [] b h0 h

/-- A loop that cannot fail on any element collects their images. -/
theorem mapM_eq_some {f : α → Option β} {l : List α} {l' : List β} :
    l.mapM f = some l' ↔ List.Forall₂ (fun a b => f a = some b) l l' := by
  induction l generalizing l' with
  | nil => simp [eq_comm]
  | cons a l ih =>
    rw [List.mapM_cons]
    constructor
    · intro h
      obtain ⟨b, hb, h⟩ := Option.bind_eq_some_iff.mp h
      obtain ⟨bs, hbs, h⟩ := Option.bind_eq_some_iff.mp h
      obtain rfl := Option.some.inj h
      exact .cons hb (ih.mp hbs)
    · intro h
      cases h with
      | cons hb hbs => simp [hb, ih.mpr hbs]

/-- A loop whose state does not decide whether it fails reads first and works then. -/
theorem foldlM_map_option {f : α → Option γ} {g : β → γ → β} (l : List α) (b : β) :
    l.foldlM (fun b a => (f a).map (g b)) b = (l.mapM f).map (·.foldl g b) := by
  induction l generalizing b with
  | nil => rfl
  | cons a l ih =>
    rw [List.foldlM_cons, List.mapM_cons]
    cases f a with
    | none => rfl
    | some c =>
      show l.foldlM _ (g b c) = _
      rw [ih]
      cases l.mapM f <;> rfl

theorem getLast?_forall₂ {R : α → β → Prop} {l : List α} {l' : List β} (h : List.Forall₂ R l l') :
    Option.Rel R l.getLast? l'.getLast? := by
  have hreverse := List.rel_reverse h
  rw [List.getLast?_eq_head?_reverse, List.getLast?_eq_head?_reverse]
  generalize l.reverse = r at hreverse
  generalize l'.reverse = r' at hreverse
  cases hreverse with
  | nil => exact .none
  | cons h _ => exact .some h

theorem exists_forall₂ {R : α → β → Prop} : ∀ {l : List α}, (∀ a ∈ l, ∃ b, R a b) →
    ∃ l', List.Forall₂ R l l' := by
  intro l
  induction l with
  | nil => exact fun _ => ⟨[], .nil⟩
  | cons a l ih =>
    intro h
    obtain ⟨b, hb⟩ := h a (by simp)
    obtain ⟨l', hl'⟩ := ih fun x hx => h x (by simp [hx])
    exact ⟨b :: l', .cons hb hl'⟩

theorem forall₂_imp_mem {R S : α → β → Prop} {l : List α} {l' : List β} (h : List.Forall₂ R l l')
    (himp : ∀ a ∈ l, ∀ b ∈ l', R a b → S a b) : List.Forall₂ S l l' := by
  induction h with
  | nil => exact .nil
  | @cons a b l l' hab _ ih =>
    refine .cons (himp a (by simp) b (by simp) hab) (ih fun x hx y hy => ?_)
    exact himp x (by simp [hx]) y (by simp [hy])

theorem forall₂_congr_mem {R S : α → β → Prop} {l : List α} {l' : List β}
    (h : ∀ a ∈ l, ∀ b, R a b ↔ S a b) : List.Forall₂ R l l' ↔ List.Forall₂ S l l' :=
  ⟨fun hR => forall₂_imp_mem hR fun a ha b _ => (h a ha b).mp,
    fun hS => forall₂_imp_mem hS fun a ha b _ => (h a ha b).mpr⟩

/-- A loop succeeds when its body succeeds on every element. -/
theorem exists_mapM_eq_some {f : α → Option β} {l : List α} :
    (∃ l', l.mapM f = some l') ↔ ∀ a ∈ l, ∃ b, f a = some b := by
  constructor
  · rintro ⟨l', h⟩
    induction mapM_eq_some.mp h with
    | nil => simp
    | @cons a b l l' hab hl ih =>
      intro x hx
      rcases List.mem_cons.mp hx with rfl | hx
      · exact ⟨b, hab⟩
      · exact ih (mapM_eq_some.mpr hl) x hx
  · intro h
    obtain ⟨l', hl'⟩ := exists_forall₂ h
    exact ⟨l', mapM_eq_some.mpr hl'⟩

theorem exists_triples {R : α → β → γ → Prop} {l : List α} {l' : List β}
    (h : List.Forall₂ (fun a b => ∃ c, R a b c) l l') :
    ∃ es : List (α × β × γ), es.map (fun e => e.1) = l ∧ es.map (fun e => e.2.1) = l' ∧
      ∀ e ∈ es, R e.1 e.2.1 e.2.2 := by
  induction h with
  | nil => exact ⟨[], rfl, rfl, by simp⟩
  | @cons a b l l' hab _ ih =>
    obtain ⟨c, hc⟩ := hab
    obtain ⟨es, rfl, rfl, hes⟩ := ih
    refine ⟨(a, b, c) :: es, rfl, rfl, fun e he => ?_⟩
    rcases List.mem_cons.mp he with rfl | he
    · exact hc
    · exact hes e he

theorem forall₂_concat_iff {R : α → β → Prop} {as : List α} {bs : List β} {a : α} {b : β} :
    List.Forall₂ R (as ++ [a]) (bs ++ [b]) ↔ List.Forall₂ R as bs ∧ R a b := by
  rw [← List.forall₂_reverse_iff, List.reverse_concat, List.reverse_concat, List.forall₂_cons,
    List.forall₂_reverse_iff, and_comm]

theorem forall₂_append_left {R : α → β → Prop} {l₁ l₂ : List α} {u : List β}
    (h : List.Forall₂ R (l₁ ++ l₂) u) :
    ∃ u₁ u₂, u = u₁ ++ u₂ ∧ List.Forall₂ R l₁ u₁ ∧ List.Forall₂ R l₂ u₂ := by
  induction l₁ generalizing u with
  | nil => exact ⟨[], u, rfl, .nil, h⟩
  | cons a l₁ ih =>
    cases h with
    | @cons _ b _ u hab h =>
      obtain ⟨u₁, u₂, rfl, h₁, h₂⟩ := ih h
      exact ⟨b :: u₁, u₂, rfl, .cons hab h₁, h₂⟩

theorem forall₂_flatMap_left {R : γ → β → Prop} {f : α → List γ} {l : List α} {u : List β}
    (h : List.Forall₂ R (l.flatMap f) u) :
    ∃ us : List (List β), u = us.flatten ∧ List.Forall₂ (fun a v => List.Forall₂ R (f a) v) l us := by
  induction l generalizing u with
  | nil =>
    cases h with
    | nil => exact ⟨[], rfl, .nil⟩
  | cons a l ih =>
    rw [List.flatMap_cons] at h
    obtain ⟨v, u', rfl, hv, hu'⟩ := forall₂_append_left h
    obtain ⟨us, rfl, hus⟩ := ih hu'
    exact ⟨v :: us, rfl, .cons hv hus⟩

theorem forall₂_flatMap {R : β → γ → Prop} {f : α → List β} {g : α → List γ} {l : List α}
    (h : ∀ a ∈ l, List.Forall₂ R (f a) (g a)) : List.Forall₂ R (l.flatMap f) (l.flatMap g) := by
  induction l with
  | nil => exact .nil
  | cons a l ih =>
    rw [List.flatMap_cons, List.flatMap_cons]
    exact List.rel_append (h a (by simp)) (ih fun b hb => h b (by simp [hb]))

theorem forall₂_map {R : β → γ → Prop} {f : α → β} {g : α → γ} {l : List α}
    (h : ∀ a ∈ l, R (f a) (g a)) : List.Forall₂ R (l.map f) (l.map g) := by
  rw [List.forall₂_map_left_iff, List.forall₂_map_right_iff]
  exact List.forall₂_same.mpr h

/-- An element of the first of two lists of one length has a partner. -/
theorem exists_mem_zip {l : List α} {l' : List β} (hlen : l.length = l'.length) {a : α} (ha : a ∈ l) :
    ∃ b, (a, b) ∈ l.zip l' := by
  have hfst : (l.zip l').map Prod.fst = l := List.map_fst_zip (Nat.le_of_eq hlen)
  obtain ⟨⟨a', b⟩, he, rfl⟩ := List.mem_map.mp (hfst.symm ▸ ha)
  exact ⟨b, he⟩

theorem forall₂_exists_left {R : α → β → Prop} {l : List α} {l' : List β} (h : List.Forall₂ R l l') :
    ∀ b ∈ l', ∃ a ∈ l, R a b := by
  induction h with
  | nil => simp
  | @cons a b l l' hab _ ih =>
    intro x hx
    rcases List.mem_cons.mp hx with rfl | hx
    · exact ⟨a, by simp, hab⟩
    · obtain ⟨c, hc, hcx⟩ := ih x hx
      exact ⟨c, by simp [hc], hcx⟩

theorem forall₂_exists_right {R : α → β → Prop} {l : List α} {l' : List β} (h : List.Forall₂ R l l') :
    ∀ a ∈ l, ∃ b ∈ l', R a b := by
  intro a ha
  exact forall₂_exists_left h.flip a ha

/-! ### Loops that may throw -/

section

variable {ε : Type}

theorem bind_eq_ok {x : Except ε α} {f : α → Except ε β} {b : β} :
    (x >>= f) = .ok b ↔ ∃ a, x = .ok a ∧ f a = .ok b := by
  cases x <;> simp [bind, Except.bind]

theorem exists_bind_eq_ok {x : Except ε α} {f : α → Except ε β} :
    (∃ b, (x >>= f) = .ok b) ↔ ∃ a, x = .ok a ∧ ∃ b, f a = .ok b := by
  cases x <;> simp [bind, Except.bind]

theorem bind_ne_error {x : Except ε α} {f : α → Except ε β} {e : ε} (hx : x ≠ .error e)
    (hf : ∀ a, x = .ok a → f a ≠ .error e) : (x >>= f) ≠ .error e := by
  cases x with
  | error e' => exact fun h => hx (congrArg _ (Except.error.inj h))
  | ok a => exact hf a rfl

/-- The rest of a run comes to the same where it does for each result. -/
theorem map_bind_congr {x x' : Except ε α} {f g : α → Except ε β} {h : β → γ}
    (hx : x.map (fun _ => ()) = x'.map (fun _ => ()))
    (hfg : ∀ a a', x = .ok a → x' = .ok a' → (f a).map h = (g a').map h) :
    (x >>= f).map h = (x' >>= g).map h := by
  cases x with
  | error e =>
    cases x' with
    | error e' => exact congrArg Except.error (Except.error.inj hx)
    | ok a' => cases hx
  | ok a =>
    cases x' with
    | error e' => cases hx
    | ok a' => exact hfg a a' rfl rfl

theorem map_bind_congr_left {x : Except ε α} {f g : α → Except ε β} {h : β → γ}
    (hfg : ∀ a, x = .ok a → (f a).map h = (g a).map h) : (x >>= f).map h = (x >>= g).map h :=
  map_bind_congr rfl fun a a' ha ha' => by
    obtain rfl := Except.ok.inj (ha.symm.trans ha')
    exact hfg a ha

theorem pure_eq_ok {a b : α} : (pure a : Except ε α) = .ok b ↔ a = b := by
  simp [pure, Except.pure]

theorem tryCatch_eq_ok {x : Except ε α} {handler : ε → Except ε α} {a : α} :
    tryCatch x handler = .ok a ↔ x = .ok a ∨ ∃ e, x = .error e ∧ handler e = .ok a := by
  cases x <;> simp [tryCatch, tryCatchThe, MonadExceptOf.tryCatch, Except.tryCatch]

theorem mapM_eq_ok {f : α → Except ε β} {l : List α} {l' : List β} :
    l.mapM f = .ok l' ↔ List.Forall₂ (fun a b => f a = .ok b) l l' := by
  induction l generalizing l' with
  | nil => simp [pure, Except.pure, eq_comm]
  | cons a l ih =>
    rw [List.mapM_cons, bind_eq_ok]
    constructor
    · rintro ⟨b, hb, h⟩
      obtain ⟨bs, hbs, h⟩ := bind_eq_ok.mp h
      obtain rfl := pure_eq_ok.mp h
      exact .cons hb (ih.mp hbs)
    · intro h
      cases h with
      | @cons _ b _ bs hb hbs => exact ⟨b, hb, bind_eq_ok.mpr ⟨bs, ih.mpr hbs, rfl⟩⟩

theorem exists_of_mapM_error {f : α → Except ε β} {l : List α} {e : ε} (h : l.mapM f = .error e) :
    ∃ a ∈ l, f a = .error e := by
  induction l with
  | nil => cases h
  | cons a l ih =>
    rw [List.mapM_cons] at h
    cases ha : f a with
    | error e' =>
      obtain rfl : e' = e := by simpa [ha, bind, Except.bind] using h
      exact ⟨a, List.mem_cons_self .., ha⟩
    | ok b =>
      rw [ha] at h
      cases hl : l.mapM f with
      | error e' =>
        obtain rfl : e' = e := by simpa [hl, bind, Except.bind] using h
        obtain ⟨a', ha', hf⟩ := ih hl
        exact ⟨a', List.mem_cons_of_mem _ ha', hf⟩
      | ok bs => simp [hl, bind, Except.bind, pure, Except.pure] at h

theorem exists_mapM_eq_ok {f : α → Except ε β} {l : List α} :
    (∃ l', l.mapM f = .ok l') ↔ ∀ a ∈ l, ∃ b, f a = .ok b := by
  constructor
  · rintro ⟨l', h⟩ a ha
    obtain ⟨b, -, hb⟩ := forall₂_exists_right (mapM_eq_ok.mp h) a ha
    exact ⟨b, hb⟩
  · intro h
    obtain ⟨l', hl'⟩ := exists_forall₂ h
    exact ⟨l', mapM_eq_ok.mpr hl'⟩

theorem foldlM_ok_rule {f : β → α → Except ε β} {J : β → Prop}
    (hstep : ∀ a b b', J b → f b a = .ok b' → J b') {l : List α} {b b' : β} (hb : J b)
    (h : l.foldlM f b = .ok b') : J b' := by
  induction l generalizing b with
  | nil => exact pure_eq_ok.mp h ▸ hb
  | cons a l ih =>
    rw [List.foldlM_cons] at h
    obtain ⟨b₁, h₁, h⟩ := bind_eq_ok.mp h
    exact ih (hstep a b b₁ hb h₁) h

/-- When `x` returns, `y` returns too, and `R` relates what they return. -/
def OkRel (R : α → β → Prop) (x : Except ε α) (y : Except ε β) : Prop :=
  ∀ a, x = .ok a → ∃ b, y = .ok b ∧ R a b

namespace OkRel

variable {R : α → β → Prop} {x : Except ε α} {y : Except ε β}

theorem refl (x : Except ε α) : OkRel (fun a b => x = .ok a ∧ a = b) x x := fun a ha => ⟨a, ha, ha, rfl⟩

theorem pure {a : α} {b : β} (h : R a b) : OkRel R (Pure.pure a : Except ε α) (Pure.pure b) := by
  intro a' ha
  obtain rfl := pure_eq_ok.mp ha
  exact ⟨b, rfl, h⟩

theorem bind {δ : Type} {S : γ → δ → Prop} {f : α → Except ε γ} {g : β → Except ε δ}
    (h : OkRel R x y) (hf : ∀ a b, R a b → OkRel S (f a) (g b)) : OkRel S (x >>= f) (y >>= g) := by
  intro c hc
  obtain ⟨a, ha, hc⟩ := bind_eq_ok.mp hc
  obtain ⟨b, hb, hab⟩ := h a ha
  obtain ⟨d, hd, hcd⟩ := hf a b hab c hc
  exact ⟨d, bind_eq_ok.mpr ⟨b, hb, hd⟩, hcd⟩

theorem bind_same {δ : Type} {S : γ → δ → Prop} {z : Except ε α} {f : α → Except ε γ} {g : α → Except ε δ}
    (hf : ∀ a, z = .ok a → OkRel S (f a) (g a)) : OkRel S (z >>= f) (z >>= g) :=
  (refl z).bind fun a _ h => h.2 ▸ hf a h.1

/-- Two loops over related lists: their results come in pairs, one for each pair of elements. -/
theorem mapM_zip {δ : Type} {S : α → β → γ → δ → Prop} {f : α → Except ε γ} {g : β → Except ε δ}
    {l : List α} {l' : List β} (h : List.Forall₂ (fun a b => OkRel (S a b) (f a) (g b)) l l')
    {cs : List γ} (hcs : l.mapM f = .ok cs) :
    ∃ pairs : List (γ × δ), cs = pairs.map Prod.fst ∧ l'.mapM g = .ok (pairs.map Prod.snd) ∧
      List.Forall₂ (fun e p => S e.1 e.2 p.1 p.2) (l.zip l') pairs := by
  induction h generalizing cs with
  | nil =>
    obtain rfl := pure_eq_ok.mp hcs
    exact ⟨[], rfl, rfl, .nil⟩
  | @cons a b l l' hab _ ih =>
    rw [List.mapM_cons] at hcs
    obtain ⟨c, hc, hcs⟩ := bind_eq_ok.mp hcs
    obtain ⟨rest, hrest, hcs⟩ := bind_eq_ok.mp hcs
    obtain rfl := pure_eq_ok.mp hcs
    obtain ⟨d, hd, hcd⟩ := hab c hc
    obtain ⟨pairs, rfl, hrun, hpairs⟩ := ih hrest
    refine ⟨(c, d) :: pairs, rfl, ?_, .cons hcd hpairs⟩
    rw [List.mapM_cons]
    exact bind_eq_ok.mpr ⟨d, hd, bind_eq_ok.mpr ⟨_, hrun, rfl⟩⟩

end OkRel

/-- Both results are errors, or both are values that `R` relates. -/
inductive Both (R : α → β → Prop) : Except ε α → Except ε β → Prop
  | failed (e e' : ε) : Both R (.error e) (.error e')
  | returned {a : α} {b : β} (h : R a b) : Both R (.ok a) (.ok b)

namespace Both

variable {δ : Type} {R : α → β → Prop}

theorem refl {R : α → α → Prop} (hR : ∀ a, R a a) (x : Except ε α) : Both R x x := by
  cases x with
  | error e => exact .failed e e
  | ok a => exact .returned (hR a)

theorem trans {S : β → γ → Prop} {T : α → γ → Prop} {x : Except ε α} {y : Except ε β} {z : Except ε γ}
    (hT : ∀ a b c, R a b → S b c → T a c) (h : Both R x y) (h' : Both S y z) : Both T x z := by
  cases h with
  | failed e e' =>
    cases h' with
    | failed _ e'' => exact .failed e e''
  | returned h =>
    cases h' with
    | returned h' => exact .returned (hT _ _ _ h h')

theorem bind {S : γ → δ → Prop} {x : Except ε α} {y : Except ε β} {f : α → Except ε γ}
    {g : β → Except ε δ} (h : Both R x y) (hnext : ∀ a b, R a b → Both S (f a) (g b)) :
    Both S (x.bind f) (y.bind g) := by
  cases h with
  | failed e e' => exact .failed e e'
  | returned h => exact hnext _ _ h

theorem imp {S : α → β → Prop} (hS : ∀ a b, R a b → S a b) {x : Except ε α} {y : Except ε β}
    (h : Both R x y) : Both S x y := by
  cases h with
  | failed e e' => exact .failed e e'
  | returned h => exact .returned (hS _ _ h)

theorem mapM {f : γ → Except ε α} {g : δ → Except ε β} {l : List γ} {l' : List δ}
    (h : List.Forall₂ (fun c d => Both R (f c) (g d)) l l') :
    Both (List.Forall₂ R) (l.mapM f) (l'.mapM g) := by
  induction h with
  | nil => exact .returned .nil
  | cons hfirst _ ih =>
    rw [List.mapM_cons, List.mapM_cons]
    exact hfirst.bind fun a b hab => ih.bind fun as bs hrest => .returned (.cons hab hrest)

theorem mapM_perm (f : γ → Except ε α) {l l' : List γ} (h : l.Perm l') :
    Both List.Perm (l.mapM f) (l'.mapM f) := by
  induction h with
  | nil => exact .returned (.refl _)
  | cons c _ ih =>
    rw [List.mapM_cons, List.mapM_cons]
    refine (refl (R := Eq) (fun _ => rfl) (f c)).bind ?_
    rintro a _ rfl
    exact ih.bind fun as bs hrest => .returned (hrest.cons a)
  | swap c d l =>
    rw [List.mapM_cons, List.mapM_cons, List.mapM_cons, List.mapM_cons]
    cases f c with
    | error e => cases f d <;> exact .failed _ _
    | ok a =>
      cases f d with
      | error e => exact .failed _ _
      | ok b =>
        cases l.mapM f with
        | error e => exact .failed _ _
        | ok as => exact .returned (List.Perm.swap ..)
  | trans _ _ ih ih' => exact ih.trans (fun _ _ _ h h' => h.trans h') ih'

end Both

/-- Two images of one list, filtered alike, are the same when their elements are. -/
theorem map_filter_eq_iff {δ : Type} {p : γ → Bool} {q : β → Bool} {f : α → γ} {g : α → β} {F : γ → δ}
    {G : β → δ} {l : List α} (h : ∀ a ∈ l, p (f a) = q (g a)) :
    ((l.map f).filter p).map F = ((l.map g).filter q).map G ↔
      ∀ a ∈ l, p (f a) = true → F (f a) = G (g a) := by
  induction l with
  | nil => simp
  | cons a l ih =>
    have ih := ih fun a' ha' => h a' (List.mem_cons_of_mem _ ha')
    have ha := h a (List.mem_cons_self ..)
    rw [List.forall_mem_cons, List.map_cons, List.map_cons, List.filter_cons, List.filter_cons, ← ha]
    cases hp : p (f a) with
    | true => simp only [if_true, List.map_cons, List.cons.injEq, ih, forall_const]
    | false => simp only [Bool.false_eq_true, if_false, ih, false_imp_iff, true_and]

/-- A loop whose body fails independently of what has been accumulated. -/
theorem foldlM_eq_mapM {f : α → Except ε γ} {g : β → γ → β} : ∀ (l : List α) (b : β),
    l.foldlM (fun b a => do let c ← f a; return g b c) b =
      (do let cs ← l.mapM f; return cs.foldl g b) := by
  intro l
  induction l with
  | nil => intro b; rfl
  | cons a l ih =>
    intro b
    rw [List.foldlM_cons, List.mapM_cons]
    cases f a with
    | error e => rfl
    | ok c =>
      show l.foldlM _ (g b c) = _
      rw [ih]
      cases l.mapM f <;> rfl

end

theorem forall₂_getElem? {R : α → β → Prop} {l : List α} {l' : List β} (h : List.Forall₂ R l l') {i : ℕ}
    {a : α} (hi : l[i]? = some a) : ∃ b, l'[i]? = some b ∧ R a b := by
  induction h generalizing i with
  | nil => simp at hi
  | cons hab _ ih =>
    cases i with
    | zero =>
      obtain rfl := Option.some.inj hi
      exact ⟨_, rfl, hab⟩
    | succ i => exact ih hi

/-! ### Taking the first success -/

/-- Of two ways to split a list at its first element with a property, none is ahead of the other. -/
theorem first_unique {P : α → Prop} {e₁ e₂ : α} {b₁ a₁ b₂ a₂ : List α}
    (heq : b₁ ++ e₁ :: a₁ = b₂ ++ e₂ :: a₂) (h₁ : P e₁) (h₂ : P e₂) (hb₁ : ∀ e ∈ b₁, ¬ P e)
    (hb₂ : ∀ e ∈ b₂, ¬ P e) : b₁ = b₂ ∧ e₁ = e₂ ∧ a₁ = a₂ := by
  rcases List.append_eq_append_iff.mp heq with ⟨c, rfl, hc⟩ | ⟨c, rfl, hc⟩
  · cases c with
    | nil =>
      obtain ⟨he, ha⟩ := List.cons.inj hc
      exact ⟨by simp, he, ha⟩
    | cons x c =>
      obtain ⟨rfl, -⟩ := List.cons.inj hc
      exact absurd h₁ (hb₂ e₁ (by simp))
  · cases c with
    | nil =>
      obtain ⟨he, ha⟩ := List.cons.inj hc
      exact ⟨by simp, he.symm, ha.symm⟩
    | cons x c =>
      obtain ⟨rfl, -⟩ := List.cons.inj hc
      exact absurd h₂ (hb₁ e₂ (by simp))

/-- Where an element stands that is not in the first part of a list. -/
theorem getElem?_append_cons {b a : List α} {e z : α} {i : ℕ} (h : (b ++ e :: a)[i]? = some z) (hz : z ∉ b) :
    (i = b.length ∧ e = z) ∨ ∃ j, i = b.length + (j + 1) ∧ a[j]? = some z := by
  rcases Nat.lt_trichotomy i b.length with hlt | rfl | hlt
  · rw [List.getElem?_append_left hlt] at h
    exact absurd (List.mem_of_getElem? h) hz
  · rw [List.getElem?_append_right (Nat.le_refl _), Nat.sub_self] at h
    exact .inl ⟨rfl, Option.some.inj h⟩
  · obtain ⟨j, rfl⟩ : ∃ j, i = b.length + (j + 1) := ⟨i - b.length - 1, by omega⟩
    rw [List.getElem?_append_right (by omega), Nat.add_sub_cancel_left, List.getElem?_cons_succ] at h
    exact .inr ⟨j, rfl, h⟩

/-- The first success of a loop, and the position of the element that gave it. -/
def firstSome (f : α → Option β) : List α → Option (ℕ × β)
  | [] => none
  | a :: l =>
    match f a with
    | some b => some (0, b)
    | none => (firstSome f l).map fun e => (e.1 + 1, e.2)

theorem firstSome_eq_some {f : α → Option β} {l : List α} {i : ℕ} {b : β} :
    firstSome f l = some (i, b) ↔
      (∃ a, l[i]? = some a ∧ f a = some b) ∧ ∀ j < i, ∀ a, l[j]? = some a → f a = none := by
  induction l generalizing i with
  | nil => simp [firstSome]
  | cons x l ih =>
    unfold firstSome
    cases hx : f x with
    | some c =>
      cases i with
      | zero => simp [hx]
      | succ i =>
        simp only [Option.some.injEq, Prod.mk.injEq, false_iff, not_and, reduceCtorEq, false_and]
        intro _ h
        have := h 0 (Nat.succ_pos i) x rfl
        simp [hx] at this
    | none =>
      cases i with
      | zero => simp [hx]
      | succ i =>
        have hih := ih (i := i)
        simp only [Option.map_eq_some_iff, Prod.mk.injEq, Prod.exists, List.getElem?_cons_succ]
        constructor
        · rintro ⟨i', b', h, hi, rfl⟩
          obtain rfl : i' = i := by omega
          obtain ⟨ha, hnone⟩ := hih.mp h
          refine ⟨ha, fun j hj a hja => ?_⟩
          cases j with
          | zero => simpa [← Option.some.inj hja] using hx
          | succ j => exact hnone j (by omega) a hja
        · rintro ⟨ha, hnone⟩
          refine ⟨i, b, hih.mpr ⟨ha, fun j hj a hja => ?_⟩, rfl, rfl⟩
          exact hnone (j + 1) (by omega) a hja

end Siesta.Lib
