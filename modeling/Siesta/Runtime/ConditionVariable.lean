import Siesta.Runtime.AsyncQueue

/-!
# Waiting for a condition: `include/siesta/asio/condition_variable.hpp`

A wait is a pending wait of a timer; `notify_one` and `notify_all` cancel the oldest of them, or all.  The
handler of a cancelled wait runs any time later: it completes the wait, or, if the wait has a predicate that
does not hold, starts a new wait of the timer.  The timer of a variable made from an execution context has
expired from the start (`m_timer(ctx)`), and the one of a variable made from an executor never does.

`CondStep` is what can happen next, to the variable and to the state the predicates look at.  No wait is lost
and none completes without its reason (`waits_conserved`), plain waits are woken in their order, each
notification waking at most one (`woken_in_order`), and handlers left to run after a `notify_all` complete
exactly the waits whose predicates hold (`notify_all_completes`).  Where every change is followed by a
`notify_all` and nobody waits for what holds already, no wake-up is missed (`no_missed_wakeup`).
-/

namespace Siesta

open Lib Relation

variable {ι σ : Type}

/-- A wait; it may have a predicate on the state of the program. -/
structure Wait (ι σ : Type) where
  name : ι
  pred : Option (σ → Bool) := none

/-- An `async_condition_variable`, in a program whose state is `shared`. -/
structure ConditionVariable (ι σ : Type) where
  shared : σ
  /-- The pending waits of `m_timer`, oldest first. -/
  waiting : List (Wait ι σ) := []
  /-- The handlers of waits that have ended, which have not run yet. -/
  ready : List (Wait ι σ × WaitResult) := []
  /-- The waits that have been started, in their order. -/
  started : List (Wait ι σ) := []
  /-- The waits that have been cancelled, in their order. -/
  woken : List (Wait ι σ) := []
  /-- The waits that have completed, each with the error code for its handler and the state at that time. -/
  completed : List (Wait ι σ × WaitResult × σ) := []
  /-- The number of calls of `notify_one`. -/
  signals : ℕ := 0
  /-- The number of calls of `notify_one` that have found no wait. -/
  unheard : ℕ := 0
  /-- The number of calls of `notify_all`. -/
  broadcasts : ℕ := 0

namespace ConditionVariable

/-- `timer.async_wait`. -/
def async_wait_timer (w : Wait ι σ) (s : ConditionVariable ι σ) : ConditionVariable ι σ :=
  { s with waiting := s.waiting ++ [w] }

/-- The initiation of `async_wait`, with a predicate or without; the predicate is not looked at. -/
def async_wait (w : Wait ι σ) (s : ConditionVariable ι σ) : ConditionVariable ι σ :=
  async_wait_timer w { s with started := s.started ++ [w] }

/-- `m_timer.cancel_one`. -/
def notify_one (s : ConditionVariable ι σ) : ConditionVariable ι σ :=
  match s.waiting with
  | [] => { s with signals := s.signals + 1, unheard := s.unheard + 1 }
  | w :: waiting =>
    { s with
      waiting, ready := s.ready ++ [(w, .operation_aborted)], woken := s.woken ++ [w]
      signals := s.signals + 1 }

/-- `m_timer.cancel`. -/
def notify_all (s : ConditionVariable ι σ) : ConditionVariable ι σ :=
  { s with
    waiting := [], ready := s.ready ++ s.waiting.map fun w => (w, .operation_aborted)
    woken := s.woken ++ s.waiting, broadcasts := s.broadcasts + 1 }

def expire (s : ConditionVariable ι σ) : ConditionVariable ι σ :=
  { s with waiting := [], ready := s.ready ++ s.waiting.map fun w => (w, .expired) }

/-- `std::move(handler)(ec)`. -/
def complete (w : Wait ι σ) (ec : WaitResult) (s : ConditionVariable ι σ) : ConditionVariable ι σ :=
  { s with completed := s.completed ++ [(w, ec, s.shared)] }

/-- The condition of the `wait_op` of a plain wait, and of a wait with a predicate. -/
def fires (shared : σ) (w : Wait ι σ) (ec : WaitResult) : Bool :=
  match w.pred with
  | none => ec = .operation_aborted
  | some pred => pred shared

/-- `wait_op::operator()`. -/
def wait_op (w : Wait ι σ) (ec : WaitResult) (s : ConditionVariable ι σ) : ConditionVariable ι σ :=
  if fires s.shared w ec then complete w ec s else async_wait_timer w s

end ConditionVariable

open ConditionVariable

/-- A handler runs. -/
inductive WaitStep : ConditionVariable ι σ → ConditionVariable ι σ → Prop
  | run (s : ConditionVariable ι σ) (before after : List (Wait ι σ × WaitResult)) (w : Wait ι σ)
      (ec : WaitResult) (h : s.ready = before ++ (w, ec) :: after) :
      WaitStep s (wait_op w ec { s with ready := before ++ after })

/-- What can happen next: a call, a change of the state, any of the handlers that are ready, or the expiry of
the timer, if it can expire. -/
inductive CondStep (expires : Prop) : ConditionVariable ι σ → ConditionVariable ι σ → Prop
  | wait (s : ConditionVariable ι σ) (w : Wait ι σ) : CondStep expires s (async_wait w s)
  | notify_one (s : ConditionVariable ι σ) : CondStep expires s (notify_one s)
  | notify_all (s : ConditionVariable ι σ) : CondStep expires s (notify_all s)
  | change (s : ConditionVariable ι σ) (shared : σ) : CondStep expires s { s with shared }
  | expire (s : ConditionVariable ι σ) (h : expires) : CondStep expires s (expire s)
  | handler {s s' : ConditionVariable ι σ} (h : WaitStep s s') : CondStep expires s s'

/-! ### What the operations do -/

section Operations

variable (s : ConditionVariable ι σ)

theorem notify_one_cases :
    s.waiting = [] ∧ notify_one s = { s with signals := s.signals + 1, unheard := s.unheard + 1 } ∨
      ∃ w waiting, s.waiting = w :: waiting ∧
        notify_one s = { s with
          waiting, ready := s.ready ++ [(w, .operation_aborted)], woken := s.woken ++ [w]
          signals := s.signals + 1 } := by
  unfold notify_one
  cases hwaiting : s.waiting with
  | nil => exact .inl ⟨rfl, rfl⟩
  | cons w waiting => exact .inr ⟨w, waiting, rfl, rfl⟩

theorem wait_op_outcome (w : Wait ι σ) (ec : WaitResult) :
    fires s.shared w ec = true ∧ wait_op w ec s = { s with completed := s.completed ++ [(w, ec, s.shared)] } ∨
      fires s.shared w ec = false ∧ wait_op w ec s = { s with waiting := s.waiting ++ [w] } := by
  unfold wait_op
  cases hfires : fires s.shared w ec with
  | true => exact .inl ⟨rfl, rfl⟩
  | false => exact .inr ⟨rfl, rfl⟩

end Operations

/-! ### Every wait is in one place -/

/-- The waits that are pending, have a handler ready, or have completed. -/
def ConditionVariable.places (s : ConditionVariable ι σ) : List (Wait ι σ) :=
  s.waiting ++ s.ready.map Prod.fst ++ s.completed.map Prod.fst

theorem map_fst_ended (ready : List (Wait ι σ × WaitResult)) (waiting : List (Wait ι σ)) (ec : WaitResult) :
    (ready ++ waiting.map fun w => (w, ec)).map Prod.fst = ready.map Prod.fst ++ waiting := by
  rw [List.map_append, List.map_map]
  exact congrArg _ (List.map_id waiting)

section Count

variable [DecidableEq (Wait ι σ)] (s : ConditionVariable ι σ) (v : Wait ι σ)

theorem count_places_cond : s.places.count v =
    s.waiting.count v + (s.ready.map Prod.fst).count v + (s.completed.map Prod.fst).count v := by
  rw [places, List.count_append, List.count_append]

theorem count_notify_one : (notify_one s).places.count v = s.places.count v := by
  rcases notify_one_cases s with ⟨-, h⟩ | ⟨w, waiting, hwaiting, h⟩
  · rw [h]
    rfl
  · rw [h, count_places_cond, count_places_cond, hwaiting]
    simp only [List.map_append, List.map_cons, List.map_nil, List.count_append, List.count_cons, List.count_nil]
    omega

theorem count_handler (w : Wait ι σ) (ec : WaitResult) :
    (wait_op w ec s).places.count v = s.places.count v + [w].count v := by
  rcases wait_op_outcome s w ec with ⟨-, h⟩ | ⟨-, h⟩
  · rw [h, count_places_cond, count_places_cond]
    simp only [List.map_append, List.map_cons, List.map_nil, List.count_append]
    omega
  · rw [h, count_places_cond, count_places_cond]
    simp only [List.count_append]
    omega

end Count

/-- Each wait is in one place, and the completed ones have their reason. -/
structure Conserved (s : ConditionVariable ι σ) : Prop where
  places : s.places.Perm s.started
  reason : ∀ c ∈ s.completed, fires c.2.2 c.1 c.2.1 = true

theorem started_wait_op (s : ConditionVariable ι σ) (w : Wait ι σ) (ec : WaitResult) :
    (wait_op w ec s).started = s.started := by
  rcases wait_op_outcome s w ec with ⟨-, h⟩ | ⟨-, h⟩ <;> rw [h]

theorem conserved_step {expires : Prop} {s s' : ConditionVariable ι σ} (hs : Conserved s)
    (h : CondStep expires s s') : Conserved s' := by
  classical
  have hcount : ∀ v, s.places.count v = s.started.count v := List.perm_iff_count.mp hs.places
  cases h with
  | wait w =>
    refine ⟨List.perm_iff_count.mpr fun v => ?_, hs.reason⟩
    have hold := hcount v
    rw [count_places_cond] at hold ⊢
    simp only [async_wait, async_wait_timer, List.count_append]
    omega
  | notify_one =>
    rcases notify_one_cases s with ⟨-, h⟩ | ⟨w, waiting, hwaiting, h⟩
    · rw [h]
      exact ⟨hs.places, hs.reason⟩
    · refine ⟨List.perm_iff_count.mpr fun v => ?_, ?_⟩
      · rw [count_notify_one, hcount, h]
      · rw [h]
        exact hs.reason
  | notify_all =>
    refine ⟨List.perm_iff_count.mpr fun v => ?_, hs.reason⟩
    have hold := hcount v
    rw [count_places_cond] at hold ⊢
    simp only [notify_all, map_fst_ended, List.count_append, List.count_nil]
    omega
  | change shared => exact ⟨hs.places, hs.reason⟩
  | expire hexpires =>
    refine ⟨List.perm_iff_count.mpr fun v => ?_, hs.reason⟩
    have hold := hcount v
    rw [count_places_cond] at hold ⊢
    simp only [expire, map_fst_ended, List.count_append, List.count_nil]
    omega
  | handler hrun =>
    obtain ⟨before, after, w, ec, hready⟩ := hrun
    refine ⟨List.perm_iff_count.mpr fun v => ?_, ?_⟩
    · rw [count_handler, started_wait_op, ← hcount v, count_places_cond, count_places_cond, hready]
      simp only [List.map_append, List.map_cons, List.count_append, List.count_cons, List.count_nil]
      omega
    · rcases wait_op_outcome { s with ready := before ++ after } w ec with ⟨hfires, h⟩ | ⟨-, h⟩
      · rw [h]
        intro c hc
        rcases List.mem_append.mp hc with hc | hc
        · exact hs.reason c hc
        · obtain rfl := List.mem_singleton.mp hc
          exact hfires
      · rw [h]
        exact hs.reason

theorem conserved_of_run {expires : Prop} {shared : σ} {s : ConditionVariable ι σ}
    (hrun : ReflTransGen (CondStep expires) { shared } s) : Conserved s :=
  invariant (I := Conserved) (fun _ _ => conserved_step)
    ⟨.refl _, fun _ hc => absurd hc List.not_mem_nil⟩ hrun

/-- **No wait is lost, and none completes without its reason.**  In every order of calls, changes, handlers and
expiries, each wait is in one place, pending, ready or completed; a plain wait has completed by a notification,
and a wait with a predicate in a state in which it held. -/
theorem waits_conserved {expires : Prop} {shared : σ} {s : ConditionVariable ι σ}
    (hrun : ReflTransGen (CondStep expires) { shared } s) :
    s.places.Perm s.started ∧ ∀ c ∈ s.completed,
      (c.1.pred = none → c.2.1 = .operation_aborted) ∧ ∀ pred, c.1.pred = some pred → pred c.2.2 = true := by
  have hs : Conserved s := conserved_of_run hrun
  refine ⟨hs.places, fun c hc => ?_⟩
  have hreason := hs.reason c hc
  unfold fires at hreason
  constructor
  · intro hpred
    rw [hpred] at hreason
    exact of_decide_eq_true hreason
  · intro pred hpred
    rw [hpred] at hreason
    exact hreason

def onFlag : Wait ℕ Bool := ⟨0, some id⟩

/-- A notification comes too early, the wait starts again, and the next one finds that the flag is set. -/
theorem waits_conserved_early : ∃ s : ConditionVariable ℕ Bool,
    ReflTransGen (CondStep False) { shared := false } s ∧
      s.completed = [(onFlag, .operation_aborted, true)] ∧ s.places.Perm s.started := by
  have hrun : ReflTransGen (CondStep False) ({ shared := false } : ConditionVariable ℕ Bool) _ :=
    (((((ReflTransGen.single (.wait _ onFlag)).tail (.notify_one _)).tail
      (.handler (.run _ [] [] onFlag .operation_aborted rfl))).tail (.change _ true)).tail
      (.notify_all _)).tail (.handler (.run _ [] [] onFlag .operation_aborted rfl))
  exact ⟨_, hrun, rfl, (waits_conserved hrun).1⟩

/-! ### The order of plain waits -/

/-- The waits without predicates, on a timer that does not expire. -/
structure InOrder (s : ConditionVariable ι σ) : Prop where
  order : s.woken ++ s.waiting = s.started
  cancelled : ∀ e ∈ s.ready, e.2 = .operation_aborted
  answered : (s.ready.map Prod.fst ++ s.completed.map Prod.fst).Perm s.woken
  heard : s.broadcasts = 0 → s.woken.length + s.unheard = s.signals

theorem started_subset {expires : Prop} {s s' : ConditionVariable ι σ} (h : CondStep expires s s') :
    ∀ w ∈ s.started, w ∈ s'.started := by
  cases h with
  | wait w => exact fun v hv => List.mem_append_left _ hv
  | notify_one =>
    rcases notify_one_cases s with ⟨-, h⟩ | ⟨w, waiting, -, h⟩ <;> rw [h] <;> exact fun v hv => hv
  | notify_all => exact fun v hv => hv
  | change shared => exact fun v hv => hv
  | expire hexpires => exact fun v hv => hv
  | handler hrun =>
    obtain ⟨before, after, w, ec, hready⟩ := hrun
    rw [started_wait_op]
    exact fun v hv => hv

theorem inOrder_step {s s' : ConditionVariable ι σ} (hs : (∀ w ∈ s.started, w.pred = none) → InOrder s)
    (h : CondStep False s s') (hplain : ∀ w ∈ s'.started, w.pred = none) : InOrder s' := by
  have hplain₀ : ∀ w ∈ s.started, w.pred = none := fun w hw => hplain w (started_subset h w hw)
  obtain ⟨horder, hcancelled, hanswered, hheard⟩ := hs hplain₀
  cases h with
  | wait w =>
    refine ⟨?_, hcancelled, hanswered, hheard⟩
    show s.woken ++ (s.waiting ++ [w]) = s.started ++ [w]
    rw [← List.append_assoc, horder]
  | notify_one =>
    rcases notify_one_cases s with ⟨-, h⟩ | ⟨w, waiting, hwaiting, h⟩
    · rw [h]
      refine ⟨horder, hcancelled, hanswered, fun hnone => ?_⟩
      have hold := hheard hnone
      show s.woken.length + (s.unheard + 1) = s.signals + 1
      omega
    · rw [h]
      refine ⟨?_, fun e he => ?_, ?_, fun hnone => ?_⟩
      · show s.woken ++ [w] ++ waiting = s.started
        rw [← horder, hwaiting, List.append_assoc, List.singleton_append]
      · rcases List.mem_append.mp he with he | he
        · exact hcancelled e he
        · obtain rfl := List.mem_singleton.mp he
          rfl
      · show ((s.ready ++ [(w, WaitResult.operation_aborted)]).map Prod.fst ++ s.completed.map Prod.fst).Perm
          (s.woken ++ [w])
        rw [List.map_append, List.append_assoc]
        refine List.Perm.trans (List.Perm.append_left _ List.perm_append_comm) ?_
        rw [← List.append_assoc]
        exact hanswered.append_right _
      · have hold := hheard hnone
        show (s.woken ++ [w]).length + s.unheard = s.signals + 1
        rw [List.length_append, List.length_singleton]
        omega
  | notify_all =>
    refine ⟨?_, fun e he => ?_, ?_, fun hnone => absurd hnone (Nat.succ_ne_zero _)⟩
    · show s.woken ++ s.waiting ++ [] = s.started
      rw [List.append_nil, horder]
    · rcases List.mem_append.mp he with he | he
      · exact hcancelled e he
      · obtain ⟨w, -, rfl⟩ := List.mem_map.mp he
        rfl
    · show ((s.ready ++ s.waiting.map _).map Prod.fst ++ s.completed.map Prod.fst).Perm (s.woken ++ s.waiting)
      rw [map_fst_ended, List.append_assoc]
      refine List.Perm.trans (List.Perm.append_left _ List.perm_append_comm) ?_
      rw [← List.append_assoc]
      exact hanswered.append_right _
  | change shared => exact ⟨horder, hcancelled, hanswered, hheard⟩
  | expire hexpires => exact absurd hexpires id
  | handler hrun =>
    obtain ⟨before, after, w, ec, hready⟩ := hrun
    have hmem : (w, ec) ∈ s.ready := by
      rw [hready]
      exact List.mem_append_right _ (List.mem_cons_self ..)
    have hwoken : w ∈ s.woken := hanswered.subset (List.mem_append_left _ (List.mem_map_of_mem hmem))
    have hfires : fires s.shared w ec = true := by
      unfold fires
      rw [hplain₀ w (by rw [← horder]; exact List.mem_append_left _ hwoken)]
      exact decide_eq_true (hcancelled (w, ec) hmem)
    rcases wait_op_outcome { s with ready := before ++ after } w ec with ⟨-, h⟩ | ⟨hsleeps, -⟩
    · rw [h]
      refine ⟨horder, fun e he => hcancelled e ?_, ?_, hheard⟩
      · rw [hready]
        exact (List.mem_append.mp he).elim (List.mem_append_left _) fun he =>
          List.mem_append_right _ (List.mem_cons_of_mem _ he)
      · refine List.Perm.trans ?_ hanswered
        show ((before ++ after).map Prod.fst ++ (s.completed ++ [(w, ec, s.shared)]).map Prod.fst).Perm _
        rw [hready]
        simp only [List.map_append, List.map_cons, List.map_nil, List.append_assoc]
        refine List.Perm.append_left _ ?_
        rw [← List.append_assoc]
        exact List.perm_append_singleton _ _
    · exact absurd (hfires.symm.trans hsleeps) (by decide)

/-- **Plain waits are woken in their order.**  On a timer that does not expire, the waits that have been
woken are the first that were started, each once; each of them has completed or has its handler ready; and
each call of `notify_one` has woken one of them, except for those that have found none. -/
theorem woken_in_order {shared : σ} {s : ConditionVariable ι σ}
    (hrun : ReflTransGen (CondStep False) { shared } s) (hplain : ∀ w ∈ s.started, w.pred = none) :
    s.woken ++ s.waiting = s.started ∧ (s.ready.map Prod.fst ++ s.completed.map Prod.fst).Perm s.woken ∧
      (s.broadcasts = 0 → s.woken.length + s.unheard = s.signals) := by
  have hstart : InOrder ({ shared } : ConditionVariable ι σ) :=
    ⟨rfl, fun e he => absurd he List.not_mem_nil, .refl _, fun _ => rfl⟩
  have hs := invariant (I := fun s : ConditionVariable ι σ => (∀ w ∈ s.started, w.pred = none) → InOrder s)
    (fun _ _ hs hstep => inOrder_step hs hstep) (fun _ => hstart) hrun hplain
  exact ⟨hs.order, hs.answered, hs.heard⟩

/-- Of two waits, a notification wakes the first. -/
theorem woken_in_order_two : ∃ s : ConditionVariable ℕ Unit,
    ReflTransGen (CondStep False) { shared := () } s ∧ s.waiting = [⟨1, none⟩] ∧
      s.woken ++ s.waiting = s.started := by
  have hrun : ReflTransGen (CondStep False) ({ shared := () } : ConditionVariable ℕ Unit) _ :=
    ((ReflTransGen.single (.wait _ ⟨0, none⟩)).tail (.wait _ ⟨1, none⟩)).tail (.notify_one _)
  refine ⟨_, hrun, rfl, (woken_in_order hrun fun w hw => ?_).1⟩
  have hw : w ∈ [⟨0, none⟩, ⟨1, none⟩] := hw
  rcases List.mem_pair.mp hw with rfl | rfl <;> rfl

/-! ### Handlers left to run -/

/-- What there is once the handlers that are ready have run: the completed waits, and those that wait again. -/
def ConditionVariable.due (s : ConditionVariable ι σ) : List (Wait ι σ × WaitResult × σ) :=
  s.completed ++ (s.ready.filter fun e => fires s.shared e.1 e.2).map fun e => (e.1, e.2, s.shared)

def ConditionVariable.left (s : ConditionVariable ι σ) : List (Wait ι σ) :=
  s.waiting ++ (s.ready.filter fun e => !fires s.shared e.1 e.2).map Prod.fst

theorem due_waitStep {s s' : ConditionVariable ι σ} (h : WaitStep s s') :
    s'.shared = s.shared ∧ s'.due.Perm s.due ∧ s'.left.Perm s.left := by
  obtain ⟨before, after, w, ec, hready⟩ := h
  rcases wait_op_outcome { s with ready := before ++ after } w ec with ⟨hfires, h⟩ | ⟨hsleeps, h⟩
  · have hfires : fires s.shared w ec = true := hfires
    rw [h]
    refine ⟨rfl, ?_, ?_⟩
    · simp only [due, hready, List.filter_append, List.filter_cons, hfires, if_true, List.map_append,
        List.map_cons, List.append_assoc, List.singleton_append]
      exact List.Perm.append_left _ List.perm_middle.symm
    · have hsame : (s.ready.filter fun e => !fires s.shared e.1 e.2) =
          (before ++ after).filter fun e => !fires s.shared e.1 e.2 := by
        simp [hready, hfires]
      simp only [left, hsame]
      exact .refl _
  · have hsleeps : fires s.shared w ec = false := hsleeps
    rw [h]
    refine ⟨rfl, ?_, ?_⟩
    · have hsame : (s.ready.filter fun e => fires s.shared e.1 e.2) =
          (before ++ after).filter fun e => fires s.shared e.1 e.2 := by
        simp [hready, hsleeps]
      simp only [due, hsame]
      exact .refl _
    · simp only [left, hready, List.filter_append, List.filter_cons, hsleeps, Bool.not_false, if_true,
        List.map_append, List.map_cons, List.append_assoc, List.singleton_append]
      exact List.Perm.append_left _ List.perm_middle.symm

theorem exists_quiet (s : ConditionVariable ι σ) : ∃ s', ReflTransGen WaitStep s s' ∧ s'.ready = [] := by
  have hrun : ∀ (n : ℕ) (s : ConditionVariable ι σ), s.ready.length = n →
      ∃ s', ReflTransGen WaitStep s s' ∧ s'.ready = [] := by
    intro n
    induction n with
    | zero => exact fun s hlength => ⟨s, .refl, List.length_eq_zero_iff.mp hlength⟩
    | succ n ih =>
      intro s hlength
      obtain ⟨⟨w, ec⟩, after, hready⟩ := List.exists_cons_of_length_eq_add_one hlength
      have hrest : (wait_op w ec { s with ready := after }).ready = after := by
        rcases wait_op_outcome { s with ready := after } w ec with ⟨-, h⟩ | ⟨-, h⟩ <;> rw [h]
      obtain ⟨s', hrun, hquiet⟩ := ih (wait_op w ec { s with ready := after }) (by
        rw [hrest]
        rw [hready, List.length_cons] at hlength
        omega)
      exact ⟨s', .head (.run s [] after w ec hready) hrun, hquiet⟩
  exact hrun _ s rfl

/-- **What a `notify_all` comes to.**  The handlers that are ready then can all run, and in whatever order they
do, exactly the waits complete whose predicates hold, each once, and all others are pending again. -/
theorem notify_all_completes (s : ConditionVariable ι σ) :
    (∃ s', ReflTransGen WaitStep (notify_all s) s' ∧ s'.ready = []) ∧
      ∀ s', ReflTransGen WaitStep (notify_all s) s' → s'.ready = [] →
        s'.completed.Perm (notify_all s).due ∧ s'.waiting.Perm (notify_all s).left := by
  refine ⟨exists_quiet _, fun s' hrun hquiet => ?_⟩
  have hkept : ∀ s', ReflTransGen WaitStep (notify_all s) s' →
      s'.due.Perm (notify_all s).due ∧ s'.left.Perm (notify_all s).left := by
    intro s' hrun
    induction hrun with
    | refl => exact ⟨.refl _, .refl _⟩
    | tail _ hlast ih =>
      obtain ⟨-, hdue, hleft⟩ := due_waitStep hlast
      exact ⟨hdue.trans ih.1, hleft.trans ih.2⟩
  obtain ⟨hdue, hleft⟩ := hkept s' hrun
  constructor
  · simpa [due, hquiet] using hdue
  · simpa [left, hquiet] using hleft

/-! ### The discipline of a monitor -/

/-- Every change is followed by a `notify_all`, and nobody starts to wait for a predicate that holds. -/
inductive MonitorStep (expires : Prop) : ConditionVariable ι σ → ConditionVariable ι σ → Prop
  | wait (s : ConditionVariable ι σ) (w : Wait ι σ) (h : ∀ pred, w.pred = some pred → pred s.shared = false) :
      MonitorStep expires s (async_wait w s)
  | notify_one (s : ConditionVariable ι σ) : MonitorStep expires s (notify_one s)
  | change (s : ConditionVariable ι σ) (shared : σ) : MonitorStep expires s (notify_all { s with shared })
  | expire (s : ConditionVariable ι σ) (h : expires) : MonitorStep expires s (expire s)
  | handler {s s' : ConditionVariable ι σ} (h : WaitStep s s') : MonitorStep expires s s'

theorem MonitorStep.condSteps {expires : Prop} {s s' : ConditionVariable ι σ} (h : MonitorStep expires s s') :
    ReflTransGen (CondStep expires) s s' := by
  cases h with
  | wait w h => exact .single (.wait s w)
  | notify_one => exact .single (.notify_one s)
  | change shared => exact (ReflTransGen.single (.change s shared)).tail (.notify_all _)
  | expire h => exact .single (.expire s h)
  | handler h => exact .single (.handler h)

def Asleep (s : ConditionVariable ι σ) : Prop :=
  ∀ w ∈ s.waiting, ∀ pred, w.pred = some pred → pred s.shared = false

theorem asleep_step {expires : Prop} {s s' : ConditionVariable ι σ} (hs : Asleep s)
    (h : MonitorStep expires s s') : Asleep s' := by
  cases h with
  | wait w hw =>
    intro v hv
    rcases List.mem_append.mp hv with hv | hv
    · exact hs v hv
    · obtain rfl := List.mem_singleton.mp hv
      exact hw
  | notify_one =>
    rcases notify_one_cases s with ⟨-, h⟩ | ⟨w, waiting, hwaiting, h⟩
    · rw [h]
      exact hs
    · rw [h]
      exact fun v hv => hs v (by rw [hwaiting]; exact List.mem_cons_of_mem _ hv)
  | change shared => exact fun v hv => absurd hv List.not_mem_nil
  | expire hexpires => exact fun v hv => absurd hv List.not_mem_nil
  | handler hrun =>
    obtain ⟨before, after, w, ec, hready⟩ := hrun
    rcases wait_op_outcome { s with ready := before ++ after } w ec with ⟨-, h⟩ | ⟨hsleeps, h⟩
    · rw [h]
      exact hs
    · rw [h]
      intro v hv
      rcases List.mem_append.mp hv with hv | hv
      · exact hs v hv
      · obtain rfl := List.mem_singleton.mp hv
        intro pred hpred
        unfold fires at hsleeps
        rw [hpred] at hsleeps
        exact hsleeps

/-- **No wake-up is missed.**  Where every change is followed by a `notify_all`, and nobody starts to wait for
what holds already, each wait has completed once no handler is left to run, or it is pending and what it waits
for does not hold. -/
theorem no_missed_wakeup {expires : Prop} {shared : σ} {s : ConditionVariable ι σ}
    (hrun : ReflTransGen (MonitorStep expires) { shared } s) (hquiet : s.ready = []) :
    ∀ w ∈ s.started, w ∈ s.completed.map Prod.fst ∨
      w ∈ s.waiting ∧ ∀ pred, w.pred = some pred → pred s.shared = false := by
  have hasleep : Asleep s :=
    invariant (I := Asleep) (fun _ _ => asleep_step) (fun w hw => absurd hw List.not_mem_nil) hrun
  have hcond : ReflTransGen (CondStep expires) { shared } s := by
    clear hquiet hasleep
    induction hrun with
    | refl => exact .refl
    | tail _ hlast ih => exact ih.trans hlast.condSteps
  intro w hw
  have hplace := (conserved_of_run hcond).places.symm.subset hw
  unfold ConditionVariable.places at hplace
  rw [hquiet, List.map_nil, List.append_nil] at hplace
  rcases List.mem_append.mp hplace with hwaiting | hcompleted
  · exact .inr ⟨hwaiting, hasleep w hwaiting⟩
  · exact .inl hcompleted

/-- The flag is set, and the wait for it completes. -/
theorem no_missed_wakeup_flag : ∃ s : ConditionVariable ℕ Bool,
    ReflTransGen (MonitorStep False) { shared := false } s ∧ s.started = [onFlag] ∧
      ∀ w ∈ s.started, w ∈ s.completed.map Prod.fst ∨
        w ∈ s.waiting ∧ ∀ pred, w.pred = some pred → pred s.shared = false := by
  have hrun : ReflTransGen (MonitorStep False) ({ shared := false } : ConditionVariable ℕ Bool) _ :=
    ((ReflTransGen.single (.wait _ onFlag fun pred hpred => by cases hpred; rfl)).tail (.change _ true)).tail
      (.handler (.run _ [] [] onFlag .operation_aborted rfl))
  exact ⟨_, hrun, rfl, no_missed_wakeup hrun rfl⟩

end Siesta
