import Siesta.Runtime.AsyncQueue

/-!
# Missed wake-ups: `async_push` and `async_poll`

A poll waits without looking at the queue, and a push wakes whoever waits at that moment.  A value
pushed when nobody waits therefore wakes nobody, and a poll made after it waits next to a value
(`async_queue_sleeps`).  What keeps the wake-ups is `Woken`: as long as some poll waits, every value
in the queue has a cancelled handler that comes for it.  A poll keeps it exactly when it is `Covered`.
-/

namespace Siesta

open Lib Relation AsyncQueue

variable {ι α : Type}

/-! ### The steps -/

inductive HandlerStep : AsyncQueue ι α → AsyncQueue ι α → Prop
  | run (s : AsyncQueue ι α) (before after : List (ι × WaitResult)) (op : ι)
      (h : s.ready = before ++ (op, .operation_aborted) :: after) :
      HandlerStep s (wait_op op .operation_aborted { s with ready := before ++ after })

/-- A push, a poll made in a state that permits it, or a cancelled handler.  The timer never expires,
and `cancel_one` does not throw. -/
inductive WakeStep (permits : AsyncQueue ι α → Prop) : AsyncQueue ι α → AsyncQueue ι α → Prop
  | push (s : AsyncQueue ι α) (value : α) (result : PushResult) (h : result ≠ .cancel_throws) :
      WakeStep permits s (async_push value result s)
  | poll (s : AsyncQueue ι α) (op : ι) (h : permits s) : WakeStep permits s (async_poll op s)
  | handler (s s' : AsyncQueue ι α) (h : HandlerStep s s') : WakeStep permits s s'

def anyState (_ : AsyncQueue ι α) : Prop := True

/-- The queue holds no more values than there are cancelled handlers still to run. -/
def Covered (s : AsyncQueue ι α) : Prop := s.queue.length ≤ s.ready.length

/-- No cancelled handler is still to run, and a poll waits next to a value. -/
def MissedWakeUp (s : AsyncQueue ι α) : Prop :=
  (∀ e ∈ s.ready, e.2 ≠ .operation_aborted) ∧ s.queue ≠ [] ∧ s.waiting ≠ []

theorem HandlerStep.queueStep {s s' : AsyncQueue ι α} (h : HandlerStep s s') : QueueStep s s' := by
  cases h with
  | run before after op hready => exact .handler s before after op .operation_aborted hready

theorem WakeStep.queueStep {permits : AsyncQueue ι α → Prop} {s s' : AsyncQueue ι α}
    (h : WakeStep permits s s') : QueueStep s s' := by
  cases h with
  | push value result _ => exact .push s value result
  | poll op _ => exact .poll s op
  | handler _ hrun => exact hrun.queueStep

/-! ### What the steps do -/

theorem cancel_one_cases (s : AsyncQueue ι α) :
    (s.waiting = [] ∧ cancel_one s = s) ∨
      ∃ op waiting, s.waiting = op :: waiting ∧
        cancel_one s = { s with waiting, ready := s.ready ++ [(op, .operation_aborted)] } := by
  unfold cancel_one
  split
  · exact .inl ⟨by assumption, rfl⟩
  · exact .inr ⟨_, _, by assumption, rfl⟩

/-- A cancelled handler takes the front of the queue, or waits again when there is none. -/
theorem wait_op_cases (s : AsyncQueue ι α) (op : ι) :
    (s.queue = [] ∧ wait_op op .operation_aborted s = async_wait op s) ∨
      ∃ value queue, s.queue = value :: queue ∧ wait_op op .operation_aborted s =
        { s with queue, completed := s.completed ++ [(op, value)] } := by
  unfold wait_op complete
  cases hqueue : s.queue with
  | nil => exact .inl ⟨rfl, by simp⟩
  | cons value queue => exact .inr ⟨value, queue, rfl, by simp⟩

/-- Only cancelled handlers are ready. -/
def OnlyCancelled (s : AsyncQueue ι α) : Prop := ∀ e ∈ s.ready, e.2 = .operation_aborted

theorem onlyCancelled_step {permits : AsyncQueue ι α → Prop} {s s' : AsyncQueue ι α}
    (hs : OnlyCancelled s) (h : WakeStep permits s s') : OnlyCancelled s' := by
  cases h with
  | push value result hresult =>
    cases result with
    | done =>
      rcases cancel_one_cases
          { s with queue := s.queue ++ [value], pushed := s.pushed ++ [value] } with
        ⟨-, heq⟩ | ⟨op, waiting, -, heq⟩
      · show OnlyCancelled (cancel_one _)
        rw [heq]
        exact hs
      · show OnlyCancelled (cancel_one _)
        rw [heq]
        intro e he
        rcases List.mem_append.mp he with he | he
        · exact hs e he
        · rw [List.mem_singleton.mp he]
    | push_throws => exact hs
    | cancel_throws => exact absurd rfl hresult
  | poll op _ => exact hs
  | handler _ hrun =>
    obtain ⟨before, after, op, hready⟩ := hrun
    have hrest : ∀ e ∈ before ++ after, e.2 = .operation_aborted := by
      intro e he
      refine hs e ?_
      rw [hready]
      rcases List.mem_append.mp he with he | he
      · exact List.mem_append_left _ he
      · exact List.mem_append_right _ (List.mem_cons_of_mem _ he)
    rcases wait_op_cases { s with ready := before ++ after } op with
      ⟨-, heq⟩ | ⟨value, queue, -, heq⟩
    · rw [heq]; exact hrest
    · rw [heq]; exact hrest

theorem onlyCancelled_run {permits : AsyncQueue ι α → Prop} {s : AsyncQueue ι α}
    (hrun : ReflTransGen (WakeStep permits) {} s) : OnlyCancelled s := by
  refine invariant (I := OnlyCancelled) (fun _ _ => onlyCancelled_step) ?_ hrun
  intro e he
  simp at he

/-! ### Every value has a handler that comes for it -/

/-- Nobody waits, or every value in the queue has a handler of its own. -/
def Woken (s : AsyncQueue ι α) : Prop := s.waiting = [] ∨ Covered s

theorem woken_push {s : AsyncQueue ι α} (hs : Woken s) (value : α) :
    Woken (async_push value .done s) := by
  show Woken (cancel_one _)
  rcases cancel_one_cases { s with queue := s.queue ++ [value], pushed := s.pushed ++ [value] } with
    ⟨hnone, heq⟩ | ⟨op, waiting, hwaiting, heq⟩
  · rw [heq]
    exact .inl hnone
  · have hcovered : s.queue.length ≤ s.ready.length := by
      rcases hs with hnone | hcovered
      · exact absurd (hnone.symm.trans hwaiting) (by simp)
      · exact hcovered
    rw [heq]
    right
    show (s.queue ++ [value]).length ≤ (s.ready ++ [(op, WaitResult.operation_aborted)]).length
    simp only [List.length_append, List.length_cons, List.length_nil]
    omega

theorem woken_handler {s s' : AsyncQueue ι α} (hs : Woken s) (h : HandlerStep s s') : Woken s' := by
  obtain ⟨before, after, op, hready⟩ := h
  have hlength : s.ready.length = (before ++ after).length + 1 := by
    rw [hready]
    simp only [List.length_append, List.length_cons]
    omega
  rcases wait_op_cases { s with ready := before ++ after } op with
    ⟨hempty, heq⟩ | ⟨value, queue, hqueue, heq⟩
  · rw [heq]
    right
    have hempty : s.queue = [] := hempty
    show s.queue.length ≤ (before ++ after).length
    rw [hempty]
    exact Nat.zero_le _
  · rw [heq]
    rcases hs with hnone | hcovered
    · exact .inl hnone
    · right
      have hqueue : s.queue = value :: queue := hqueue
      have hcovered : s.queue.length ≤ s.ready.length := hcovered
      show queue.length ≤ (before ++ after).length
      rw [hqueue, List.length_cons] at hcovered
      omega

theorem woken_step {s s' : AsyncQueue ι α} (hs : Woken s) (h : WakeStep Covered s s') : Woken s' := by
  cases h with
  | push value result hresult =>
    cases result with
    | done => exact woken_push hs value
    | push_throws => exact hs
    | cancel_throws => exact absurd rfl hresult
  | poll op hcovered => exact .inr hcovered
  | handler _ hrun => exact woken_handler hs hrun

theorem Woken.not_missedWakeUp {s : AsyncQueue ι α} (hs : Woken s) (hready : OnlyCancelled s) :
    ¬ MissedWakeUp s := by
  rintro ⟨hquiet, hqueue, hwaiting⟩
  have hnone : s.ready = [] := by
    refine List.eq_nil_iff_forall_not_mem.mpr fun e he => ?_
    exact hquiet e he (hready e he)
  rcases hs with hw | hcovered
  · exact hwaiting hw
  · have hcovered : s.queue.length ≤ s.ready.length := hcovered
    rw [hnone] at hcovered
    exact hqueue (List.length_eq_zero_iff.mp (Nat.le_zero.mp hcovered))

/-! ### A poll that is not covered -/

/-- The handlers that are ready take one value each; what is left wakes nobody. -/
theorem missedWakeUp_of_waiting : ∀ (n : ℕ) (s : AsyncQueue ι α), s.ready.length = n →
    OnlyCancelled s → n < s.queue.length → s.waiting ≠ [] →
    ∃ s', ReflTransGen HandlerStep s s' ∧ MissedWakeUp s' := by
  intro n
  induction n with
  | zero =>
    intro s hlength hready hqueue hwaiting
    have hnone : s.ready = [] := List.length_eq_zero_iff.mp hlength
    refine ⟨s, .refl, fun e he => ?_, List.ne_nil_of_length_pos hqueue, hwaiting⟩
    rw [hnone] at he
    simp at he
  | succ n ih =>
    intro s hlength hready hqueue hwaiting
    obtain ⟨⟨op, ec⟩, after, hs⟩ := List.exists_cons_of_length_eq_add_one hlength
    have hec : ec = .operation_aborted := hready (op, ec) (by rw [hs]; exact List.mem_cons_self ..)
    subst hec
    have hstep : HandlerStep s (wait_op op .operation_aborted { s with ready := after }) :=
      .run s [] after op hs
    rcases wait_op_cases { s with ready := after } op with
      ⟨hempty, -⟩ | ⟨value, queue, hcons, heq⟩
    · have hempty : s.queue = [] := hempty
      rw [hempty, List.length_nil] at hqueue
      omega
    · have hcons : s.queue = value :: queue := hcons
      rw [heq] at hstep
      rw [hs, List.length_cons] at hlength
      rw [hcons, List.length_cons] at hqueue
      have hrest : OnlyCancelled
          { s with ready := after, queue, completed := s.completed ++ [(op, value)] } :=
        fun e he => hready e (by rw [hs]; exact List.mem_cons_of_mem _ he)
      have hlength : after.length = n := by omega
      have hqueue : n < queue.length := by omega
      obtain ⟨s', hrun, hmissed⟩ := ih _ hlength hrest hqueue hwaiting
      exact ⟨s', .head hstep hrun, hmissed⟩

/-- **When no wake-up is missed.**  In a run whose polls are all covered no wake-up is missed.  After
a poll that is not, the handlers that are ready only have to run. -/
theorem missedWakeUp_iff_uncovered :
    (∀ s : AsyncQueue ι α, ReflTransGen (WakeStep Covered) {} s → ¬ MissedWakeUp s) ∧
      ∀ (s : AsyncQueue ι α) (op : ι), ReflTransGen (WakeStep anyState) {} s → ¬ Covered s →
        ∃ s', ReflTransGen HandlerStep (async_poll op s) s' ∧ MissedWakeUp s' := by
  constructor
  · intro s hrun
    have hwoken : Woken s := invariant (I := Woken) (fun _ _ => woken_step) (.inl rfl) hrun
    exact hwoken.not_missedWakeUp (onlyCancelled_run hrun)
  · intro s op hrun huncovered
    have hready : OnlyCancelled s := onlyCancelled_run hrun
    refine missedWakeUp_of_waiting s.ready.length (async_poll op s) rfl hready ?_ ?_
    · exact Nat.lt_of_not_le huncovered
    · show s.waiting ++ [op] ≠ []
      simp

/-- A value is pushed before anybody waits; the poll that comes for it sleeps. -/
theorem async_queue_sleeps : ∃ s : AsyncQueue ℕ ℕ,
    ReflTransGen (WakeStep anyState) {} s ∧ MissedWakeUp s := by
  have hrun : ReflTransGen (WakeStep anyState) ({} : AsyncQueue ℕ ℕ) _ :=
    (ReflTransGen.single (.push _ 7 .done (by decide))).tail (.poll _ 0 trivial)
  exact ⟨_, hrun, by simp [async_push, async_poll, cancel_one, async_wait], by decide, by decide⟩

end Siesta
