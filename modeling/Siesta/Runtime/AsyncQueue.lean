import Siesta.Lib.Runs
import Mathlib.Data.List.Perm.Basic

/-!
# The queue between producers and consumers: `include/siesta/asio/queue.hpp`

A poll waits on a timer that never fires; a push cancels the oldest wait, and the cancelled handler
takes a value when it runs, which may be any time later.  `QueueStep` is what can happen next, and
`FifoStep` what a queue is for.  Every run of the one is a run of the other (`queue_refines`), so the
values come out in the order they went in (`async_queue_fifo`).
-/

namespace Siesta

open Lib Relation

variable {ι α : Type}

/-! ### A queue -/

/-- The values that have gone in, those that have come out, and those still inside. -/
structure Fifo (α : Type) where
  pushed : List α
  delivered : List α
  content : List α

inductive FifoStep : Fifo α → Fifo α → Prop
  | push (q : Fifo α) (v : α) :
      FifoStep q { q with pushed := q.pushed ++ [v], content := q.content ++ [v] }
  | deliver (q : Fifo α) (v : α) (rest : List α) (h : q.content = v :: rest) :
      FifoStep q { q with delivered := q.delivered ++ [v], content := rest }

def Fifo.empty : Fifo α := ⟨[], [], []⟩

theorem fifo_order {q : Fifo α} (hrun : ReflTransGen FifoStep Fifo.empty q) :
    q.delivered ++ q.content = q.pushed := by
  refine invariant (I := fun q : Fifo α => q.delivered ++ q.content = q.pushed) ?_ rfl hrun
  intro q q' h hstep
  cases hstep with
  | push v =>
    show q.delivered ++ (q.content ++ [v]) = q.pushed ++ [v]
    rw [← List.append_assoc, h]
  | deliver v rest hcontent =>
    show q.delivered ++ [v] ++ rest = q.pushed
    rw [← h, hcontent, List.append_assoc, List.singleton_append]

/-! ### `async_queue` -/

inductive WaitResult where
  | operation_aborted
  /-- Any other code; the timer has expired. -/
  | expired
  deriving DecidableEq

/-- How the `try` block of a push ends. -/
inductive PushResult where
  | done
  /-- `_queue.push` throws, and the queue is as it was. -/
  | push_throws
  /-- `_timer.cancel_one` throws. -/
  | cancel_throws
  deriving DecidableEq

/-- An `async_queue`; the polls are named by `ι`. -/
structure AsyncQueue (ι α : Type) where
  /-- `_queue`, front first. -/
  queue : List α := []
  /-- The pending waits of `_timer`, oldest first. -/
  waiting : List ι := []
  /-- The handlers of waits that have ended, which have not run yet. -/
  ready : List (ι × WaitResult) := []
  /-- A value was taken from an empty queue. -/
  underflow : Bool := false
  /-- The values that have been pushed, in their order. -/
  pushed : List α := []
  /-- The polls that have been started. -/
  polled : List ι := []
  /-- The polls that have completed, each with its value, in their order. -/
  completed : List (ι × α) := []

namespace AsyncQueue

/-- `_timer.async_wait`. -/
def async_wait (op : ι) (s : AsyncQueue ι α) : AsyncQueue ι α := { s with waiting := s.waiting ++ [op] }

/-- `_timer.cancel_one`. -/
def cancel_one (s : AsyncQueue ι α) : AsyncQueue ι α :=
  match s.waiting with
  | [] => s
  | op :: waiting => { s with waiting, ready := s.ready ++ [(op, .operation_aborted)] }

/-- The initiation of `async_push`. -/
def async_push (value : α) (result : PushResult) (s : AsyncQueue ι α) : AsyncQueue ι α :=
  match result with
  | .push_throws => s
  | .cancel_throws => { s with queue := s.queue ++ [value], pushed := s.pushed ++ [value] }
  | .done => cancel_one { s with queue := s.queue ++ [value], pushed := s.pushed ++ [value] }

/-- The initiation of `async_poll`. -/
def async_poll (op : ι) (s : AsyncQueue ι α) : AsyncQueue ι α :=
  async_wait op { s with polled := s.polled ++ [op] }

/-- `_queue.front`, `_queue.pop` and the handler of the poll. -/
def complete (op : ι) (s : AsyncQueue ι α) : AsyncQueue ι α :=
  match s.queue with
  | [] => { s with underflow := true }
  | value :: queue => { s with queue, completed := s.completed ++ [(op, value)] }

/-- `wait_op::operator()`. -/
def wait_op (op : ι) (ec : WaitResult) (s : AsyncQueue ι α) : AsyncQueue ι α :=
  if ec ≠ .operation_aborted then async_wait op s
  else if s.queue.isEmpty then async_wait op s
  else complete op s

def expire (s : AsyncQueue ι α) : AsyncQueue ι α :=
  { s with waiting := [], ready := s.ready ++ s.waiting.map fun op => (op, .expired) }

end AsyncQueue

open AsyncQueue

/-- What can happen next: a call, the expiry of the timer, or any of the handlers that are ready. -/
inductive QueueStep : AsyncQueue ι α → AsyncQueue ι α → Prop
  | push (s : AsyncQueue ι α) (value : α) (result : PushResult) : QueueStep s (async_push value result s)
  | poll (s : AsyncQueue ι α) (op : ι) : QueueStep s (async_poll op s)
  | expire (s : AsyncQueue ι α) : QueueStep s (expire s)
  | handler (s : AsyncQueue ι α) (before after : List (ι × WaitResult)) (op : ι) (ec : WaitResult)
      (h : s.ready = before ++ (op, ec) :: after) :
      QueueStep s (wait_op op ec { s with ready := before ++ after })

/-! ### It is a queue -/

/-- What the callers see of an `async_queue`. -/
def AsyncQueue.view (s : AsyncQueue ι α) : Fifo α :=
  ⟨s.pushed, s.completed.map Prod.snd, s.queue⟩

@[simp] theorem view_async_wait (op : ι) (s : AsyncQueue ι α) : (async_wait op s).view = s.view := rfl

@[simp] theorem view_cancel_one (s : AsyncQueue ι α) : (cancel_one s).view = s.view := by
  unfold cancel_one
  split <;> rfl

theorem underflow_step {s s' : AsyncQueue ι α} (h : s.underflow = false) (hstep : QueueStep s s') :
    s'.underflow = false := by
  have hcancel : ∀ s : AsyncQueue ι α, (cancel_one s).underflow = s.underflow := by
    intro s
    unfold cancel_one
    split <;> rfl
  cases hstep with
  | push value result =>
    cases result with
    | done => exact (hcancel _).trans h
    | _ => exact h
  | poll op => exact h
  | expire => exact h
  | handler before after op ec hready =>
    unfold wait_op
    split
    · exact h
    · split
      · exact h
      · rename_i hne
        unfold complete
        split
        · rename_i hempty
          exact absurd (List.isEmpty_iff.mpr hempty) hne
        · exact h

theorem view_step {s s' : AsyncQueue ι α} (hstep : QueueStep s s') :
    ReflTransGen FifoStep s.view s'.view := by
  have hpush : ∀ value, FifoStep s.view
      { s.view with pushed := s.view.pushed ++ [value], content := s.view.content ++ [value] } :=
    fun value => .push s.view value
  cases hstep with
  | push value result =>
    cases result with
    | done =>
      show ReflTransGen FifoStep s.view (cancel_one _).view
      rw [view_cancel_one]
      exact .single (hpush value)
    | push_throws => exact .refl
    | cancel_throws => exact .single (hpush value)
  | poll op => exact .refl
  | expire => exact .refl
  | handler before after op ec hready =>
    unfold wait_op
    split
    · exact .refl
    · split
      · exact .refl
      · unfold complete
        split
        · exact .refl
        · rename_i value queue hqueue
          have hdeliver := FifoStep.deliver s.view value queue hqueue
          refine .single ?_
          simpa [AsyncQueue.view] using hdeliver

/-- **The queue of the source is a queue.** -/
theorem queue_refines {s : AsyncQueue ι α} (hrun : ReflTransGen QueueStep {} s) :
    ReflTransGen FifoStep Fifo.empty s.view := by
  obtain ⟨q, habs, rfl⟩ := simulation (R := fun (s : AsyncQueue ι α) q => s.view = q)
    (fun s s' q hview hstep => ⟨s'.view, hview ▸ view_step hstep, rfl⟩) rfl hrun
  exact habs

/-- **Values come out in the order they went in.**  In any order of pushes, polls and handlers, the
values of the completed polls and then those still in the queue are the pushed ones. -/
theorem async_queue_fifo {s : AsyncQueue ι α} (hrun : ReflTransGen QueueStep {} s) :
    s.completed.map Prod.snd ++ s.queue = s.pushed ∧ s.underflow = false :=
  ⟨fifo_order (queue_refines hrun),
    invariant (I := fun s : AsyncQueue ι α => s.underflow = false) (fun _ _ => underflow_step) rfl hrun⟩

/-- Two polls wait, a value wakes the older one, and a handler runs. -/
theorem async_queue_fifo_polls :
    ∃ s : AsyncQueue ℕ ℕ, ReflTransGen QueueStep {} s ∧ s.completed = [(0, 7)] ∧
      s.completed.map Prod.snd ++ s.queue = s.pushed ∧ s.underflow = false := by
  have hrun : ReflTransGen QueueStep ({} : AsyncQueue ℕ ℕ) _ :=
    (((ReflTransGen.single (.poll _ 0)).tail (.poll _ 1)).tail (.push _ 7 .done)).tail
      (.handler _ [] [] 0 .operation_aborted rfl)
  exact ⟨_, hrun, rfl, async_queue_fifo hrun⟩

/-! ### Every poll is in one place -/

/-- The polls that wait, have a handler ready, or have completed. -/
def AsyncQueue.places (s : AsyncQueue ι α) : List ι :=
  s.waiting ++ s.ready.map Prod.fst ++ s.completed.map Prod.fst

theorem count_places [DecidableEq ι] (s : AsyncQueue ι α) (op : ι) :
    s.places.count op =
      s.waiting.count op + (s.ready.map Prod.fst).count op + (s.completed.map Prod.fst).count op := by
  rw [places, List.count_append, List.count_append]

theorem count_cancel_one [DecidableEq ι] (s : AsyncQueue ι α) (op : ι) :
    (cancel_one s).places.count op = s.places.count op := by
  unfold cancel_one
  split
  · rfl
  · rename_i first waiting hwaiting
    rw [count_places, count_places, hwaiting]
    simp only [List.map_append, List.map_cons, List.map_nil, List.count_append, List.count_cons,
      List.count_nil]
    omega

theorem count_wait_op [DecidableEq ι] (s : AsyncQueue ι α) (op op' : ι) (ec : WaitResult)
    (h : (wait_op op ec s).underflow = false) :
    (wait_op op ec s).places.count op' = s.places.count op' + [op].count op' := by
  have hwait : (async_wait op s).places.count op' = s.places.count op' + [op].count op' := by
    rw [count_places, count_places]
    simp only [async_wait, List.count_append]
    omega
  unfold wait_op complete at h ⊢
  split
  · exact hwait
  · split
    · exact hwait
    · rename_i hec hne
      rw [if_neg hec, if_neg hne] at h
      split
      · rename_i hempty
        rw [hempty] at h
        cases h
      · rw [count_places, count_places]
        simp only [List.map_append, List.map_cons, List.map_nil, List.count_append]
        omega

/-- **No poll is lost, and none completes twice.** -/
theorem polls_conserved {s : AsyncQueue ι α} (hrun : ReflTransGen QueueStep {} s) :
    s.places.Perm s.polled := by
  classical
  have key : ∀ op, s.places.count op = s.polled.count op := by
    refine (invariant (I := fun s : AsyncQueue ι α => s.underflow = false ∧
      ∀ op, s.places.count op = s.polled.count op) ?_ ⟨rfl, fun op => rfl⟩ hrun).2
    rintro s s' ⟨hunder, hcount⟩ hstep
    refine ⟨underflow_step hunder hstep, fun op' => ?_⟩
    have hunder' := underflow_step hunder hstep
    have hold := hcount op'
    cases hstep with
    | push value result =>
      cases result with
      | done =>
        have hcancel := count_cancel_one
          { s with queue := s.queue ++ [value], pushed := s.pushed ++ [value] } op'
        have hpolled : (async_push value .done s).polled = s.polled := by
          simp only [async_push, cancel_one]
          split <;> rfl
        rw [hpolled, ← hold]
        exact hcancel
      | _ => exact hold
    | poll op =>
      show (async_wait op { s with polled := s.polled ++ [op] }).places.count op' = _
      rw [count_places] at hold ⊢
      simp only [async_poll, async_wait, List.count_append]
      omega
    | expire =>
      show (expire s).places.count op' = s.polled.count op'
      rw [count_places] at hold ⊢
      simp only [expire, List.map_append, List.map_map, List.count_append, List.count_nil]
      have hfst : (Prod.fst ∘ fun op => (op, WaitResult.expired)) = (id : ι → ι) := rfl
      rw [hfst, List.map_id]
      omega
    | handler before after op ec hready =>
      have hpolled : (wait_op op ec { s with ready := before ++ after }).polled = s.polled := by
        unfold wait_op complete async_wait
        split
        · rfl
        · split
          · rfl
          · split <;> rfl
      have hhandler := count_wait_op { s with ready := before ++ after } op op' ec hunder'
      rw [hpolled, hhandler, ← hold, count_places, count_places, hready]
      simp only [List.map_append, List.map_cons, List.count_append, List.count_cons, List.count_nil]
      omega
  exact List.perm_iff_count.mpr key

/-- Of two polls, one has completed and the other one waits. -/
theorem polls_conserved_waiting :
    ∃ s : AsyncQueue ℕ ℕ, s.polled = [0, 1] ∧ s.waiting = [1] ∧ s.completed = [(0, 7)] ∧
      s.places.Perm s.polled := by
  have hrun : ReflTransGen QueueStep ({} : AsyncQueue ℕ ℕ) _ :=
    (((ReflTransGen.single (.poll _ 0)).tail (.poll _ 1)).tail (.push _ 7 .done)).tail
      (.handler _ [] [] 0 .operation_aborted rfl)
  exact ⟨_, rfl, rfl, rfl, polls_conserved hrun⟩

end Siesta
