import Siesta.Lib.Runs
import Mathlib.Data.List.Basic
import Mathlib.Algebra.GroupWithZero.Nat

/-!
# Requests on one connection: `include/siesta/beast/client.hpp`

Each call of `async_submit_request` has its own step number, but all of them share `_request` and
`_response`.  `ClientStep` is what can happen next on the strand.  When every call waits for the one
before it, each request is written as it was passed and answered by its own response
(`sequential_calls_answered`); two calls at once may swap them (`overlapping_calls_mixed`).
-/

namespace Siesta

open Lib Relation

/-- What the client uses of Beast and of its peer, for requests `ρ` and responses `ψ`. -/
structure Peer (ρ ψ : Type) where
  /-- `_request.set(host, _host_value)`. -/
  set_host : ρ → ρ
  /-- What the server answers to the last of the requests it has received. -/
  answer : List ρ → ψ
  /-- `response_type{}`. -/
  blank : ψ
  /-- What is left of a response that was moved. -/
  moved : ψ → ψ
  /-- The status is one of a successful response. -/
  successful : ψ → Bool

inductive Stage where
  /-- Its initiation, which a deferred completion token puts off. -/
  | called
  /-- Its message to be sent. -/
  | writing
  /-- Its handler to be called after the write. -/
  | written
  /-- A response. -/
  | reading
  /-- Its handler to be called after the read. -/
  | received
  deriving DecidableEq

/-- How a call completes. -/
inductive Outcome (ψ : Type) where
  | response (r : ψ)
  | error

/-- A `ClientBase` on its connection.  The calls are numbered. -/
structure ClientBase (ρ ψ : Type) where
  /-- `_request`. -/
  request : Option ρ
  /-- `_response`. -/
  response : ψ
  /-- The operations that have not completed. -/
  ops : List (ℕ × Stage) := []
  /-- The requests that have been sent, and the operations that sent them. -/
  wire : List (ℕ × ρ) := []
  /-- How many responses have been read. -/
  read : ℕ := 0
  /-- The requests that have been passed, call by call. -/
  submitted : List ρ := []
  completed : List (ℕ × Outcome ψ) := []

section

variable {ρ ψ : Type} (peer : Peer ρ ψ)

/-- `async_submit_request`, up to the initiation of its operation. -/
def async_submit_request (req : ρ) (s : ClientBase ρ ψ) : ClientBase ρ ψ :=
  { s with
    request := some (peer.set_host req)
    ops := s.ops ++ [(s.submitted.length, .called)]
    submitted := s.submitted ++ [req] }

def nextResponse (s : ClientBase ρ ψ) : ψ := peer.answer ((s.wire.map Prod.snd).take (s.read + 1))

/-- The end of the operation: `complete` with the response, or with its status as an error. -/
def finish (op : ℕ) (s : ClientBase ρ ψ) : ClientBase ρ ψ :=
  if peer.successful s.response then
    { s with response := peer.moved s.response, completed := s.completed ++ [(op, .response s.response)] }
  else { s with completed := s.completed ++ [(op, .error)] }

/-- `complete(error)`. -/
def fail (op : ℕ) (s : ClientBase ρ ψ) : ClientBase ρ ψ :=
  { s with completed := s.completed ++ [(op, .error)] }

/-- What can happen next on the strand; the `Bool` says whether it is a call. -/
inductive ClientStep : ClientBase ρ ψ → Bool → ClientBase ρ ψ → Prop
  | call (s : ClientBase ρ ψ) (req : ρ) : ClientStep s true (async_submit_request peer req s)
  /-- The operation starts `async_write`. -/
  | initiate (s : ClientBase ρ ψ) (before after : List (ℕ × Stage)) (op : ℕ)
      (h : s.ops = before ++ (op, .called) :: after) :
      ClientStep s false { s with ops := before ++ (op, .writing) :: after }
  /-- The message is sent as it is now. -/
  | write (s : ClientBase ρ ψ) (before after : List (ℕ × Stage)) (op : ℕ) (req : ρ)
      (h : s.ops = before ++ (op, .writing) :: after) (hreq : s.request = some req) :
      ClientStep s false { s with ops := before ++ (op, .written) :: after, wire := s.wire ++ [(op, req)] }
  /-- The write fails before the message has been sent. -/
  | write_fails (s : ClientBase ρ ψ) (before after : List (ℕ × Stage)) (op : ℕ)
      (h : s.ops = before ++ (op, .writing) :: after) :
      ClientStep s false (fail op { s with ops := before ++ after })
  /-- The write fails after the message has been sent. -/
  | write_aborted (s : ClientBase ρ ψ) (before after : List (ℕ × Stage)) (op : ℕ)
      (h : s.ops = before ++ (op, .written) :: after) :
      ClientStep s false (fail op { s with ops := before ++ after })
  /-- The operation clears `_response` and starts `async_read`. -/
  | start_read (s : ClientBase ρ ψ) (before after : List (ℕ × Stage)) (op : ℕ)
      (h : s.ops = before ++ (op, .written) :: after) :
      ClientStep s false { s with response := peer.blank, ops := before ++ (op, .reading) :: after }
  /-- A read takes the next response of the connection. -/
  | receive (s : ClientBase ρ ψ) (before after : List (ℕ × Stage)) (op : ℕ)
      (h : s.ops = before ++ (op, .reading) :: after) (hread : s.read < s.wire.length) :
      ClientStep s false
        { s with
          response := nextResponse peer s
          ops := before ++ (op, .received) :: after
          read := s.read + 1 }
  /-- A read fails, with part of a response. -/
  | read_fails (s : ClientBase ρ ψ) (before after : List (ℕ × Stage)) (op : ℕ) (part : ψ)
      (h : s.ops = before ++ (op, .reading) :: after) :
      ClientStep s false (fail op { s with response := part, ops := before ++ after })
  /-- The operation completes. -/
  | finish (s : ClientBase ρ ψ) (before after : List (ℕ × Stage)) (op : ℕ)
      (h : s.ops = before ++ (op, .received) :: after) :
      ClientStep s false (finish peer op { s with ops := before ++ after })

def ClientBase.connected : ClientBase ρ ψ := { request := none, response := peer.blank }

/-- The request written for each call is the one passed to it. -/
def WrittenAsPassed (s : ClientBase ρ ψ) : Prop :=
  ∀ op r, (op, r) ∈ s.wire → ∃ req, s.submitted[op]? = some req ∧ r = peer.set_host req

/-- A call that completes with a response has the server's response to its request. -/
def AnsweredInTurn (s : ClientBase ρ ψ) : Prop :=
  ∀ op r, (op, Outcome.response r) ∈ s.completed →
    ∃ before req after, s.wire = before ++ (op, req) :: after ∧
      r = peer.answer (before.map Prod.snd ++ [req])

/-! ### One call after the other -/

/-- No operation is in flight, and every request that was sent has been answered. -/
def Quiet (s : ClientBase ρ ψ) : Prop := s.ops = [] ∧ s.read = s.wire.length

/-- A step of a program that only calls a quiet client. -/
def SequentialStep (s s' : ClientBase ρ ψ) : Prop :=
  ∃ call, ClientStep peer s call s' ∧ (call = true → Quiet s)

/-- What is known of the operation in flight, stage by stage. -/
def StageInv (s : ClientBase ρ ψ) (op : ℕ) : Stage → Prop
  | .called | .writing =>
    ∃ req, s.submitted[op]? = some req ∧ s.request = some (peer.set_host req) ∧ s.read = s.wire.length
  | .written | .reading => ∃ req wire, s.wire = wire ++ [(op, req)] ∧ s.read = wire.length
  | .received =>
    ∃ req wire, s.wire = wire ++ [(op, req)] ∧ s.response = peer.answer (wire.map Prod.snd ++ [req])

structure SequentialInv (s : ClientBase ρ ψ) : Prop where
  written : WrittenAsPassed peer s
  answered : AnsweredInTurn peer s
  flight : s.ops = [] ∨ ∃ op stage, s.ops = [(op, stage)] ∧ StageInv peer s op stage

theorem of_singleton {α : Type} {x y : α} {before after : List α} (h : [x] = before ++ y :: after) :
    before = [] ∧ y = x ∧ after = [] := by
  cases before with
  | nil =>
    obtain ⟨rfl, rfl⟩ := List.cons.inj h
    exact ⟨rfl, rfl, rfl⟩
  | cons b before => simp at h

variable {peer} {s s' : ClientBase ρ ψ}

theorem SequentialInv.stage (h : SequentialInv peer s) {before after : List (ℕ × Stage)} {op : ℕ}
    {stage : Stage} (hops : s.ops = before ++ (op, stage) :: after) :
    before = [] ∧ after = [] ∧ StageInv peer s op stage := by
  rcases h.flight with hnone | ⟨op', stage', hone, hinv⟩
  · rw [hnone] at hops
    simp at hops
  · rw [hone] at hops
    obtain ⟨rfl, heq, rfl⟩ := of_singleton hops
    obtain ⟨rfl, rfl⟩ := Prod.mk.inj heq
    exact ⟨rfl, rfl, hinv⟩

theorem WrittenAsPassed.mono (h : WrittenAsPassed peer s) (hwire : s'.wire = s.wire)
    (hsubmitted : ∀ (op : ℕ) (req : ρ), s.submitted[op]? = some req → s'.submitted[op]? = some req) :
    WrittenAsPassed peer s' := by
  intro op r hr
  obtain ⟨req, hreq, rfl⟩ := h op r (hwire ▸ hr)
  exact ⟨req, hsubmitted op req hreq, rfl⟩

theorem AnsweredInTurn.mono (h : AnsweredInTurn peer s) (hwire : s.wire <+: s'.wire)
    (hcompleted : ∀ op r, (op, Outcome.response r) ∈ s'.completed → (op, Outcome.response r) ∈ s.completed) :
    AnsweredInTurn peer s' := by
  intro op r hr
  obtain ⟨before, req, after, hsplit, rfl⟩ := h op r (hcompleted op r hr)
  obtain ⟨rest, hrest⟩ := hwire
  exact ⟨before, req, after ++ rest, by rw [← hrest, hsplit]; simp, rfl⟩

theorem SequentialInv.fail {op : ℕ} (h : SequentialInv peer s) (part : ψ) :
    SequentialInv peer (fail op { s with response := part, ops := [] }) := by
  refine ⟨h.written.mono rfl fun _ _ => id, h.answered.mono (List.prefix_refl _) fun op' r hr => ?_, .inl rfl⟩
  rcases List.mem_append.mp hr with hr | hr
  · exact hr
  · simp at hr

theorem sequentialInv_step (h : SequentialInv peer s) (hstep : SequentialStep peer s s') :
    SequentialInv peer s' := by
  obtain ⟨call, hstep, hquiet⟩ := hstep
  cases hstep with
  | call req =>
    obtain ⟨hops, hread⟩ := hquiet rfl
    refine ⟨h.written.mono rfl fun op r hr => ?_, h.answered.mono (List.prefix_refl _) fun _ _ => id,
      .inr ⟨s.submitted.length, .called, ?_, req, ?_, rfl, hread⟩⟩
    · exact (List.getElem?_append_left (List.getElem?_eq_some_iff.mp hr).1).trans hr
    · show s.ops ++ _ = _
      rw [hops]
      rfl
    · simp [async_submit_request]
  | initiate before after op hops =>
    obtain ⟨rfl, rfl, hinv⟩ := h.stage hops
    exact ⟨h.written.mono rfl fun _ _ => id, h.answered.mono (List.prefix_refl _) fun _ _ => id,
      .inr ⟨op, .writing, rfl, hinv⟩⟩
  | write before after op req hops hreq =>
    obtain ⟨rfl, rfl, req', hpassed, hrequest, hread⟩ := h.stage hops
    obtain rfl := Option.some.inj (hreq.symm.trans hrequest)
    refine ⟨fun op' r hr => ?_, h.answered.mono (List.prefix_append _ _) fun _ _ => id,
      .inr ⟨op, .written, rfl, _, s.wire, rfl, hread⟩⟩
    rcases List.mem_append.mp hr with hr | hr
    · exact h.written op' r hr
    · obtain ⟨rfl, rfl⟩ := Prod.mk.inj (List.mem_singleton.mp hr)
      exact ⟨req', hpassed, rfl⟩
  | write_fails before after op hops =>
    obtain ⟨rfl, rfl, -⟩ := h.stage hops
    exact h.fail s.response
  | write_aborted before after op hops =>
    obtain ⟨rfl, rfl, -⟩ := h.stage hops
    exact h.fail s.response
  | start_read before after op hops =>
    obtain ⟨rfl, rfl, hinv⟩ := h.stage hops
    exact ⟨h.written.mono rfl fun _ _ => id, h.answered.mono (List.prefix_refl _) fun _ _ => id,
      .inr ⟨op, .reading, rfl, hinv⟩⟩
  | receive before after op hops hread =>
    obtain ⟨rfl, rfl, req, wire, hwire, hlen⟩ := h.stage hops
    refine ⟨h.written.mono rfl fun _ _ => id, h.answered.mono (List.prefix_refl _) fun _ _ => id,
      .inr ⟨op, .received, rfl, req, wire, hwire, ?_⟩⟩
    -- the response read is the one to the last request sent
    have hall : (s.wire.map Prod.snd).take (s.read + 1) = wire.map Prod.snd ++ [req] := by
      rw [hwire, hlen, List.map_append]
      exact List.take_of_length_le (by simp)
    exact congrArg peer.answer hall
  | read_fails before after op part hops =>
    obtain ⟨rfl, rfl, -⟩ := h.stage hops
    exact h.fail part
  | finish before after op hops =>
    obtain ⟨rfl, rfl, req, wire, hwire, hresponse⟩ := h.stage hops
    unfold finish
    split
    · refine ⟨h.written.mono rfl fun _ _ => id, fun op' r hr => ?_, .inl rfl⟩
      rcases List.mem_append.mp hr with hr | hr
      · exact h.answered op' r hr
      · obtain ⟨rfl, rfl⟩ : op' = op ∧ r = s.response := by simpa using hr
        exact ⟨wire, req, [], hwire, hresponse⟩
    · exact h.fail s.response

/-- **Calls that wait for each other are answered in turn.**  In every run in which each call is made on
a quiet client, the request written for a call is the one passed to it, and a call that completes with a
response has the server's response to that request. -/
theorem sequential_calls_answered
    (hrun : ReflTransGen (SequentialStep peer) (ClientBase.connected peer) s) :
    WrittenAsPassed peer s ∧ AnsweredInTurn peer s := by
  have hinv : SequentialInv peer s := by
    refine invariant (I := SequentialInv peer) (fun _ _ => sequentialInv_step) ⟨?_, ?_, .inl rfl⟩ hrun
    · exact fun op r hr => absurd hr List.not_mem_nil
    · exact fun op r hr => absurd hr List.not_mem_nil
  exact ⟨hinv.written, hinv.answered⟩

end

/-- A server whose answer depends on all requests so far; messages are numbers. -/
def countingPeer : Peer ℕ ℕ where
  set_host req := req
  answer reqs := 1000 + reqs.sum
  blank := 0
  moved r := r
  successful _ := true

/-- Two calls, each of them written, answered and completed. -/
theorem sequential_calls_answered_twice :
    ∃ s, ReflTransGen (SequentialStep countingPeer) (ClientBase.connected countingPeer) s ∧
      s.wire = [(0, 7), (1, 8)] ∧ s.completed = [(0, .response 1007), (1, .response 1015)] ∧
      WrittenAsPassed countingPeer s ∧ AnsweredInTurn countingPeer s := by
  have hfirst : ReflTransGen (SequentialStep countingPeer) (ClientBase.connected countingPeer) _ :=
    (((((ReflTransGen.single ⟨true, .call _ 7, fun _ => ⟨rfl, rfl⟩⟩).tail
      ⟨false, .initiate _ [] [] 0 rfl, by simp⟩).tail
      ⟨false, .write _ [] [] 0 7 rfl rfl, by simp⟩).tail
      ⟨false, .start_read _ [] [] 0 rfl, by simp⟩).tail
      ⟨false, .receive _ [] [] 0 rfl (by decide), by simp⟩).tail
      ⟨false, .finish _ [] [] 0 rfl, by simp⟩
  have hrun : ReflTransGen (SequentialStep countingPeer) (ClientBase.connected countingPeer) _ :=
    (((((hfirst.tail ⟨true, .call _ 8, fun _ => ⟨rfl, rfl⟩⟩).tail
      ⟨false, .initiate _ [] [] 1 rfl, by simp⟩).tail
      ⟨false, .write _ [] [] 1 8 rfl rfl, by simp⟩).tail
      ⟨false, .start_read _ [] [] 1 rfl, by simp⟩).tail
      ⟨false, .receive _ [] [] 1 rfl (by decide), by simp⟩).tail
      ⟨false, .finish _ [] [] 1 rfl, by simp⟩
  exact ⟨_, hrun, rfl, rfl, sequential_calls_answered hrun⟩

/-- The second of two calls overwrites the request of the first before that is written. -/
theorem overlapping_calls_mixed :
    ∃ s, ReflTransGen (fun s s' => ∃ call, ClientStep countingPeer s call s')
        (ClientBase.connected countingPeer) s ∧
      s.submitted = [7, 8] ∧ s.wire = [(0, 8)] ∧ ¬ WrittenAsPassed countingPeer s := by
  refine ⟨_, (((ReflTransGen.single ⟨true, .call _ 7⟩).tail ⟨false, .initiate _ [] [] 0 rfl⟩).tail
    ⟨true, .call _ 8⟩).tail ⟨false, .write _ [] [(1, .called)] 0 8 rfl rfl⟩, rfl, rfl, fun h => ?_⟩
  obtain ⟨req, hreq, heq⟩ := h 0 8 (List.mem_singleton_self _)
  obtain rfl := Option.some.inj hreq
  exact absurd heq (by decide)

end Siesta
