import Siesta.Runtime.Client
import Siesta.Runtime.ServerSession

/-!
# A client and a session on one connection

What a `ClientBase` writes is read by the `Session` at the other end, one request after the other, and what
the session writes is read by the client.  `ConnectionStep` interleaves the steps of both; neither end sees
more of the other than the messages that have been sent.

A session answers the requests in the order they were written (`answers_in_order`), and a call that completes
with a response has the one a handler wrote for its own request (`calls_answered_by_handlers`): one with the
status 404 is an error for the client.
-/

namespace Siesta

open Lib Relation

/-- What the messages of the client are to the server. -/
structure Messages (ρ : Type) where
  /-- `_request.set(host, _host_value)`. -/
  set_host : ρ → ρ
  /-- The messages that the library of the session can read. -/
  readable : ρ → Prop := fun _ => True
  /-- What the session reads of such a message. -/
  received : ρ → Request
  /-- What is left of a response that was moved. -/
  moved : Response → Response

/-- `to_status_class(_response.result()) == status_class::successful`. -/
def Response.successful (r : Response) : Bool := r.result / 100 = 2

/-- A response that `prepare_payload` does not throw for: some statuses have no body. -/
def Response.Payable (r : Response) : Prop := r.result / 100 = 1 ∨ r.result = 204 ∨ r.result = 304 → r.body = []

/-- A session, as the client sees it that has written these responses. -/
def Messages.peer {ρ : Type} (m : Messages ρ) (responses : List Response) : Peer ρ Response where
  set_host := m.set_host
  answer reqs := responses.getD (reqs.length - 1) {}
  blank := {}
  moved := m.moved
  successful := Response.successful

/-- Both ends of a connection. -/
structure Connection (ρ : Type) where
  client : ClientBase ρ Response
  session : Session := {}

section

variable {ρ : Type} (may_call : ClientBase ρ Response → Prop) (m : Messages ρ) (server : ServerCpp)
  (prepare_payload : Response → Response)

def Session.responses (s : Session) : List Response := s.sent.map Exchange.response

/-- What can happen next at either end, where the program of the client calls it in certain states only. -/
inductive ConnectionStep : Connection ρ → Connection ρ → Prop
  /-- The client takes a step; it reads only what the session has written. -/
  | client (s : Connection ρ) (call : Bool) (client : ClientBase ρ Response)
      (hstep : ClientStep (m.peer s.session.responses) s.client call client)
      (hcall : call = true → may_call s.client) (hread : client.read ≤ s.session.sent.length) :
      ConnectionStep s { s with client }
  /-- The session reads the next request. -/
  | read (s : Connection ρ) (op : ℕ) (req : ρ) (hphase : s.session.phase = .reading)
      (hnext : s.client.wire[s.session.sent.length]? = some (op, req)) (hreadable : m.readable req) :
      ConnectionStep s { s with session := on_read server prepare_payload (m.received req) s.session }
  /-- The library cannot read a request, or the connection is lost. -/
  | read_fails (s : Connection ρ) (hphase : s.session.phase = .reading) :
      ConnectionStep s { s with session := { s.session with phase := .closed } }
  | handler (s : Connection ρ) (req : Request) (function_name : Str) (f : Response → Response)
      (hphase : s.session.phase = .handling req function_name) (hpayable : (f s.session.response).Payable) :
      ConnectionStep s { s with
        session := write prepare_payload req { s.session with response := f s.session.response } }
  | written (s : Connection ρ) (hphase : s.session.phase = .writing) :
      ConnectionStep s { s with session := { s.session with phase := .reading } }
  | write_fails (s : Connection ρ) (hphase : s.session.phase = .writing) :
      ConnectionStep s { s with session := { s.session with phase := .closed } }

def Connection.connected : Connection ρ := { client := ClientBase.connected (m.peer []) }

variable {may_call} {m} {server} {prepare_payload}

/-! ### Answers in order -/

/-- The requests on the wire, as the session reads them. -/
def Connection.asked (m : Messages ρ) (s : Connection ρ) : List Request :=
  s.client.wire.map fun w => m.received w.2

/-- The session can read the next message as a request. -/
def Connection.Next (m : Messages ρ) (s : Connection ρ) (req : Request) : Prop :=
  ∃ w, s.client.wire[s.session.sent.length]? = some w ∧ m.readable w.2 ∧ m.received w.2 = req

/-- The session has answered the first requests on the wire, which it could read, and with a response that can
be a success only those that a handler was called for. -/
structure Served (m : Messages ρ) (server : ServerCpp) (s : Connection ρ) : Prop where
  order : s.session.sent.map Exchange.request <+: s.asked m
  readable : ∀ k w, k < s.session.sent.length → s.client.wire[k]? = some w → m.readable w.2
  handling : ∀ req fn, s.session.phase = .handling req fn → handle_request server req = [.call fn] ∧ s.Next m req
  routed : ∀ e ∈ s.session.sent, e.response.successful = true →
    ∃ fn, handle_request server e.request = [.call fn]

theorem Connection.Next.asked {s : Connection ρ} {req : Request} (h : s.Next m req) :
    (s.asked m)[s.session.sent.length]? = some req := by
  obtain ⟨w, hw, -, rfl⟩ := h
  unfold Connection.asked
  rw [List.getElem?_map, hw]
  rfl

theorem wire_prefix {ψ : Type} {peer : Peer ρ ψ} {call : Bool} {c c' : ClientBase ρ ψ}
    (h : ClientStep peer c call c') : c.wire <+: c'.wire := by
  cases h with
  | write => exact List.prefix_append _ _
  | finish before after op hops =>
    unfold finish
    split <;> exact List.prefix_refl _
  | _ => exact List.prefix_refl _

theorem prefix_concat {α : Type} {l l' : List α} {a : α} (h : l <+: l') (ha : l'[l.length]? = some a) :
    l ++ [a] <+: l' := by
  obtain ⟨rest, rfl⟩ := h
  rw [List.getElem?_append_right le_rfl, Nat.sub_self] at ha
  cases rest with
  | nil => cases ha
  | cons b rest =>
    obtain rfl := Option.some.inj ha
    exact ⟨rest, by simp⟩

theorem getElem?_prefix_eq {α : Type} {l l' : List α} (h : l <+: l') {i : ℕ} {a : α} (ha : l[i]? = some a) :
    l'[i]? = some a := by
  obtain ⟨rest, rfl⟩ := h
  exact (List.getElem?_append_left (List.getElem?_eq_some_iff.mp ha).1).trans ha

theorem Served.write {s : Connection ρ} (hs : Served m server s) {req : Request} (hnext : s.Next m req)
    (session : Session) (hsent : session.sent = s.session.sent)
    (hrouted : (prepare_payload session.response).successful = true →
      ∃ fn, handle_request server req = [.call fn]) :
    Served m server { s with session := write prepare_payload req session } := by
  have horder : (s.session.sent.map Exchange.request) ++ [req] <+: s.asked m :=
    prefix_concat hs.order (by rw [List.length_map]; exact hnext.asked)
  refine ⟨?_, fun k w hk hw => ?_, fun req' fn hphase => (by cases hphase), fun e he hsuccess => ?_⟩
  · show (session.sent ++ [_]).map Exchange.request <+: s.asked m
    rw [List.map_append, hsent]
    exact horder
  · have hlength : k < (session.sent ++ [_]).length := hk
    rw [hsent, List.length_append, List.length_singleton] at hlength
    rcases Nat.lt_succ_iff_lt_or_eq.mp hlength with hlt | rfl
    · exact hs.readable k w hlt hw
    · obtain ⟨w', hw', hreadable, -⟩ := hnext
      exact Option.some.inj (hw'.symm.trans hw) ▸ hreadable
  · have he : e ∈ session.sent ++ [_] := he
    rw [hsent] at he
    rcases List.mem_append.mp he with he | he
    · exact hs.routed e he hsuccess
    · obtain rfl := List.mem_singleton.mp he
      exact hrouted hsuccess

theorem served_step (hprepare : PreparesPayload prepare_payload) {s s' : Connection ρ} (hs : Served m server s)
    (h : ConnectionStep may_call m server prepare_payload s s') : Served m server s' := by
  have hclosed : ∀ phase, (∀ req fn, phase ≠ .handling req fn) →
      Served m server { s with session := { s.session with phase } } := fun phase hphase =>
    ⟨hs.order, hs.readable, fun req fn h => absurd h (hphase req fn), hs.routed⟩
  cases h with
  | client call client hstep hcall hread =>
    have hwire := wire_prefix hstep
    refine ⟨hs.order.trans (hwire.map _), fun k w hk hw => ?_, fun req fn hphase => ?_, hs.routed⟩
    · -- an answered request was on the wire before
      have hle := hs.order.length_le
      rw [Connection.asked, List.length_map, List.length_map] at hle
      have hbefore := List.getElem?_eq_getElem (Nat.lt_of_lt_of_le hk hle)
      obtain rfl := Option.some.inj ((getElem?_prefix_eq hwire hbefore).symm.trans hw)
      exact hs.readable k _ hk hbefore
    · obtain ⟨hfn, w, hw, hreadable⟩ := hs.handling req fn hphase
      exact ⟨hfn, w, getElem?_prefix_eq hwire hw, hreadable⟩
  | read op req hphase hnext hreadable =>
    have hnext' : s.Next m (m.received req) := ⟨(op, req), hnext, hreadable, rfl⟩
    rcases handle_request_cases server (m.received req) with ⟨fn, hcall⟩ | hun
    · rw [on_read_routed hcall]
      refine ⟨hs.order, hs.readable, fun req' fn' h => ?_, hs.routed⟩
      obtain ⟨rfl, rfl⟩ := Phase.handling.inj h
      exact ⟨hcall, hnext'⟩
    · -- the response has the status 404
      rw [on_read_unrouted hun]
      refine hs.write hnext' _ rfl fun hsuccess => ?_
      have h404 : (prepare_payload { s.session.response with result := 404 }).successful = false := by
        unfold Response.successful
        rw [hprepare.result]
        exact decide_eq_false (show ¬ (404 / 100 = 2) by decide)
      exact absurd (h404.symm.trans hsuccess) (by decide)
  | read_fails hphase => exact hclosed .closed fun req fn h => by cases h
  | handler req fn f hphase _ =>
    obtain ⟨hfn, hnext⟩ := hs.handling req fn hphase
    exact hs.write hnext _ rfl fun _ => ⟨fn, hfn⟩
  | written hphase => exact hclosed .reading fun req fn h => by cases h
  | write_fails hphase => exact hclosed .closed fun req fn h => by cases h

theorem served_run (hprepare : PreparesPayload prepare_payload) {s : Connection ρ}
    (hrun : ReflTransGen (ConnectionStep may_call m server prepare_payload) (Connection.connected m) s) :
    Served m server s := by
  have hstart : Served m server (Connection.connected m) :=
    ⟨List.prefix_refl _, fun _ _ hk => absurd hk (Nat.not_lt_zero _), fun req fn h => (by cases h),
      fun e he => absurd he List.not_mem_nil⟩
  exact invariant (I := Served m server) (fun _ _ => served_step hprepare) hstart hrun

/-! ### Each call has its own answer -/

/-- The request of a call stands on the wire where the session has the response for it. -/
def Answered (m : Messages ρ) (submitted : List ρ) (wire : List (ℕ × ρ)) (responses : List Response) (op : ℕ)
    (r : Response) : Prop :=
  ∃ (k : ℕ) (req : ρ), submitted[op]? = some req ∧ wire[k]? = some (op, m.set_host req) ∧ responses[k]? = some r

/-- What is known of the operation in flight, stage by stage. -/
def InFlight (m : Messages ρ) (s : Connection ρ) (op : ℕ) : Stage → Prop
  | .called | .writing => ∃ req, s.client.submitted[op]? = some req ∧
      s.client.request = some (m.set_host req) ∧ s.client.read = s.client.wire.length
  | .written | .reading => ∃ req, s.client.submitted[op]? = some req ∧
      s.client.wire[s.client.read]? = some (op, m.set_host req) ∧ s.client.read + 1 = s.client.wire.length
  | .received => Answered m s.client.submitted s.client.wire s.session.responses op s.client.response

/-- The calls that have completed with a response, and the one in flight. -/
structure Calling (m : Messages ρ) (s : Connection ρ) : Prop where
  answered : ∀ op r, (op, Outcome.response r) ∈ s.client.completed →
    r.successful = true ∧ Answered m s.client.submitted s.client.wire s.session.responses op r
  flight : s.client.ops = [] ∨ ∃ op stage, s.client.ops = [(op, stage)] ∧ InFlight m s op stage

theorem Answered.mono {submitted submitted' : List ρ} {wire wire' : List (ℕ × ρ)}
    {responses responses' : List Response} {op : ℕ} {r : Response}
    (h : Answered m submitted wire responses op r)
    (hsubmitted : submitted <+: submitted') (hwire : wire <+: wire') (hresponses : responses <+: responses') :
    Answered m submitted' wire' responses' op r := by
  obtain ⟨k, req, hreq, hsent, hr⟩ := h
  exact ⟨k, req, getElem?_prefix_eq hsubmitted hreq, getElem?_prefix_eq hwire hsent,
    getElem?_prefix_eq hresponses hr⟩

theorem Calling.session {s : Connection ρ} (hs : Calling m s) {session : Session}
    (hsent : s.session.sent <+: session.sent) : Calling m { s with session } := by
  have hresponses : s.session.responses <+: session.responses := hsent.map _
  refine ⟨fun op r hr => ?_, hs.flight.imp id ?_⟩
  · obtain ⟨hsuccess, h⟩ := hs.answered op r hr
    exact ⟨hsuccess, h.mono (List.prefix_refl _) (List.prefix_refl _) hresponses⟩
  · rintro ⟨op, stage, hops, hstage⟩
    refine ⟨op, stage, hops, ?_⟩
    cases stage with
    | received => exact hstage.mono (List.prefix_refl _) (List.prefix_refl _) hresponses
    | _ => exact hstage

theorem Calling.stage {s : Connection ρ} (hs : Calling m s) {before after : List (ℕ × Stage)} {op : ℕ}
    {stage : Stage} (hops : s.client.ops = before ++ (op, stage) :: after) :
    before = [] ∧ after = [] ∧ InFlight m s op stage := by
  rcases hs.flight with hnone | ⟨op', stage', hone, hinv⟩
  · rw [hnone] at hops
    simp at hops
  · rw [hone] at hops
    obtain ⟨rfl, heq, rfl⟩ := of_singleton hops
    obtain ⟨rfl, rfl⟩ := Prod.mk.inj heq
    exact ⟨rfl, rfl, hinv⟩

theorem Calling.kept {s : Connection ρ} (hs : Calling m s) {submitted : List ρ} {wire : List (ℕ × ρ)}
    (hsubmitted : s.client.submitted <+: submitted) (hwire : s.client.wire <+: wire) {op : ℕ} {r : Response}
    (hr : (op, Outcome.response r) ∈ s.client.completed) :
    r.successful = true ∧ Answered m submitted wire s.session.responses op r :=
  ⟨(hs.answered op r hr).1, (hs.answered op r hr).2.mono hsubmitted hwire (List.prefix_refl _)⟩

/-- An operation that fails leaves nothing in flight, and completes with no response. -/
theorem Calling.fail {s : Connection ρ} (hs : Calling m s) (op : ℕ) (part : Response) :
    Calling m { s with client := Siesta.fail op { s.client with response := part, ops := [] } } := by
  refine ⟨fun op' r hr => ?_, .inl rfl⟩
  rcases List.mem_append.mp hr with hr | hr
  · exact hs.kept (List.prefix_refl _) (List.prefix_refl _) hr
  · simp at hr

theorem calling_client {s : Connection ρ} (hs : Calling m s) {call : Bool} {client : ClientBase ρ Response}
    (hstep : ClientStep (m.peer s.session.responses) s.client call client)
    (hcall : call = true → Quiet s.client) (hread : client.read ≤ s.session.sent.length) :
    Calling m { s with client } := by
  cases hstep with
  | call req =>
    obtain ⟨hops, hquiet⟩ := hcall rfl
    refine ⟨fun op r hr => hs.kept (List.prefix_append _ _) (List.prefix_refl _) hr,
      .inr ⟨s.client.submitted.length, .called, ?_, req, ?_, rfl, hquiet⟩⟩
    · show s.client.ops ++ _ = _
      rw [hops]
      rfl
    · simp [async_submit_request]
  | initiate before after op hops =>
    obtain ⟨rfl, rfl, hinv⟩ := hs.stage hops
    exact ⟨fun op r hr => hs.kept (List.prefix_refl _) (List.prefix_refl _) hr, .inr ⟨op, .writing, rfl, hinv⟩⟩
  | write before after op req hops hreq =>
    obtain ⟨rfl, rfl, req', hpassed, hrequest, hquiet⟩ := hs.stage hops
    obtain rfl := Option.some.inj (hreq.symm.trans hrequest)
    refine ⟨fun op r hr => hs.kept (List.prefix_refl _) (List.prefix_append _ _) hr,
      .inr ⟨op, .written, rfl, req', hpassed, ?_, ?_⟩⟩
    · show (s.client.wire ++ [(op, m.set_host req')])[s.client.read]? = _
      rw [hquiet, List.getElem?_concat_length]
    · show s.client.read + 1 = (s.client.wire ++ [_]).length
      rw [hquiet, List.length_append, List.length_singleton]
  | write_fails before after op hops =>
    obtain ⟨rfl, rfl, -⟩ := hs.stage hops
    exact hs.fail op s.client.response
  | write_aborted before after op hops =>
    obtain ⟨rfl, rfl, -⟩ := hs.stage hops
    exact hs.fail op s.client.response
  | start_read before after op hops =>
    obtain ⟨rfl, rfl, hinv⟩ := hs.stage hops
    exact ⟨fun op r hr => hs.kept (List.prefix_refl _) (List.prefix_refl _) hr, .inr ⟨op, .reading, rfl, hinv⟩⟩
  | receive before after op hops hlt =>
    obtain ⟨rfl, rfl, req, hpassed, hwire, hlen⟩ := hs.stage hops
    refine ⟨fun op r hr => hs.kept (List.prefix_refl _) (List.prefix_refl _) hr,
      .inr ⟨op, .received, rfl, s.client.read, req, hpassed, hwire, ?_⟩⟩
    -- the session has written the response that is read
    have hwritten : s.client.read < s.session.responses.length := by
      have hread : s.client.read + 1 ≤ s.session.sent.length := hread
      unfold Session.responses
      rw [List.length_map]
      omega
    have hcount : ((s.client.wire.map Prod.snd).take (s.client.read + 1)).length - 1 = s.client.read := by
      rw [List.length_take, List.length_map]
      omega
    show s.session.responses[s.client.read]? = some (s.session.responses.getD _ {})
    rw [hcount, List.getD_eq_getElem?_getD, List.getElem?_eq_getElem hwritten, Option.getD_some]
  | read_fails before after op part hops =>
    obtain ⟨rfl, rfl, -⟩ := hs.stage hops
    exact hs.fail op part
  | finish before after op hops =>
    obtain ⟨rfl, rfl, hanswered⟩ := hs.stage hops
    unfold finish
    split
    · rename_i hsuccess
      refine ⟨fun op' r hr => ?_, .inl rfl⟩
      rcases List.mem_append.mp hr with hr | hr
      · exact hs.kept (List.prefix_refl _) (List.prefix_refl _) hr
      · obtain ⟨rfl, rfl⟩ : op' = op ∧ r = s.client.response := by simpa using hr
        exact ⟨hsuccess, hanswered⟩
    · exact hs.fail op s.client.response

theorem sent_prefix_on_read (req : Request) (s : Session) :
    s.sent <+: (on_read server prepare_payload req s).sent := by
  rcases handle_request_cases server req with ⟨fn, hcall⟩ | hun
  · rw [on_read_routed hcall]
  · rw [on_read_unrouted hun]
    exact List.prefix_append _ _

theorem calling_step {s s' : Connection ρ} (hs : Calling m s)
    (h : ConnectionStep Quiet m server prepare_payload s s') : Calling m s' := by
  cases h with
  | client call client hstep hcall hread => exact calling_client hs hstep hcall hread
  | read op req hphase hnext _ => exact hs.session (sent_prefix_on_read _ _)
  | read_fails hphase => exact hs.session (List.prefix_refl _)
  | handler req fn f hphase _ => exact hs.session (List.prefix_append _ _)
  | written hphase => exact hs.session (List.prefix_refl _)
  | write_fails hphase => exact hs.session (List.prefix_refl _)

/-- **The session answers in order.**  In every run, whenever the client is called, the requests that the session
has answered are the first that the client has written, each of them once. -/
theorem answers_in_order (hprepare : PreparesPayload prepare_payload) {s : Connection ρ}
    (hrun : ReflTransGen (ConnectionStep may_call m server prepare_payload) (Connection.connected m) s) :
    s.session.sent.map Exchange.request =
      (s.client.wire.map fun w => m.received w.2).take s.session.sent.length := by
  have hprefix := List.prefix_iff_eq_take.mp (served_run hprepare hrun).order
  rwa [List.length_map] at hprefix

/-- **Calls and handlers.**  In every run in which each call waits for the one before it, a call that completes
with a response has the one that the session wrote for its own request, and a handler wrote it. -/
theorem calls_answered_by_handlers (hprepare : PreparesPayload prepare_payload) {s : Connection ρ}
    (hrun : ReflTransGen (ConnectionStep Quiet m server prepare_payload) (Connection.connected m) s) {op : ℕ}
    {r : Response} (hcompleted : (op, Outcome.response r) ∈ s.client.completed) :
    ∃ (k : ℕ) (req : ρ) (function_name : Str), s.client.submitted[op]? = some req ∧
      s.client.wire[k]? = some (op, m.set_host req) ∧ m.readable (m.set_host req) ∧
      s.session.sent[k]? = some ⟨m.received (m.set_host req), r⟩ ∧
      handle_request server (m.received (m.set_host req)) = [.call function_name] := by
  have hserved := served_run hprepare hrun
  have hstart : Calling m (Connection.connected m) := ⟨fun op r hr => absurd hr List.not_mem_nil, .inl rfl⟩
  have hcalling : Calling m s := invariant (I := Calling m) (fun _ _ => calling_step) hstart hrun
  obtain ⟨hsuccess, k, req, hsubmitted, hwire, hresponse⟩ := hcalling.answered op r hcompleted
  unfold Session.responses at hresponse
  rw [List.getElem?_map] at hresponse
  obtain ⟨e, he, rfl⟩ := Option.map_eq_some_iff.mp hresponse
  have hrequest : e.request = m.received (m.set_host req) := by
    have hanswered : (s.session.sent.map Exchange.request)[k]? = some e.request := by
      rw [List.getElem?_map, he]
      rfl
    have hasked := getElem?_prefix_eq hserved.order hanswered
    unfold Connection.asked at hasked
    rw [List.getElem?_map, hwire] at hasked
    exact (Option.some.inj hasked).symm
  obtain ⟨fn, hfn⟩ := hserved.routed e (List.mem_of_getElem? he) hsuccess
  rw [hrequest] at hfn
  refine ⟨k, req, fn, hsubmitted, hwire,
    hserved.readable k _ (List.getElem?_eq_some_iff.mp he).1 hwire, ?_, hfn⟩
  rw [he, ← hrequest]

/-! ### A call can be answered -/

/-- The client has read no more than the session has written, and the session no more than the client has. -/
theorem sent_between (hprepare : PreparesPayload prepare_payload) {s : Connection ρ}
    (hrun : ReflTransGen (ConnectionStep may_call m server prepare_payload) (Connection.connected m) s) :
    s.client.read ≤ s.session.sent.length ∧ s.session.sent.length ≤ s.client.wire.length := by
  constructor
  · refine invariant (I := fun s : Connection ρ => s.client.read ≤ s.session.sent.length)
      (fun s s' hs hstep => ?_) (Nat.zero_le _) hrun
    cases hstep with
    | client call client hstep hcall hread => exact hread
    | read op req hphase hnext _ => exact hs.trans (sent_prefix_on_read _ _).length_le
    | read_fails hphase => exact hs
    | handler req fn f hphase _ => exact hs.trans (List.prefix_append _ _).length_le
    | written hphase => exact hs
    | write_fails hphase => exact hs
  · have hle := (served_run hprepare hrun).order.length_le
    rwa [Connection.asked, List.length_map, List.length_map] at hle

theorem exists_reading (hprepare : PreparesPayload prepare_payload) {s : Connection ρ}
    (hrun : ReflTransGen (ConnectionStep may_call m server prepare_payload) (Connection.connected m) s)
    (hopen : s.session.phase ≠ .closed) (hsent : s.session.sent.length = s.client.wire.length) :
    ReflTransGen (ConnectionStep may_call m server prepare_payload) s
      { s with session := { s.session with phase := .reading } } := by
  cases hphase : s.session.phase with
  | reading =>
    rw [← hphase]
  | handling req fn =>
    -- the request of a handler is on the wire, and has no answer
    have hasked := ((served_run hprepare hrun).handling req fn hphase).2.asked
    have hlt := (List.getElem?_eq_some_iff.mp hasked).1
    rw [Connection.asked, List.length_map, hsent] at hlt
    exact absurd hlt (lt_irrefl _)
  | writing => exact .single (.written s hphase)
  | closed => exact absurd hphase hopen

/-- A step that is no call. -/
theorem ConnectionStep.own (s : Connection ρ) (client : ClientBase ρ Response)
    (hstep : ClientStep (m.peer s.session.responses) s.client false client)
    (hread : client.read ≤ s.session.sent.length) :
    ConnectionStep may_call m server prepare_payload s { s with client } :=
  .client s false client hstep (fun h => absurd h Bool.false_ne_true) hread

/-- A call that the server has a route for can be made and answered, once the calls before it have been. -/
theorem exists_answeredCall {s : Connection ρ} (hquiet : Quiet s.client) (hphase : s.session.phase = .reading)
    (hsent : s.session.sent.length = s.client.wire.length) {req : ρ} {fn : Str}
    (hroute : handle_request server (m.received (m.set_host req)) = [.call fn]) (f : Response → Response)
    (hreadable : m.readable (m.set_host req)) (hpayable : (f s.session.response).Payable)
    (hsuccess : (prepare_payload (f s.session.response)).successful = true) :
    ∃ s', ReflTransGen (ConnectionStep Quiet m server prepare_payload) s s' ∧
      s'.client.submitted = s.client.submitted ++ [req] ∧
      s'.client.completed = s.client.completed ++
        [(s.client.submitted.length, .response (prepare_payload (f s.session.response)))] ∧
      s'.session.sent = s.session.sent ++
        [⟨m.received (m.set_host req), prepare_payload (f s.session.response)⟩] := by
  obtain ⟨⟨request, response, ops, wire, read, submitted, completed⟩, ⟨held, phase, sent⟩⟩ := s
  obtain ⟨rfl, rfl⟩ : ops = [] ∧ read = wire.length := hquiet
  obtain rfl : phase = .reading := hphase
  have hsent : sent.length = wire.length := hsent
  let op := submitted.length
  let calling : ClientBase ρ Response :=
    ⟨some (m.set_host req), response, [(op, .called)], wire, wire.length, submitted ++ [req], completed⟩
  let written : ClientBase ρ Response :=
    { calling with ops := [(op, .written)], wire := wire ++ [(op, m.set_host req)] }
  let answered : Session := write prepare_payload (m.received (m.set_host req))
    ⟨f held, .handling (m.received (m.set_host req)) fn, sent⟩
  have hwritten : ReflTransGen (ConnectionStep Quiet m server prepare_payload)
      ⟨⟨request, response, [], wire, wire.length, submitted, completed⟩, ⟨held, .reading, sent⟩⟩
      ⟨written, ⟨held, .reading, sent⟩⟩ :=
    ((ReflTransGen.single (.client _ true calling (.call _ req) (fun _ => ⟨rfl, rfl⟩) hsent.ge)).tail
      (.own _ _ (.initiate _ [] [] op rfl) hsent.ge)).tail
      (.own _ written (.write _ [] [] op (m.set_host req) rfl rfl) hsent.ge)
  have hread : on_read server prepare_payload (m.received (m.set_host req)) ⟨held, .reading, sent⟩ =
      ⟨held, .handling (m.received (m.set_host req)) fn, sent⟩ := on_read_routed hroute _
  have hanswered : ReflTransGen (ConnectionStep Quiet m server prepare_payload)
      ⟨written, ⟨held, .reading, sent⟩⟩ ⟨written, answered⟩ := by
    have hstep : ConnectionStep Quiet m server prepare_payload ⟨written, ⟨held, .reading, sent⟩⟩ _ :=
      .read _ op (m.set_host req) rfl (by
        show (wire ++ [(op, m.set_host req)])[sent.length]? = _
        rw [hsent, List.getElem?_concat_length]) hreadable
    rw [hread] at hstep
    exact (ReflTransGen.single hstep).tail (.handler _ _ fn f rfl hpayable)
  have hcount : answered.sent.length = wire.length + 1 := by
    show (sent ++ [_]).length = _
    rw [List.length_append, List.length_singleton, hsent]
  let reading : ClientBase ρ Response := { written with response := {}, ops := [(op, .reading)] }
  have hnext : nextResponse (m.peer answered.responses) reading = prepare_payload (f held) := by
    have htake : (((wire ++ [(op, m.set_host req)]).map Prod.snd).take (wire.length + 1)).length - 1 =
        wire.length := by
      rw [List.length_take, List.length_map, List.length_append, List.length_singleton]
      omega
    have hlast : answered.responses[wire.length]? = some (prepare_payload (f held)) := by
      show ((sent ++ [_]).map Exchange.response)[wire.length]? = _
      rw [← hsent, List.map_append, ← List.length_map Exchange.response]
      exact List.getElem?_concat_length
    show answered.responses.getD _ {} = _
    rw [htake, List.getD_eq_getElem?_getD, hlast]
    rfl
  have hreceived : ReflTransGen (ConnectionStep Quiet m server prepare_payload) ⟨written, answered⟩
      ⟨{ reading with
        response := prepare_payload (f held), ops := [(op, .received)], read := wire.length + 1 }, answered⟩ := by
    have hstep : ConnectionStep Quiet m server prepare_payload ⟨reading, answered⟩ _ :=
      .own _ _ (.receive reading [] [] op rfl (by
        show wire.length < (wire ++ [_]).length
        rw [List.length_append, List.length_singleton]
        omega)) hcount.ge
    rw [hnext] at hstep
    exact (ReflTransGen.single (.own _ reading (.start_read _ [] [] op rfl)
      (show wire.length ≤ answered.sent.length by omega))).tail hstep
  have hfinish : finish (m.peer answered.responses) op
      { reading with response := prepare_payload (f held), ops := [], read := wire.length + 1 } =
      { reading with
        response := m.moved (prepare_payload (f held)), ops := [], read := wire.length + 1
        completed := completed ++ [(op, .response (prepare_payload (f held)))] } := if_pos hsuccess
  have hfinished : ConnectionStep Quiet m server prepare_payload
      ⟨{ reading with
        response := prepare_payload (f held), ops := [(op, .received)], read := wire.length + 1 }, answered⟩
      ⟨{ reading with
        response := m.moved (prepare_payload (f held)), ops := [], read := wire.length + 1
        completed := completed ++ [(op, .response (prepare_payload (f held)))] }, answered⟩ :=
    .own _ _ (hfinish ▸ .finish _ [] [] op rfl) hcount.ge
  exact ⟨_, ((hwritten.trans hanswered).trans hreceived).tail hfinished, rfl, rfl, rfl⟩

end

/-! ### One call to a server with one route -/

def plainMessages : Messages Request where
  set_host := id
  received := id
  moved := id

theorem pingCall : ∃ s : Connection Request,
    ReflTransGen (ConnectionStep Quiet plainMessages pingServer prepareString)
        (Connection.connected plainMessages) s ∧
      s.client.completed.map Prod.fst = [0] ∧
      s.session.sent = [⟨pingRequest, prepareString { ({} : Response) with result := 204 }⟩] ∧
      (0, Outcome.response (prepareString { ({} : Response) with result := 204 })) ∈ s.client.completed := by
  have hroute : handle_request pingServer (plainMessages.received (plainMessages.set_host pingRequest)) =
      [.call "get__ping".toList] := rfl
  obtain ⟨s, hrun, -, hcompleted, hsent⟩ := exists_answeredCall (s := Connection.connected plainMessages)
    ⟨rfl, rfl⟩ rfl rfl hroute (fun r => { r with result := 204 }) trivial (fun _ => rfl)
    (show Response.successful (prepareString { ({} : Response) with result := 204 }) = true from rfl)
  refine ⟨s, hrun, by rw [hcompleted]; rfl, hsent, ?_⟩
  rw [hcompleted]
  exact List.mem_singleton_self _

/-- A run in which a second call is made before the first one is written: the session answers the request of the
second, with the status 404. -/
theorem answers_in_order_overlapping : ∃ s : Connection Request,
    s.client.submitted = [pingRequest, ⟨"/pong".toList, ⟨"get".toList⟩⟩] ∧ s.session.sent.length = 1 ∧
      s.session.sent.map Exchange.request = [⟨"/pong".toList, ⟨"get".toList⟩⟩] ∧
      s.session.sent.map Exchange.request = (s.client.wire.map Prod.snd).take s.session.sent.length := by
  let pong : Request := ⟨"/pong".toList, ⟨"get".toList⟩⟩
  let called : ClientBase Request Response :=
    { request := some pong, response := {}, ops := [(0, .called), (1, .called)], submitted := [pingRequest, pong] }
  let written : ClientBase Request Response :=
    { called with ops := [(0, .written), (1, .called)], wire := [(0, pong)] }
  have hcalled : ReflTransGen (ConnectionStep (fun _ => True) plainMessages pingServer prepareString)
      (Connection.connected plainMessages) ⟨called, {}⟩ :=
    (ReflTransGen.single (.client _ true _ (.call _ pingRequest) (fun _ => trivial) le_rfl)).tail
      (.client _ true called (.call _ pong) (fun _ => trivial) le_rfl)
  have hwritten : ReflTransGen (ConnectionStep (fun _ => True) plainMessages pingServer prepareString)
      ⟨called, {}⟩ ⟨written, {}⟩ :=
    (ReflTransGen.single (.own _ _ (.initiate _ [] [(1, .called)] 0 rfl) le_rfl)).tail
      (.own _ written (.write _ [] [(1, .called)] 0 pong rfl rfl) le_rfl)
  have hread : ConnectionStep (fun _ => True) plainMessages pingServer prepareString ⟨written, {}⟩ _ :=
    .read _ 0 pong rfl rfl trivial
  have hrun := (hcalled.trans hwritten).tail hread
  exact ⟨_, rfl, rfl, rfl, answers_in_order preparesPayload_prepareString hrun⟩

end Siesta
