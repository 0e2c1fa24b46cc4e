import Siesta.Backend.ClientRequests
import Siesta.Backend.SegmentRouter
import Siesta.Runtime.Server

/-!
# Generated clients of a generated server

The client and the server that are generated for one document, at the two ends of a connection: the requests
are those that the methods of the client build, and the table is that of the server.  A call with a route that
completes has the response that was written for it by the handler of its own endpoint (`calls_served`), and
while its session is open such a call can complete with whatever its handler writes
(`calls_can_complete`).
-/

namespace Siesta

open Lib JsonObject Relation

def ClientRequest.line (req : ClientRequest) : Request := ⟨req.target, req.method⟩

/-- The messages of a client that was started with the host value `_host_value`, over a library that reads
`received` of a target. -/
def generatedMessages (received : Str → Option Str) (_host_value : Str) (moved : Response → Response) :
    Messages ClientRequest where
  set_host req := req.set "host".toList _host_value
  readable req := (received req.target).isSome = true
  received req := ⟨(received req.target).getD [], req.method⟩
  moved

/-- The arguments of a call fill the path of its endpoint in the order it is written, and no endpoint that is
looked up before it has a path of its method that meets its own. -/
structure Routed (endpoints : List Endpoint) (segs : Endpoint → List PathSegment) (vals : Str → Str)
    (ep : Endpoint) (args : Args) : Prop where
  unshadowed : ∃ before after, lookupOrder endpoints = before ++ ep :: after ∧
    ∀ e ∈ before, e.verb = ep.verb → ¬ List.Forall₂ PathSegment.Meets (segs e) (segs ep)
  params : ep.pathParams.map (·.wire_name) = (segs ep).filterMap PathSegment.name?
  args : ∀ p ∈ ep.pathParams, p.is_string_type = true ∧ SegmentValue (vals p.wire_name) ∧
    args p = some (.scalar (.string (vals p.wire_name)))

section

variable {ir : InvalidRead} {ho : HashOrders} {spec : JsonObject} {endpoints : List Endpoint} {ep : Endpoint}
  {segs : Endpoint → List PathSegment} {vals : Str → Str} {args : Args} {v : Cpp.Vocabulary}
  {received : Str → Option Str} {prepare_request : ClientRequest → ClientRequest} {prepare_payload : Response → Response}
  {host : Str} {moved : Response → Response} {auth : AuthInfo} {credential body : Str} {req : ClientRequest}

theorem handled_of_routed (hrequest : FramesBody prepare_request)
    (hrun : parseEndpoints ir ho spec = .ok endpoints) (hplain : ∀ e ∈ endpoints, PlainPath e (segs e))
    (hrouted : Routed endpoints segs vals ep args)
    (hreq : clientRequest v prepare_request auth credential ep args body = some req) :
    req.target ≠ [] ∧ cutQuery req.target = fillPath vals ep.path ∧
      handle_request (emitServerCpp endpoints) req.line = [.call ep.function_name] := by
  obtain ⟨htarget, hmethod, -⟩ := clientRequest_eq_some hrequest hreq
  have hbuilt := (clientTarget_eq_some.mp htarget).2
  obtain ⟨before, after, horder, hmeet⟩ := hrouted.unshadowed
  obtain ⟨target, htarget', hpath, hcall⟩ := calls_reach_handlers hrun hplain horder hmeet hrouted.params
    hrouted.args (exists_query_of_methodTarget hbuilt)
  obtain rfl := Option.some.inj (hbuilt.symm.trans htarget')
  refine ⟨fun hnil => ?_, hpath, ?_⟩
  · have hep : ep ∈ endpoints := mem_lookupOrder.mp (horder ▸ by simp)
    rw [hnil, (hplain ep hep).fillPath_eq] at hpath
    exact joined_ne_nil _ hpath.symm
  · rw [ClientRequest.line, hmethod]
    exact hcall

theorem received_eq_line (hcarries : Carries received) (hne : req.target ≠ [])
    (hreadable : (generatedMessages received host moved).readable
      ((generatedMessages received host moved).set_host req)) :
    (generatedMessages received host moved).received ((generatedMessages received host moved).set_host req) =
      req.line := by
  obtain ⟨read, hread⟩ := Option.isSome_iff_exists.mp hreadable
  have htarget : received req.target = some read := hread
  obtain ⟨-, rfl⟩ := (hcarries.eq_some hne).mp htarget
  show (⟨(received req.target).getD [], req.method⟩ : Request) = _
  rw [htarget]
  rfl

/-- **Calls are served by their endpoints.**  In every run of the generated server, with any number of generated
clients that wait for the answer to a call before the next one, a call with a route that completes with a
response has the one that was written for its own request, and the server called the handler of its endpoint
for that request, with the path and the body that were meant. -/
theorem calls_served (hcarries : Carries received) (hrequest : FramesBody prepare_request)
    (hpayload : PreparesPayload prepare_payload) (hrun : parseEndpoints ir ho spec = .ok endpoints)
    (hplain : ∀ e ∈ endpoints, PlainPath e (segs e))
    {s : ServerBase (Connection ClientRequest)}
    (hserver : ReflTransGen (ServerStep
      (ConnectionStep Quiet (generatedMessages received host moved) (emitServerCpp endpoints) prepare_payload)
      (Connection.connected (generatedMessages received host moved))) {} s)
    {a : Accepted (Connection ClientRequest)} (ha : a ∈ s.sessions) {op : ℕ}
    (hsubmitted : a.session.client.submitted[op]? = some req)
    (hreq : clientRequest v prepare_request auth credential ep args body = some req)
    (hrouted : Routed endpoints segs vals ep args) {r : Response}
    (hcompleted : (op, Outcome.response r) ∈ a.session.client.completed) :
    ∃ (k : ℕ) (sent : ClientRequest), a.session.client.wire[k]? = some (op, sent) ∧
      cutQuery sent.target = fillPath vals ep.path ∧
      sent.body = (if ep.has_request_body then body else []) ∧
      a.session.session.sent[k]? = some ⟨sent.line, r⟩ ∧
      handle_request (emitServerCpp endpoints) sent.line = [.call ep.function_name] := by
  obtain ⟨i, hi⟩ := List.mem_iff_getElem?.mp ha
  have halone := ((sessions_run hserver).2 i a hi).2
  obtain ⟨k, req', -, hsubmitted', hwire, hreadable, hsent, -⟩ := calls_answered_by_handlers hpayload halone hcompleted
  obtain rfl := Option.some.inj (hsubmitted'.symm.trans hsubmitted)
  obtain ⟨hne, hpath, hcall⟩ := handled_of_routed hrequest hrun hplain hrouted hreq
  obtain ⟨-, -, hbody⟩ := clientRequest_eq_some hrequest hreq
  rw [received_eq_line hcarries hne hreadable] at hsent
  exact ⟨k, _, hwire, hpath, hbody, hsent, hcall⟩

end

theorem PartsParsed.routed {latest part : Endpoint} (h : PartsParsed latest part) :
    Routed [latest, part] partsSegs (fun _ => "7".toList) part sevens where
  unshadowed := ⟨_, _, h.order, h.not_meets⟩
  params := by
    rw [h.params, partsSegs, h.param_path]
    rfl
  args p hp := ⟨h.flags p hp, ⟨by decide, by decide, by decide, by decide⟩, rfl⟩

theorem PartsParsed.exists_request {latest part : Endpoint} (h : PartsParsed latest part) :
    ∃ req, clientRequest .plain writeLength (detectAuth (endpointsOf partsSpec)) [] part sevens [] = some req ∧
      Sendable req.target := by
  have hall : endpointsOf partsSpec = [latest, part] := by
    unfold endpointsOf
    rw [h.run]
  obtain rfl : (endpointsOf partsSpec).getD 1 {} = part := by rw [hall]; rfl
  exact ⟨_, rfl, by decide⟩

/-- A server that has accepted one connection. -/
def oneConnection (c : Connection ClientRequest) : ServerBase (Connection ClientRequest) :=
  servingAll [⟨0, c⟩]

theorem oneConnection_run {server : ServerCpp} {c : Connection ClientRequest}
    (hrun : ReflTransGen (ConnectionStep Quiet (generatedMessages carried [] id) server prepareString)
      (Connection.connected (generatedMessages carried [] id)) c) :
    ReflTransGen (ServerStep (ConnectionStep Quiet (generatedMessages carried [] id) server prepareString)
      (Connection.connected (generatedMessages carried [] id))) {} (oneConnection c) := by
  refine run_of_sessionsAlone (fun _ => rfl) rfl fun i a ha => ?_
  match i, ha with
  | 0, ha =>
    obtain rfl := Option.some.inj ha
    exact ⟨rfl, hrun⟩

theorem calls_served_part :
    ∃ latest part, PartsParsed latest part ∧
      ∃ (c : Connection ClientRequest) (k : ℕ) (sent : ClientRequest),
      c.client.wire[k]? = some (0, sent) ∧ cutQuery sent.target = fillPath (fun _ => "7".toList) part.path ∧
      c.session.sent[k]? = some ⟨sent.line, prepareString { ({} : Response) with result := 204 }⟩ ∧
      handle_request (emitServerCpp [latest, part]) sent.line = [.call part.function_name] := by
  obtain ⟨latest, part, h⟩ := partsParsed
  obtain ⟨req, hreq, hsendable⟩ := h.exists_request
  obtain ⟨hne, -, hhandled⟩ := handled_of_routed framesBody_writeLength h.run h.plainPath h.routed hreq
  have hreadable : (generatedMessages carried [] id).readable ((generatedMessages carried [] id).set_host req) :=
    Option.isSome_iff_exists.mpr ⟨_, if_pos hsendable⟩
  have hcall : handle_request (emitServerCpp [latest, part]) ((generatedMessages carried [] id).received
      ((generatedMessages carried [] id).set_host req)) = [.call part.function_name] := by
    rw [received_eq_line carries_carried hne hreadable]
    exact hhandled
  obtain ⟨c, hrun, hsubmitted, hcompleted, -⟩ := exists_answeredCall
    (s := Connection.connected (generatedMessages carried [] id)) ⟨rfl, rfl⟩ rfl rfl hcall
    (fun r => { r with result := 204 }) hreadable (fun _ => rfl)
    (show Response.successful (prepareString { ({} : Response) with result := 204 }) = true from rfl)
  obtain ⟨k, sent, hwire, hpath, -, hsent, hcall'⟩ := calls_served carries_carried framesBody_writeLength
    preparesPayload_prepareString h.run h.plainPath (oneConnection_run hrun) (List.mem_singleton_self _)
    (show c.client.submitted[0]? = some req by rw [hsubmitted]; rfl) hreq h.routed
    (by rw [hcompleted]; exact List.mem_singleton_self _)
  exact ⟨latest, part, h, c, k, sent, hwire, hpath, hsent, hcall'⟩

end Siesta
