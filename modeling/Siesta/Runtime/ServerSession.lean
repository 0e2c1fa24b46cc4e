import Siesta.Backend.BeastServer
import Siesta.Lib.Runs

/-!
# One connection of the server: `src/beast/server.cpp`, `include/siesta/beast/server.hpp`

A `Session` reads a request, has it handled, writes the response and reads the next one.  The request
is cleared in between, the response is not: the generated 404 branch sets its status and writes what
earlier handlers have left (`unrouted_response_iff`).
-/

namespace Siesta

open Lib Relation

/-- A response of `boost::beast::http`; the values of each field name, which stands in lower case. -/
structure Response where
  result : ℕ := 200
  version : ℕ := 11
  reason : Str := []
  fields : Str → List Str := fun _ => []
  body : Str := []

def contentLength : Str := "content-length".toList
def transferEncoding : Str := "transfer-encoding".toList
def contentType : Str := "content-type".toList

/-- What is documented of `prepare_payload` on a response with a string body: it writes the length of
the body, takes `chunked` out of the transfer encoding, and changes nothing else. -/
structure PreparesPayload (prepare_payload : Response → Response) : Prop where
  result : ∀ r, (prepare_payload r).result = r.result
  version : ∀ r, (prepare_payload r).version = r.version
  reason : ∀ r, (prepare_payload r).reason = r.reason
  body : ∀ r, (prepare_payload r).body = r.body
  length : ∀ r, (prepare_payload r).fields contentLength = [(Nat.repr r.body.length).toList]
  other : ∀ r n, n ≠ contentLength → n ≠ transferEncoding → (prepare_payload r).fields n = r.fields n
  no_encoding : ∀ r, r.fields transferEncoding = [] → (prepare_payload r).fields transferEncoding = []
  stable : ∀ r status, (prepare_payload { prepare_payload r with result := status }).fields transferEncoding =
    (prepare_payload r).fields transferEncoding

/-! ### The session -/

/-- What a session waits for. -/
inductive Phase where
  | reading
  /-- A handler has the request. -/
  | handling (req : Request) (function_name : Str)
  | writing
  /-- After an error, or the end of the stream. -/
  | closed

/-- A response that was written, and the request it is for. -/
structure Exchange where
  request : Request
  response : Response

/-- A `Session`. -/
structure Session where
  /-- `_response`. -/
  response : Response := {}
  phase : Phase := .reading
  /-- What has been written, in its order. -/
  sent : List Exchange := []

section

variable (server : ServerCpp) (prepare_payload : Response → Response)

/-- `write`: the response as it is, prepared. -/
def write (req : Request) (s : Session) : Session :=
  let response := prepare_payload s.response
  { response, phase := .writing, sent := s.sent ++ [⟨req, response⟩] }

/-- `on_read`, when it has a request: `handle_request` calls a handler, or sets the status and writes. -/
def on_read (req : Request) (s : Session) : Session :=
  (handle_request server req).foldl (fun s action =>
    match action with
    | .call function_name => { s with phase := .handling req function_name }
    | .notFound => write prepare_payload req { s with response := { s.response with result := 404 } }) s

/-- What can happen next on the connection.  A handler does anything to the response, and writes it. -/
inductive SessionStep : Session → Session → Prop
  | read (s : Session) (req : Request) (h : s.phase = .reading) :
      SessionStep s (on_read server prepare_payload req s)
  | read_fails (s : Session) (h : s.phase = .reading) : SessionStep s { s with phase := .closed }
  | handler (s : Session) (req : Request) (function_name : Str) (f : Response → Response)
      (h : s.phase = .handling req function_name) :
      SessionStep s (write prepare_payload req { s with response := f s.response })
  | written (s : Session) (h : s.phase = .writing) : SessionStep s { s with phase := .reading }
  | write_fails (s : Session) (h : s.phase = .writing) : SessionStep s { s with phase := .closed }

/-- No route matches the request. -/
def Unrouted (req : Request) : Prop := handle_request server req = [.notFound]

instance (req : Request) : Decidable (Unrouted server req) := inferInstanceAs (Decidable (_ = _))

end

theorem handle_request_cases (server : ServerCpp) (req : Request) :
    (∃ fn, handle_request server req = [.call fn]) ∨ Unrouted server req := by
  unfold Unrouted handle_request
  dsimp only
  split
  · exact .inl ⟨_, rfl⟩
  · split
    · exact .inl ⟨_, rfl⟩
    · exact .inr rfl

/-! ### What a session has sent -/

section

variable {server : ServerCpp} {prepare_payload : Response → Response}

/-- The response that the session holds after it has sent those of a list. -/
def lastResponse (sent : List Exchange) : Response := (sent.getLast?.map Exchange.response).getD {}

@[simp] theorem lastResponse_concat (sent : List Exchange) (e : Exchange) :
    lastResponse (sent ++ [e]) = e.response := by
  simp [lastResponse]

/-- How each response of a list was made from the one before it. -/
inductive Exchanged (server : ServerCpp) (prepare_payload : Response → Response) : List Exchange → Prop
  | nil : Exchanged server prepare_payload []
  | routed {sent : List Exchange} {req : Request} {r : Response} (h : ¬ Unrouted server req)
      (hsent : Exchanged server prepare_payload sent) :
      Exchanged server prepare_payload (sent ++ [⟨req, prepare_payload r⟩])
  | unrouted {sent : List Exchange} {req : Request} (h : Unrouted server req)
      (hsent : Exchanged server prepare_payload sent) :
      Exchanged server prepare_payload
        (sent ++ [⟨req, prepare_payload { lastResponse sent with result := 404 }⟩])

theorem on_read_routed {req : Request} {fn : Str} (h : handle_request server req = [.call fn]) (s : Session) :
    on_read server prepare_payload req s = { s with phase := .handling req fn } := by
  rw [on_read, h]
  rfl

theorem on_read_unrouted {req : Request} (h : Unrouted server req) (s : Session) :
    on_read server prepare_payload req s =
      write prepare_payload req { s with response := { s.response with result := 404 } } := by
  rw [Unrouted] at h
  rw [on_read, h]
  rfl

theorem response_write (req : Request) (s : Session) :
    (write prepare_payload req s).response = lastResponse (write prepare_payload req s).sent :=
  (lastResponse_concat s.sent ⟨req, prepare_payload s.response⟩).symm

/-- The session holds the last response it has sent; only routed requests wait for a handler. -/
structure SessionInv (server : ServerCpp) (prepare_payload : Response → Response) (s : Session) : Prop where
  response : s.response = lastResponse s.sent
  written : Exchanged server prepare_payload s.sent
  routed : ∀ req fn, s.phase = .handling req fn → ¬ Unrouted server req

theorem sessionInv_step {s s' : Session} (h : SessionInv server prepare_payload s)
    (hstep : SessionStep server prepare_payload s s') : SessionInv server prepare_payload s' := by
  cases hstep with
  | read req hphase =>
    rcases handle_request_cases server req with ⟨fn, hcall⟩ | hun
    · have hroute : ¬ Unrouted server req := by
        rw [Unrouted, hcall]
        simp
      rw [on_read_routed hcall]
      exact ⟨h.response, h.written, fun req' fn' hp => by
        obtain ⟨rfl, -⟩ := Phase.handling.inj hp
        exact hroute⟩
    · have hnext := Exchanged.unrouted hun h.written
      rw [← h.response] at hnext
      rw [on_read_unrouted hun]
      exact ⟨response_write req _, hnext, fun req' fn' hp => by cases hp⟩
  | read_fails hphase => exact ⟨h.response, h.written, fun req' fn' hp => by cases hp⟩
  | handler req fn f hphase =>
    exact ⟨response_write req _, .routed (h.routed req fn hphase) h.written,
      fun req' fn' hp => by cases hp⟩
  | written hphase => exact ⟨h.response, h.written, fun req' fn' hp => by cases hp⟩
  | write_fails hphase => exact ⟨h.response, h.written, fun req' fn' hp => by cases hp⟩

theorem sessionInv_run {s : Session} (hrun : ReflTransGen (SessionStep server prepare_payload) {} s) :
    SessionInv server prepare_payload s :=
  invariant (I := SessionInv server prepare_payload) (fun _ _ => sessionInv_step)
    ⟨rfl, .nil, fun req fn hp => by cases hp⟩ hrun

/-- A part of what a session has sent was written the same way. -/
theorem written_of_append {before after : List Exchange}
    (h : Exchanged server prepare_payload (before ++ after)) : Exchanged server prepare_payload before := by
  induction after using List.reverseRecOn with
  | nil => simpa using h
  | append_singleton after e ih =>
    refine ih ?_
    rw [← List.append_assoc] at h
    generalize hl : before ++ after ++ [e] = l at h
    cases h with
    | nil => simp at hl
    | routed _ hsent => exact (List.append_inj_left' hl rfl) ▸ hsent
    | unrouted _ hsent => exact (List.append_inj_left' hl rfl) ▸ hsent

/-! ### What the 404 branch sends -/

/-- Apart from its status and the length of its body, the response is a fresh one. -/
structure Response.Bare (r : Response) : Prop where
  version : r.version = 11
  reason : r.reason = []
  body : r.body = []
  fields : ∀ n, n ≠ contentLength → r.fields n = []

theorem bare_fresh : Response.Bare {} := ⟨rfl, rfl, rfl, fun _ _ => rfl⟩

/-- The response to an unrouted request that is the first one of its session. -/
def firstResponse (server : ServerCpp) (prepare_payload : Response → Response) (req : Request) : Response :=
  lastResponse (on_read server prepare_payload req {}).sent

theorem firstResponse_eq {req : Request} (h : Unrouted server req) :
    firstResponse server prepare_payload req = prepare_payload { ({} : Response) with result := 404 } := by
  rw [firstResponse, on_read_unrouted h]
  exact lastResponse_concat [] _

variable (hprepare : PreparesPayload prepare_payload)
include hprepare

theorem bare_prepare (r : Response) (status : ℕ) (h : r.Bare) :
    (prepare_payload { r with result := status }).Bare := by
  have hencoding : r.fields transferEncoding = [] := h.fields _ (by decide)
  refine ⟨?_, ?_, ?_, fun n hn => ?_⟩
  · rw [hprepare.version]
    exact h.version
  · rw [hprepare.reason]
    exact h.reason
  · rw [hprepare.body]
    exact h.body
  · by_cases hte : n = transferEncoding
    · subst hte
      exact hprepare.no_encoding _ hencoding
    · rw [hprepare.other _ n hn hte]
      exact h.fields n hn

/-- A response that was prepared is only bare again when it was bare before. -/
theorem bare_of_prepare {r : Response} {status : ℕ} (hprepared : r = {} ∨ ∃ r₀, r = prepare_payload r₀)
    (h : (prepare_payload { r with result := status }).Bare) : r.Bare := by
  refine ⟨?_, ?_, ?_, fun n hn => ?_⟩
  · rw [← h.version, hprepare.version]
  · rw [← h.reason, hprepare.reason]
  · rw [← h.body, hprepare.body]
  · by_cases hte : n = transferEncoding
    · subst hte
      rcases hprepared with rfl | ⟨r₀, rfl⟩
      · rfl
      · rw [← hprepare.stable r₀ status]
        exact h.fields _ (by decide)
    · have hother := h.fields n hn
      rwa [hprepare.other _ n hn hte] at hother

theorem prepare_eq_of_bare {r r' : Response} (h : r.Bare) (h' : r'.Bare) (status : ℕ) :
    prepare_payload { r with result := status } = prepare_payload { r' with result := status } := by
  have hb := bare_prepare hprepare r status h
  have hb' := bare_prepare hprepare r' status h'
  have hfields : (prepare_payload { r with result := status }).fields =
      (prepare_payload { r' with result := status }).fields := by
    funext n
    by_cases hn : n = contentLength
    · subst hn
      rw [hprepare.length, hprepare.length]
      show [(Nat.repr r.body.length).toList] = [(Nat.repr r'.body.length).toList]
      rw [h.body, h'.body]
    · rw [hb.fields n hn, hb'.fields n hn]
  have hext : ∀ x y : Response, x.result = y.result → x.version = y.version → x.reason = y.reason →
      x.fields = y.fields → x.body = y.body → x = y := by
    rintro ⟨⟩ ⟨⟩ rfl rfl rfl rfl rfl
    rfl
  refine hext _ _ ?_ (hb.version.trans hb'.version.symm) (hb.reason.trans hb'.reason.symm) hfields
    (hb.body.trans hb'.body.symm)
  rw [hprepare.result, hprepare.result]

omit hprepare in
theorem prepared_lastResponse {sent : List Exchange} (h : Exchanged server prepare_payload sent) :
    lastResponse sent = {} ∨ ∃ r, lastResponse sent = prepare_payload r := by
  cases h with
  | nil => exact .inl rfl
  | routed _ _ => exact .inr ⟨_, lastResponse_concat ..⟩
  | unrouted _ _ => exact .inr ⟨_, lastResponse_concat ..⟩

/-- The last response of a list that a handler has written. -/
def lastRouted (server : ServerCpp) (sent : List Exchange) : Option Response :=
  (sent.reverse.find? fun e => ¬ Unrouted server e.request).map Exchange.response

/-- What the session holds is bare when the last handler has left it so. -/
theorem bare_lastResponse_iff {sent : List Exchange} (h : Exchanged server prepare_payload sent) :
    (lastResponse sent).Bare ↔ ∀ r, lastRouted server sent = some r → r.Bare := by
  induction h with
  | nil => simp [lastRouted, lastResponse, bare_fresh]
  | @routed sent req r hreq hsent ih =>
    have hlast : lastRouted server (sent ++ [⟨req, prepare_payload r⟩]) = some (prepare_payload r) := by
      simp [lastRouted, hreq]
    rw [hlast, lastResponse_concat]
    simp
  | @unrouted sent req hreq hsent ih =>
    have hlast : ∀ r, lastRouted server (sent ++ [⟨req, r⟩]) = lastRouted server sent := by
      intro r
      simp [lastRouted, hreq]
    rw [hlast, lastResponse_concat, ← ih]
    exact ⟨bare_of_prepare hprepare (prepared_lastResponse hsent), bare_prepare hprepare _ 404⟩

omit hprepare in
theorem response_of_unrouted {before after : List Exchange} {e : Exchange}
    (h : Exchanged server prepare_payload (before ++ e :: after)) (hun : Unrouted server e.request) :
    e.response = prepare_payload { lastResponse before with result := 404 } := by
  have hsplit : Exchanged server prepare_payload ((before ++ [e]) ++ after) := by simpa using h
  have hfront := written_of_append hsplit
  generalize hl : before ++ [e] = l at hfront
  cases hfront with
  | nil => simp at hl
  | routed hreq _ =>
    obtain ⟨-, he⟩ := List.append_inj' hl rfl
    obtain rfl := (List.cons.inj he).1
    exact absurd hun hreq
  | unrouted _ _ =>
    obtain ⟨rfl, he⟩ := List.append_inj' hl rfl
    rw [(List.cons.inj he).1]

/-- **When a 404 response is that of a fresh session.**  In every run, the response to a request that no
route matches is the one its session would have sent first, exactly when the last request before it that
was routed, if any, was answered with neither a body nor a header field. -/
theorem unrouted_response_iff {s : Session} (hrun : ReflTransGen (SessionStep server prepare_payload) {} s)
    {before after : List Exchange} {e : Exchange} (hsent : s.sent = before ++ e :: after)
    (hun : Unrouted server e.request) :
    e.response = firstResponse server prepare_payload e.request ↔
      ∀ r, lastRouted server before = some r → r.Bare := by
  have hwritten := (sessionInv_run hrun).written
  rw [hsent] at hwritten
  have hbefore : Exchanged server prepare_payload before := written_of_append hwritten
  rw [response_of_unrouted hwritten hun, firstResponse_eq hun, ← bare_lastResponse_iff hprepare hbefore]
  constructor
  · intro h
    have hbare : (prepare_payload { lastResponse before with result := 404 }).Bare := by
      rw [h]
      exact bare_prepare hprepare _ 404 bare_fresh
    exact bare_of_prepare hprepare (prepared_lastResponse hbefore) hbare
  · exact fun h => prepare_eq_of_bare hprepare h bare_fresh 404

end

/-- `prepare_payload` on a string body. -/
def prepareString (r : Response) : Response :=
  { r with
    fields := fun n =>
      if n = contentLength then [(Nat.repr r.body.length).toList]
      else if n = transferEncoding then (r.fields n).filter (· ≠ "chunked".toList)
      else r.fields n }

theorem fields_prepareString (r : Response) (n : Str) :
    (prepareString r).fields n =
      if n = contentLength then [(Nat.repr r.body.length).toList]
      else if n = transferEncoding then (r.fields n).filter (· ≠ "chunked".toList)
      else r.fields n := rfl

theorem transferEncoding_prepareString (r : Response) :
    (prepareString r).fields transferEncoding =
      (r.fields transferEncoding).filter (· ≠ "chunked".toList) := by
  have hne : transferEncoding ≠ contentLength := by decide
  rw [fields_prepareString, if_neg hne, if_pos rfl]

theorem preparesPayload_prepareString : PreparesPayload prepareString where
  result _ := rfl
  version _ := rfl
  reason _ := rfl
  body _ := rfl
  length r := by rw [fields_prepareString, if_pos rfl]
  other r n h h' := by rw [fields_prepareString, if_neg h, if_neg h']
  no_encoding r h := by
    rw [transferEncoding_prepareString, h]
    rfl
  stable r status := by
    rw [transferEncoding_prepareString]
    show ((prepareString r).fields transferEncoding).filter _ = _
    rw [transferEncoding_prepareString, List.filter_filter]
    simp only [Bool.and_self]

/-- A server with one route. -/
def pingServer : ServerCpp :=
  { STATIC_PATHS := [(("/ping".toList, ⟨"get".toList⟩), "get__ping".toList)], PARAM_PATHS := [] }

def pingRequest : Request := ⟨"/ping".toList, ⟨"get".toList⟩⟩
def lostRequest : Request := ⟨"/pong".toList, ⟨"get".toList⟩⟩

/-- The run in which `/ping` is answered as `f` says, and then `/pong` is asked for. -/
theorem pingRun (f : Response → Response) :
    ∃ s : Session, ReflTransGen (SessionStep pingServer prepareString) {} s ∧
      s.sent = [⟨pingRequest, prepareString (f {})⟩] ++
        ⟨lostRequest, prepareString { prepareString (f {}) with result := 404 }⟩ :: [] :=
  ⟨_, (((ReflTransGen.single (.read _ pingRequest rfl)).tail
    (.handler _ pingRequest "get__ping".toList f rfl)).tail (.written _ rfl)).tail
    (.read _ lostRequest rfl), rfl⟩

theorem unrouted_response_iff_ping :
    prepareString { prepareString { ({} : Response) with result := 204 } with result := 404 } =
      firstResponse pingServer prepareString lostRequest := by
  obtain ⟨s, hrun, hsent⟩ := pingRun fun r => { r with result := 204 }
  refine (unrouted_response_iff preparesPayload_prepareString hrun hsent (by decide)).mpr fun r hr => ?_
  obtain rfl := Option.some.inj hr
  refine ⟨rfl, rfl, rfl, fun n hn => ?_⟩
  rw [fields_prepareString, if_neg hn]
  split <;> rfl

/-- The body of the answer to `/ping` is sent again with the 404 response to `/pong`. -/
theorem body_leaks :
    ∃ s : Session, ReflTransGen (SessionStep pingServer prepareString) {} s ∧
      ∃ before e after, s.sent = before ++ e :: after ∧ Unrouted pingServer e.request ∧
        e.response.body = "secret".toList ∧
        (firstResponse pingServer prepareString e.request).body = [] := by
  obtain ⟨s, hrun, hsent⟩ := pingRun fun r => { r with body := "secret".toList }
  exact ⟨s, hrun, _, _, _, hsent, by decide, rfl, rfl⟩

end Siesta
