import Siesta.Runtime.Server

/-!
# Servers in Python: `generator/src/Backend/Beast/BeastServerPythonGen.cpp`

`emitServerPy` overrides every handler of the generated server: the override calls the method of the Python
class and writes what it returns as JSON, or answers with the status 501 when the class has no such method.
A session of such a server is a session (`pySession_refines`), and its responses come to `pyResponse`: those
to a request without a method, or without a route, carry what the last method has left (`python_responses`).
-/

namespace Siesta

open Lib Relation

/-! ### The overrides -/

def applicationJson : Str := "application/json".toList

/-- `resp.set(name, value)`. -/
def Response.set (name value : Str) (r : Response) : Response :=
  { r with fields := fun n => if n = name then [value] else r.fields n }

theorem fields_set (name value : Str) (r : Response) (n : Str) :
    (r.set name value).fields n = if n = name then [value] else r.fields n := rfl

/-- `std::string("{\"error\":\"") + e.what() + "\"}"`. -/
def errorBody (what : Str) : Str := "\x7b\"error\":\"".toList ++ what ++ "\"\x7d".toList

/-- How the call of a Python method ends. -/
inductive PyOutcome where
  /-- It returns, and `json.dumps` has this text for the result. -/
  | returned (text : Str)
  /-- It returns, and there is no text for the result. -/
  | not_dumped (what : Str)
  | raised (what : Str)
  /-- `nb_ticket.key` is not valid. -/
  | not_overridden
  deriving DecidableEq

section

variable (server : ServerCpp) (prepare_payload : Response → Response)

/-- What both of the `catch` blocks do to the response. -/
def internal_server_error (what : Str) (resp : Response) : Response :=
  prepare_payload (Response.set contentType applicationJson { resp with result := 500, body := errorBody what })

/-- `write_json_response`, up to `session->write()`; the result that is dumped has a text or an exception. -/
def write_json_response (dumped : Except Str Str) (resp : Response) : Response :=
  match dumped with
  | .ok body =>
    prepare_payload (Response.set contentType applicationJson { resp with body, result := 200 })
  | .error what => internal_server_error prepare_payload what resp

/-- The override of a handler, up to `session->write()`. -/
def pyOverride (outcome : PyOutcome) (resp : Response) : Response :=
  match outcome with
  | .returned text => write_json_response prepare_payload (.ok text) resp
  | .not_dumped what => write_json_response prepare_payload (.error what) resp
  | .raised what => internal_server_error prepare_payload what resp
  | .not_overridden => { resp with result := 501 }

/-- A session of a Python server, and how the method for each of its responses has ended: a request that no
route matches has none. -/
structure PySession where
  session : Session := {}
  outcomes : List (Option PyOutcome) := []

inductive PyStep : PySession → PySession → Prop
  | read (s : PySession) (req : Request) (h : s.session.phase = .reading) (hrouted : ¬ Unrouted server req) :
      PyStep s { s with session := on_read server prepare_payload req s.session }
  | read_unrouted (s : PySession) (req : Request) (h : s.session.phase = .reading)
      (hunrouted : Unrouted server req) :
      PyStep s ⟨on_read server prepare_payload req s.session, s.outcomes ++ [none]⟩
  | read_fails (s : PySession) (h : s.session.phase = .reading) :
      PyStep s { s with session := { s.session with phase := .closed } }
  | handler (s : PySession) (req : Request) (function_name : Str) (outcome : PyOutcome)
      (h : s.session.phase = .handling req function_name) :
      PyStep s
        ⟨write prepare_payload req { s.session with
          response := pyOverride prepare_payload outcome s.session.response }, s.outcomes ++ [some outcome]⟩
  | written (s : PySession) (h : s.session.phase = .writing) :
      PyStep s { s with session := { s.session with phase := .reading } }
  | write_fails (s : PySession) (h : s.session.phase = .writing) :
      PyStep s { s with session := { s.session with phase := .closed } }

variable {server} {prepare_payload}

/-- **A session of a Python server is a session.** -/
theorem pySession_refines {s s' : PySession} (h : PyStep server prepare_payload s s') :
    SessionStep server prepare_payload s.session s'.session := by
  cases h with
  | read req hphase _ => exact .read _ req hphase
  | read_unrouted req hphase _ => exact .read _ req hphase
  | read_fails hphase => exact .read_fails _ hphase
  | handler req fn outcome hphase => exact .handler _ req fn (pyOverride prepare_payload outcome) hphase
  | written hphase => exact .written _ hphase
  | write_fails hphase => exact .write_fails _ hphase

end

/-! ### What the responses come to -/

/-- The body that a method writes. -/
def PyOutcome.answer : PyOutcome → Option Str
  | .returned text => some text
  | .not_dumped what => some (errorBody what)
  | .raised what => some (errorBody what)
  | .not_overridden => none

def pyStatus : Option PyOutcome → ℕ
  | none => 404
  | some (.returned _) => 200
  | some (.not_dumped _) => 500
  | some (.raised _) => 500
  | some .not_overridden => 501

/-- The body that the last method has left. -/
def leftBody (outcomes : List (Option PyOutcome)) : Option Str :=
  outcomes.reverse.findSome? fun outcome => outcome.bind PyOutcome.answer

/-- The response to the last request of a session. -/
def pyResponse (outcomes : List (Option PyOutcome)) : Response where
  result := pyStatus (outcomes.getLast?.getD none)
  body := (leftBody outcomes).getD []
  fields n :=
    if n = contentLength then [(Nat.repr ((leftBody outcomes).getD []).length).toList]
    else if n = contentType ∧ (leftBody outcomes).isSome then [applicationJson]
    else []

theorem leftBody_concat (outcomes : List (Option PyOutcome)) (outcome : Option PyOutcome) :
    leftBody (outcomes ++ [outcome]) = (outcome.bind PyOutcome.answer).or (leftBody outcomes) := by
  unfold leftBody
  rw [List.reverse_append, List.reverse_singleton, List.singleton_append, List.findSome?_cons]
  cases outcome.bind PyOutcome.answer <;> rfl

/-- **A method decides its response.**  Nothing of the requests before it is in the response of a method that
was called. -/
theorem pyResponse_of_answer (outcomes : List (Option PyOutcome)) {outcome : PyOutcome}
    (h : outcome.answer ≠ none) : pyResponse (outcomes ++ [some outcome]) = pyResponse [some outcome] := by
  obtain ⟨body, hbody⟩ := Option.ne_none_iff_exists'.mp h
  have hleft : ∀ before, leftBody (before ++ [some outcome]) = some body := by
    intro before
    rw [leftBody_concat, Option.bind_some, hbody, Option.some_or]
  have hone : leftBody [some outcome] = some body := hleft []
  unfold pyResponse
  rw [hleft, hone, List.getLast?_concat]
  rfl

section

variable {server : ServerCpp} {prepare_payload : Response → Response} (hprepare : PreparesPayload prepare_payload)
include hprepare

/-- What a session of a Python server holds, apart from the status and the length of the body. -/
structure LeftBy (left : Option Str) (r : Response) : Prop where
  version : r.version = 11
  reason : r.reason = []
  body : r.body = left.getD []
  content_type : r.fields contentType = if left.isSome then [applicationJson] else []
  fields : ∀ n, n ≠ contentLength → n ≠ contentType → r.fields n = []

omit hprepare in
theorem leftBy_status {left : Option Str} {r : Response} (h : LeftBy left r) (status : ℕ) :
    LeftBy left { r with result := status } := ⟨h.version, h.reason, h.body, h.content_type, h.fields⟩

theorem leftBy_prepare {left : Option Str} {r : Response} (h : LeftBy left r) :
    LeftBy left (prepare_payload r) := by
  have hte : transferEncoding ≠ contentLength := by decide
  have hct : transferEncoding ≠ contentType := by decide
  refine ⟨?_, ?_, ?_, ?_, fun n hn hn' => ?_⟩
  · rw [hprepare.version, h.version]
  · rw [hprepare.reason, h.reason]
  · rw [hprepare.body, h.body]
  · rw [hprepare.other _ _ (by decide) (by decide), h.content_type]
  · by_cases htransfer : n = transferEncoding
    · subst htransfer
      exact hprepare.no_encoding _ (h.fields _ hte hct)
    · rw [hprepare.other _ n hn htransfer, h.fields n hn hn']

omit hprepare in
theorem leftBy_answer {left : Option Str} {r : Response} (h : LeftBy left r) (body : Str) (status : ℕ) :
    LeftBy (some body) (Response.set contentType applicationJson { r with result := status, body }) := by
  refine ⟨h.version, h.reason, rfl, ?_, fun n hn hn' => ?_⟩
  · rw [fields_set, if_pos rfl]
    rfl
  · rw [fields_set, if_neg hn']
    exact h.fields n hn hn'

theorem leftBy_pyOverride {left : Option Str} {r : Response} (h : LeftBy left r) (outcome : PyOutcome) :
    LeftBy (outcome.answer.or left) (pyOverride prepare_payload outcome r) ∧
      (pyOverride prepare_payload outcome r).result = pyStatus (some outcome) := by
  cases outcome with
  | returned text => exact ⟨leftBy_prepare hprepare (leftBy_answer h text 200), hprepare.result _⟩
  | not_dumped what =>
    exact ⟨leftBy_prepare hprepare (leftBy_answer h (errorBody what) 500), hprepare.result _⟩
  | raised what =>
    exact ⟨leftBy_prepare hprepare (leftBy_answer h (errorBody what) 500), hprepare.result _⟩
  | not_overridden => exact ⟨leftBy_status h 501, rfl⟩

theorem prepare_eq_pyResponse {outcomes : List (Option PyOutcome)} {outcome : Option PyOutcome} {r : Response}
    (h : LeftBy (leftBody (outcomes ++ [outcome])) r) (hresult : r.result = pyStatus outcome) :
    prepare_payload r = pyResponse (outcomes ++ [outcome]) := by
  have hprepared := leftBy_prepare hprepare h
  have hext : ∀ x y : Response, x.result = y.result → x.version = y.version → x.reason = y.reason →
      x.fields = y.fields → x.body = y.body → x = y := by
    rintro ⟨⟩ ⟨⟩ rfl rfl rfl rfl rfl
    rfl
  refine hext _ _ ?_ hprepared.version hprepared.reason ?_ hprepared.body
  · rw [hprepare.result, hresult]
    simp [pyResponse]
  · funext n
    show _ = if n = contentLength then _ else if _ then _ else _
    by_cases hlength : n = contentLength
    · rw [if_pos hlength, hlength, hprepare.length, h.body]
    · rw [if_neg hlength]
      by_cases htype : n = contentType
      · rw [htype, hprepared.content_type]
        simp
      · rw [hprepared.fields n hlength htype, if_neg fun hand => htype hand.1]

/-- The responses of a session, and what it holds. -/
structure PyInv (server : ServerCpp) (s : PySession) : Prop where
  left : LeftBy (leftBody s.outcomes) s.session.response
  sent : ∀ k e, s.session.sent[k]? = some e → e.response = pyResponse (s.outcomes.take (k + 1)) ∧
    (s.outcomes[k]? = some none ↔ Unrouted server e.request)
  count : s.session.sent.length = s.outcomes.length
  routed : ∀ req fn, s.session.phase = .handling req fn → ¬ Unrouted server req

theorem PyInv.write {s : PySession} (hs : PyInv server s) {req : Request} {outcome : Option PyOutcome}
    {r : Response} (hleft : LeftBy (leftBody (s.outcomes ++ [outcome])) r) (hresult : r.result = pyStatus outcome)
    (hreq : outcome = none ↔ Unrouted server req) :
    PyInv server ⟨Siesta.write prepare_payload req { s.session with response := r }, s.outcomes ++ [outcome]⟩ := by
  refine ⟨leftBy_prepare hprepare hleft, fun k e he => ?_, ?_, fun req' fn hphase => (by cases hphase)⟩
  · rcases getElem?_concat_cases he with he | ⟨rfl, rfl⟩
    · have hlt : k < s.outcomes.length := hs.count ▸ (List.getElem?_eq_some_iff.mp he).1
      obtain ⟨hresponse, hunrouted⟩ := hs.sent k e he
      show e.response = pyResponse ((s.outcomes ++ [outcome]).take (k + 1)) ∧
        ((s.outcomes ++ [outcome])[k]? = some none ↔ _)
      rw [List.take_append_of_le_length hlt, List.getElem?_append_left hlt]
      exact ⟨hresponse, hunrouted⟩
    · -- the response that is written now
      show prepare_payload r = pyResponse ((s.outcomes ++ [outcome]).take (s.session.sent.length + 1)) ∧
        ((s.outcomes ++ [outcome])[s.session.sent.length]? = some none ↔ _)
      rw [List.take_of_length_le (by simp [hs.count]), hs.count, List.getElem?_concat_length]
      exact ⟨prepare_eq_pyResponse hprepare hleft hresult, by simpa using hreq⟩
  · show (s.session.sent ++ [_]).length = (s.outcomes ++ [outcome]).length
    rw [List.length_append, List.length_append, hs.count]
    rfl

theorem pyInv_step {s s' : PySession} (hs : PyInv server s) (h : PyStep server prepare_payload s s') :
    PyInv server s' := by
  have hphase : ∀ phase, (∀ req fn, phase ≠ .handling req fn) →
      PyInv server { s with session := { s.session with phase } } := fun phase hphase =>
    ⟨hs.left, hs.sent, hs.count, fun req fn h => absurd h (hphase req fn)⟩
  cases h with
  | read req hreading hrouted =>
    rcases handle_request_cases server req with ⟨fn, hcall⟩ | hun
    · rw [on_read_routed hcall]
      refine ⟨hs.left, hs.sent, hs.count, fun req' fn' h => ?_⟩
      obtain ⟨rfl, rfl⟩ := Phase.handling.inj h
      exact hrouted
    · exact absurd hun hrouted
  | read_unrouted req hreading hun =>
    rw [on_read_unrouted hun]
    refine hs.write hprepare ?_ rfl ⟨fun _ => hun, fun _ => rfl⟩
    rw [leftBody_concat]
    exact leftBy_status hs.left 404
  | read_fails hreading => exact hphase .closed fun req fn h => by cases h
  | handler req fn outcome hhandling =>
    obtain ⟨hleft, hresult⟩ := leftBy_pyOverride hprepare hs.left outcome
    have hroute := hs.routed req fn hhandling
    refine hs.write hprepare ?_ hresult ⟨fun h => (by cases h), fun h => absurd h hroute⟩
    rw [leftBody_concat]
    exact hleft
  | written hwriting => exact hphase .reading fun req fn h => by cases h
  | write_fails hwriting => exact hphase .closed fun req fn h => by cases h

theorem pyInv_run {s : PySession} (hrun : ReflTransGen (PyStep server prepare_payload) {} s) :
    PyInv server s := by
  refine invariant (I := PyInv server) (fun _ _ => pyInv_step hprepare) ?_ hrun
  exact ⟨⟨rfl, rfl, rfl, rfl, fun _ _ _ => rfl⟩, fun k e he => by simp at he, rfl, fun req fn h => by cases h⟩

/-- **What a Python server answers.**  In every run of the server, with any number of connections, a response
of a session comes to what the methods called on that connection so far have ended with, and nothing else:
the one for a method that was called has its status and its JSON, and the one for a request without a method
or without a route has the status 501 or 404 and the JSON of the last method before it. -/
theorem python_responses {s : ServerBase PySession}
    (hrun : ReflTransGen (ServerStep (PyStep server prepare_payload) {}) {} s) {a : Accepted PySession}
    (ha : a ∈ s.sessions) {k : ℕ} {e : Exchange} (he : a.session.session.sent[k]? = some e) :
    e.response = pyResponse (a.session.outcomes.take (k + 1)) ∧
      (a.session.outcomes[k]? = some none ↔ Unrouted server e.request) ∧
      ∀ outcome, a.session.outcomes[k]? = some (some outcome) → outcome.answer ≠ none →
        e.response = pyResponse [some outcome] := by
  obtain ⟨i, hi⟩ := List.mem_iff_getElem?.mp ha
  obtain ⟨-, halone⟩ := sessions_run hrun
  obtain ⟨hresponse, hunrouted⟩ := (pyInv_run hprepare (halone i a hi).2).sent k e he
  refine ⟨hresponse, hunrouted, fun outcome hk hanswer => ?_⟩
  rw [hresponse, List.take_add_one, hk]
  exact pyResponse_of_answer _ hanswer

end

/-! ### A request behind the call of a method -/

theorem pyPing : ∃ s : PySession, ReflTransGen (PyStep pingServer prepareString) {} s ∧
    s.session.sent.map Exchange.request = [pingRequest, lostRequest] ∧
    s.outcomes = [some (.returned "7".toList), none] := by
  have hrun : ReflTransGen (PyStep pingServer prepareString) {} _ :=
    (((ReflTransGen.single (.read _ pingRequest rfl (by decide))).tail
      (.handler _ pingRequest "get__ping".toList (.returned "7".toList) rfl)).tail (.written _ rfl)).tail
      (.read_unrouted _ lostRequest rfl (by decide))
  exact ⟨_, hrun, rfl, rfl⟩

/-- The answer to `/ping` is sent again with the 404 response to `/pong`. -/
theorem python_responses_ping : ∃ (s : ServerBase PySession) (a : Accepted PySession) (e : Exchange),
    a ∈ s.sessions ∧ a.session.session.sent[1]? = some e ∧ e.request = lostRequest ∧
      e.response = pyResponse [some (.returned "7".toList), none] ∧ e.response.body = "7".toList := by
  obtain ⟨c, hrun, hsent, houtcomes⟩ := pyPing
  let s : ServerBase PySession := ⟨true, true, 1, [⟨0, c⟩]⟩
  have halone : SessionsAlone (PyStep pingServer prepareString) {} s.sessions := by
    intro i a ha
    match i, ha with
    | 0, ha =>
      obtain rfl := Option.some.inj ha
      exact ⟨rfl, hrun⟩
  have hsecond : (c.session.sent.map Exchange.request)[1]? = some lostRequest := by rw [hsent]; rfl
  rw [List.getElem?_map] at hsecond
  obtain ⟨e, he, hreq⟩ := Option.map_eq_some_iff.mp hsecond
  obtain ⟨hresponse, -, -⟩ := python_responses preparesPayload_prepareString
    (run_of_sessionsAlone (fun _ => rfl) rfl halone) (List.mem_singleton_self _) he
  rw [houtcomes] at hresponse
  exact ⟨s, ⟨0, c⟩, e, List.mem_singleton_self _, he, hreq, hresponse, by rw [hresponse]; rfl⟩

end Siesta
