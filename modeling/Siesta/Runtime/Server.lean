import Siesta.Lib.Pool
import Siesta.Runtime.Connection

/-!
# The server and its sessions: `src/beast/server.cpp`

A `ServerBase` accepts one connection after the other and gives each of them a `Session` of its own.  The
steps of the sessions come in any order.  `server_reachable_iff` says which servers are reached: a session is
where it could have come to alone, so what holds of every connection holds of all of them at once
(`clients_answered`).
-/

namespace Siesta

open Lib Relation

structure Accepted (σ : Type) where
  _id : ℕ
  session : σ

/-- A `ServerBase`; what becomes of a connection is a `σ`. -/
structure ServerBase (σ : Type) where
  /-- `_acceptor` is open. -/
  opened : Bool := false
  /-- An `async_accept` is pending. -/
  accepting : Bool := false
  /-- `_client_id`, which has 64 bits. -/
  _client_id : ℕ := 0
  /-- The sessions that were made, in their order. -/
  sessions : List (Accepted σ) := []

section

variable {σ : Type} (Step : σ → σ → Prop) (fresh : σ)

/-- `start`, with the errors that `open`, `bind` and `listen` report; an open acceptor is not opened again. -/
def ServerBase.start (open_ec bind_ec listen_ec : Bool) (s : ServerBase σ) : ServerBase σ :=
  if s.opened || open_ec then s
  else if bind_ec then { s with opened := true }
  else if listen_ec then { s with opened := true }
  else { s with opened := true, accepting := true }

/-- `on_accept`. -/
def ServerBase.on_accept (ec : Bool) (s : ServerBase σ) : ServerBase σ :=
  if ec then { s with accepting := false }
  else { s with
    accepting := true
    _client_id := (s._client_id + 1) % 2 ^ 64
    sessions := s.sessions ++ [⟨s._client_id, fresh⟩] }

/-- What can happen next: a call of `start`, the end of an `async_accept`, or a step of a session. -/
inductive ServerStep : ServerBase σ → ServerBase σ → Prop
  | start (s : ServerBase σ) (open_ec bind_ec listen_ec : Bool) :
      ServerStep s (s.start open_ec bind_ec listen_ec)
  | accept (s : ServerBase σ) (ec : Bool) (h : s.accepting = true) : ServerStep s (s.on_accept fresh ec)
  | session (s : ServerBase σ) (before after : List (Accepted σ)) (a : Accepted σ) (c : σ)
      (hsessions : s.sessions = before ++ a :: after) (h : Step a.session c) :
      ServerStep s { s with sessions := before ++ { a with session := c } :: after }

variable {Step fresh}

/-! ### The sessions of a server are a pool -/

def AcceptedStep (Step : σ → σ → Prop) (a a' : Accepted σ) : Prop :=
  a'._id = a._id ∧ Step a.session a'.session

/-- The session number `i`, as it is made. -/
def newSession (fresh : σ) (i : ℕ) : Accepted σ := ⟨i % 2 ^ 64, fresh⟩

/-- What `ServerBase` knows of its sessions. -/
structure Serving (s : ServerBase σ) : Prop where
  opened : s.accepting = true ∨ s.sessions ≠ [] → s.opened = true
  count : s._client_id = s.sessions.length % 2 ^ 64

theorem serving_step {s s' : ServerBase σ} (hs : Serving s) (h : ServerStep Step fresh s s') : Serving s' := by
  cases h with
  | start open_ec bind_ec listen_ec =>
    unfold ServerBase.start
    split
    · exact hs
    · split
      · exact ⟨fun _ => rfl, hs.count⟩
      · split
        · exact ⟨fun _ => rfl, hs.count⟩
        · exact ⟨fun _ => rfl, hs.count⟩
  | accept ec haccepting =>
    have hopened : s.opened = true := hs.opened (.inl haccepting)
    unfold ServerBase.on_accept
    split
    · exact ⟨fun _ => hopened, hs.count⟩
    · refine ⟨fun _ => hopened, ?_⟩
      show (s._client_id + 1) % 2 ^ 64 = (s.sessions ++ [_]).length % 2 ^ 64
      rw [hs.count, List.length_append, List.length_singleton, Nat.mod_add_mod]
  | session before after a c hsessions hstep =>
    refine ⟨fun _ => hs.opened (.inr (by simp [hsessions])), ?_⟩
    have hcount := hs.count
    rw [hsessions, List.length_append] at hcount
    show s._client_id = (before ++ _ :: after).length % 2 ^ 64
    rw [hcount, List.length_append]
    rfl

/-- Each step is one of the pool, or leaves the sessions alone. -/
theorem sessions_step {s s' : ServerBase σ} (hs : Serving s) (h : ServerStep Step fresh s s') :
    ReflTransGen (PoolStep (AcceptedStep Step) (newSession fresh)) s.sessions s'.sessions := by
  cases h with
  | start open_ec bind_ec listen_ec =>
    have hsame : (s.start open_ec bind_ec listen_ec).sessions = s.sessions := by
      unfold ServerBase.start
      split
      · rfl
      · split
        · rfl
        · split <;> rfl
    rw [hsame]
  | accept ec haccepting =>
    unfold ServerBase.on_accept
    split
    · exact .refl
    · rw [hs.count]
      exact .single (.add s.sessions)
  | session before after a c hsessions hstep =>
    rw [hsessions]
    exact .single (.move before after a _ ⟨rfl, hstep⟩)

def servingAll (sessions : List (Accepted σ)) : ServerBase σ :=
  ⟨true, true, sessions.length % 2 ^ 64, sessions⟩

theorem serverStep_of_pool {sessions sessions' : List (Accepted σ)}
    (h : PoolStep (AcceptedStep Step) (newSession fresh) sessions sessions') :
    ServerStep Step fresh (servingAll sessions) (servingAll sessions') := by
  cases h with
  | add =>
    have haccept : ServerStep Step fresh (servingAll sessions) _ := .accept (servingAll sessions) false rfl
    have hnext : (servingAll sessions).on_accept fresh false =
        servingAll (sessions ++ [newSession fresh sessions.length]) := by
      unfold servingAll ServerBase.on_accept newSession
      simp
    rwa [hnext] at haccept
  | move before after a a' hmove =>
    obtain ⟨hid, hstep⟩ := hmove
    have hsession : ServerStep Step fresh (servingAll (before ++ a :: after)) _ :=
      .session (servingAll (before ++ a :: after)) before after a a'.session rfl hstep
    have hnext : { servingAll (before ++ a :: after) with
        sessions := before ++ { a with session := a'.session } :: after } =
          servingAll (before ++ a' :: after) := by
      unfold servingAll
      rw [← hid, List.length_append, List.length_append]
      rfl
    rwa [hnext] at hsession

theorem accepted_run {a a' : Accepted σ} (h : ReflTransGen (AcceptedStep Step) a a') :
    a'._id = a._id ∧ ReflTransGen Step a.session a'.session :=
  invariant (I := fun b => b._id = a._id ∧ ReflTransGen Step a.session b.session)
    (fun _ _ hb hstep => ⟨hstep.1.trans hb.1, hb.2.tail hstep.2⟩) ⟨rfl, .refl⟩ h

theorem accepted_run_of_session {id : ℕ} {c c' : σ} (h : ReflTransGen Step c c') :
    ReflTransGen (AcceptedStep Step) ⟨id, c⟩ ⟨id, c'⟩ :=
  ReflTransGen.lift (Accepted.mk id) (fun _ _ hstep => ⟨rfl, hstep⟩) _ _ h

/-- The sessions have the ids `0`, `1`, … in the order they were accepted, and each is where it can come to
alone. -/
def SessionsAlone (Step : σ → σ → Prop) (fresh : σ) (sessions : List (Accepted σ)) : Prop :=
  ∀ i a, sessions[i]? = some a → a._id = i % 2 ^ 64 ∧ ReflTransGen Step fresh a.session

theorem onTheirOwn_iff_sessionsAlone {sessions : List (Accepted σ)} :
    OnTheirOwn (AcceptedStep Step) (newSession fresh) sessions ↔ SessionsAlone Step fresh sessions := by
  constructor
  · exact fun h i a ha => accepted_run (h i a ha)
  · rintro h i ⟨id, c⟩ ha
    obtain ⟨rfl, hrun⟩ := h i _ ha
    exact accepted_run_of_session hrun

theorem sessions_run {s : ServerBase σ} (hrun : ReflTransGen (ServerStep Step fresh) {} s) :
    Serving s ∧ SessionsAlone Step fresh s.sessions := by
  have h := invariant (I := fun s : ServerBase σ => Serving s ∧
      ReflTransGen (PoolStep (AcceptedStep Step) (newSession fresh)) [] s.sessions)
    (fun s s' hs hstep => ⟨serving_step hs.1 hstep, hs.2.trans (sessions_step hs.1 hstep)⟩)
    ⟨⟨by simp, rfl⟩, .refl⟩ hrun
  exact ⟨h.1, onTheirOwn_iff_sessionsAlone.mp (pool_reachable_iff.mp h.2)⟩

theorem run_of_sessionsAlone {s : ServerBase σ} (hopened : s.accepting = true ∨ s.sessions ≠ [] → s.opened = true)
    (hcount : s._client_id = s.sessions.length % 2 ^ 64) (halone : SessionsAlone Step fresh s.sessions) :
    ReflTransGen (ServerStep Step fresh) {} s := by
  obtain ⟨opened, accepting, client_id, sessions⟩ := s
  obtain rfl : client_id = sessions.length % 2 ^ 64 := hcount
  have hopen : ReflTransGen (ServerStep Step fresh) {} (servingAll []) := .single (.start _ false false false)
  have hall : ReflTransGen (ServerStep Step fresh) (servingAll []) (servingAll sessions) :=
    ReflTransGen.lift servingAll (fun _ _ => serverStep_of_pool) _ _
      (pool_reachable_iff.mpr (onTheirOwn_iff_sessionsAlone.mpr halone))
  cases accepting with
  | true =>
    obtain rfl : opened = true := hopened (.inl rfl)
    exact hopen.trans hall
  | false =>
    cases opened with
    | true => exact (hopen.trans hall).tail (.accept _ true rfl)
    | false =>
      -- an acceptor that was never opened has accepted nothing
      have hnone : sessions = [] := by
        by_contra hne
        cases hopened (.inr hne)
      subst hnone
      exact .refl

theorem server_run_of_session {s : ServerBase σ} {before after : List (Accepted σ)} {a : Accepted σ} {c : σ}
    (hsessions : s.sessions = before ++ a :: after) (hrun : ReflTransGen Step a.session c) :
    ReflTransGen (ServerStep Step fresh) s { s with sessions := before ++ { a with session := c } :: after } := by
  induction hrun with
  | refl =>
    rw [show before ++ { a with session := a.session } :: after = s.sessions from hsessions.symm]
  | @tail b _ hrun hstep ih => exact ih.tail (.session _ before after { a with session := b } _ rfl hstep)

/-- **What a server comes to.**  A state is reached, in some order of accepted connections and steps of their
sessions, exactly when its sessions have the ids of their order and each is in a state that it reaches alone,
and the counter is the number of the sessions; only an acceptor that was opened accepts. -/
theorem server_reachable_iff {s : ServerBase σ} :
    ReflTransGen (ServerStep Step fresh) {} s ↔
      (s.accepting = true ∨ s.sessions ≠ [] → s.opened = true) ∧
        s._client_id = s.sessions.length % 2 ^ 64 ∧ SessionsAlone Step fresh s.sessions := by
  constructor
  · intro hrun
    obtain ⟨hserving, halone⟩ := sessions_run hrun
    exact ⟨hserving.opened, hserving.count, halone⟩
  · rintro ⟨hopened, hcount, halone⟩
    exact run_of_sessionsAlone hopened hcount halone

end

/-! ### A server and its clients -/

section

variable {ρ : Type} {m : Messages ρ} {server : ServerCpp} {prepare_payload : Response → Response}

/-- **Clients of one server.**  In every run of a server and any number of clients that wait for the answer to
a call before the next one, a call that completes with a response has the one that the session of its own
connection wrote for its own request, and a handler wrote it. -/
theorem clients_answered (hprepare : PreparesPayload prepare_payload) {s : ServerBase (Connection ρ)}
    (hrun : ReflTransGen (ServerStep (ConnectionStep Quiet m server prepare_payload) (Connection.connected m)) {} s)
    {a : Accepted (Connection ρ)} (ha : a ∈ s.sessions) {op : ℕ} {r : Response}
    (hcompleted : (op, Outcome.response r) ∈ a.session.client.completed) :
    ∃ (k : ℕ) (req : ρ) (function_name : Str), a.session.client.submitted[op]? = some req ∧
      a.session.client.wire[k]? = some (op, m.set_host req) ∧
      a.session.session.sent[k]? = some ⟨m.received (m.set_host req), r⟩ ∧
      handle_request server (m.received (m.set_host req)) = [.call function_name] := by
  obtain ⟨i, hi⟩ := List.mem_iff_getElem?.mp ha
  obtain ⟨-, halone⟩ := sessions_run hrun
  obtain ⟨k, req, fn, hsubmitted, hwire, -, hsent⟩ :=
    calls_answered_by_handlers hprepare (halone i a hi).2 hcompleted
  exact ⟨k, req, fn, hsubmitted, hwire, hsent⟩

end

/-- Two clients are accepted, and the second one calls. -/
theorem clients_answered_ping :
    ∃ (s : ServerBase (Connection Request)) (a : Accepted (Connection Request)) (k : ℕ) (req : Request)
      (function_name : Str), s.sessions.length = 2 ∧ a ∈ s.sessions ∧ a._id = 1 ∧
      a.session.client.submitted[0]? = some req ∧ a.session.client.wire[k]? = some (0, req) ∧
      a.session.session.sent[k]? = some ⟨req, prepareString { ({} : Response) with result := 204 }⟩ ∧
      handle_request pingServer req = [.call function_name] := by
  obtain ⟨c, hrun, -, -, hcompleted⟩ := pingCall
  let s : ServerBase (Connection Request) :=
    ⟨true, true, 2, [⟨0, Connection.connected plainMessages⟩, ⟨1, c⟩]⟩
  have halone : SessionsAlone (ConnectionStep Quiet plainMessages pingServer prepareString)
      (Connection.connected plainMessages) s.sessions := by
    intro i a ha
    match i, ha with
    | 0, ha =>
      obtain rfl := Option.some.inj ha
      exact ⟨rfl, .refl⟩
    | 1, ha =>
      obtain rfl := Option.some.inj ha
      exact ⟨rfl, hrun⟩
  have hmem : (⟨1, c⟩ : Accepted (Connection Request)) ∈ s.sessions :=
    List.mem_cons_of_mem _ (List.mem_singleton_self _)
  obtain ⟨k, req, fn, h⟩ := clients_answered preparesPayload_prepareString
    (run_of_sessionsAlone (fun _ => rfl) rfl halone) hmem hcompleted
  exact ⟨s, ⟨1, c⟩, k, req, fn, rfl, hmem, rfl, h⟩

end Siesta
