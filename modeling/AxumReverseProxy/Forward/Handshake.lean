import AxumReverseProxy.Forward.Relayed

/-!
# Delivered handshakes

`valid_upgrade_response` reads the first `Sec-WebSocket-Accept` and `Sec-WebSocket-Protocol` lines of
the upstream's response. The client is sent all of these lines, less the fields that the upstream
nominates in `Connection`, so a response that was validated need not be a handshake any more.
-/

namespace AxumReverseProxy

open HeaderName

/-- A subprotocol that some line of the client lists. -/
def Offered (request : HeaderMap) (v : HeaderValue) : Prop :=
  ∃ line ∈ request.getAll secWebsocketProtocol, v.latin1 ∈ CommaList.elements ',' isOws line.latin1

instance (request : HeaderMap) (v : HeaderValue) : Decidable (Offered request v) :=
  inferInstanceAs (Decidable (∃ line ∈ request.getAll secWebsocketProtocol, _))

/-- The header map of a server's answer to a WebSocket handshake. -/
structure CompleteHandshake (env : Platform) (request response : HeaderMap) : Prop where
  connection : response.getAll connection = [.fromStatic "upgrade"]
  upgrade : response.getAll upgrade = [.fromStatic "websocket"]
  accept : ∃ key accept, request.get secWebsocketKey = some key ∧
    response.getAll secWebsocketAccept = [accept] ∧ accept.bytes = (env.deriveAcceptKey key.bytes).asBytes
  protocol : ∀ v ∈ response.getAll secWebsocketProtocol, Offered request v

/-- What validation leaves unread: further lines, and what `Connection` nominates. -/
structure ReadWhole (request response : HeaderMap) : Prop where
  accept_once : (response.getAll secWebsocketAccept).length = 1
  accept_kept : ¬ NominatedReadably response secWebsocketAccept
  protocol : NominatedReadably response secWebsocketProtocol ∨
    ∀ v ∈ response.getAll secWebsocketProtocol, Offered request v

def Finished.tunnels : Finished → Bool
  | upgraded _ => true
  | _ => false

section

variable (env : Platform) (policy : ProxyPolicy) (uri : Uri) (req : Request) (send : Request → SendOutcome)

def forwardFinished : Option Finished :=
  (forwardStart env policy uri req).map fun
    | .rejected res => .failed res
    | .sending s => s.finish env policy (send s.forwardReq)

/-- The upstream's response, when the request was sent and answered. -/
def Answered (res : Response) : Prop :=
  ∃ s, forwardStart env policy uri req = some (.sending s) ∧ send s.forwardReq = .response res

/-- Every 101 that is delivered is a complete handshake with a tunnel behind it, and every other 101
of the upstream becomes a 502. -/
structure DeliversHandshakes : Prop where
  tunnel_iff {f} : forwardFinished env policy uri req send = some f →
    (f.tunnels = true ↔ f.response.status = .switchingProtocols)
  asked {f} : forwardFinished env policy uri req send = some f → f.response.status = .switchingProtocols →
    isWebsocketUpgrade req.headers = true ∧
      ∃ res, Answered env policy uri req send res ∧ res.status = .switchingProtocols
  complete {f} : forwardFinished env policy uri req send = some f →
    f.response.status = .switchingProtocols →
    CompleteHandshake env req.headers f.response.headers
  refused {f res} : forwardFinished env policy uri req send = some f →
    Answered env policy uri req send res →
    res.status = .switchingProtocols →
      f.response.status = .switchingProtocols ∨ f.response.status = .badGateway ∧ f.tunnels = false

end

variable {env : Platform} {policy : ProxyPolicy} {uri : Uri} {req : Request} {send : Request → SendOutcome}
  {s : Sending} {res : Response} {f : Finished} {out : SendOutcome}

theorem forwardWith_eq_finished :
    forwardWith env policy uri req send =
      (forwardFinished env policy uri req send).map Finished.response := by
  rw [forwardWith, forwardFinished, Option.map_map]
  congr 1
  funext started
  cases started <;> rfl

theorem getAll_relay_handshake {n : HeaderName} (hn : n ∈ [secWebsocketAccept, secWebsocketProtocol]) :
    (relay policy res).headers.getAll n =
      if NominatedReadably res.headers n then [] else res.headers.getAll n := by
  obtain ⟨hc, hu, hv, hstd⟩ := (by decide : ∀ m ∈ [secWebsocketAccept, secWebsocketProtocol],
    m ≠ connection ∧ m ≠ upgrade ∧ m ≠ via ∧ m ∉ HOP_BY_HOP_HEADERS) n hn
  rw [getAll_relay_ne hc hu fun _ => hv, getAll_stripHopByHopResponseHeaders]
  refine if_congr ?_ rfl rfl
  rw [mem_hopByHopHeaders, or_iff_right fun h => hstd h.1]

theorem accept_of_valid {d : List UInt8 → Str} {headers request : HeaderMap}
    (h : validUpgradeResponse d headers request = true) :
    ∃ key accept, request.get secWebsocketKey = some key ∧ headers.get secWebsocketAccept = some accept ∧
      accept.bytes = (d key.bytes).asBytes := by
  unfold validUpgradeResponse at h
  cases hk : request.get secWebsocketKey with
  | none => rw [hk] at h; cases h
  | some key =>
    rw [hk] at h
    simp only [Bool.and_eq_true, Option.any_eq_true, beq_iff_eq] at h
    obtain ⟨⟨-, accept, ha, hb⟩, -⟩ := h
    exact ⟨key, accept, rfl, ha, hb⟩

/-- A validated response is delivered as a complete handshake exactly when validation read all of it. -/
theorem complete_relay_iff (hs : res.status = .switchingProtocols)
    (hv : validUpgradeResponse env.deriveAcceptKey res.headers req.headers = true) :
    CompleteHandshake env req.headers (relay policy res).headers ↔ ReadWhole req.headers res.headers := by
  have haccept := @getAll_relay_handshake policy res secWebsocketAccept (by decide)
  have hprotocol := @getAll_relay_handshake policy res secWebsocketProtocol (by decide)
  constructor
  · rintro ⟨-, -, ⟨key, accept, -, ha, -⟩, hp⟩
    rw [haccept] at ha
    rw [hprotocol] at hp
    split at ha
    · cases ha
    · next hnom =>
      refine ⟨by rw [ha]; rfl, hnom, ?_⟩
      by_cases hn : NominatedReadably res.headers secWebsocketProtocol
      · exact .inl hn
      · rw [if_neg hn] at hp
        exact .inr hp
  · rintro ⟨honce, hkept, hp⟩
    have hpair := @getAll_relay_pair policy res
    rw [if_pos hs, if_pos hs] at hpair
    refine ⟨hpair.1, hpair.2, ?_, ?_⟩
    · obtain ⟨key, accept, hkey, ha, hb⟩ := accept_of_valid hv
      obtain ⟨v, hv⟩ := List.length_eq_one_iff.1 honce
      rw [MultiMap.get, hv, List.head?_cons, Option.some.injEq] at ha
      subst ha
      exact ⟨key, v, hkey, by rw [haccept, if_neg hkept, hv], hb⟩
    · rw [hprotocol]
      rcases hp with hn | hp
      · rw [if_pos hn]; simp
      · split
        · simp
        · exact hp

/-- Whether the upstream's 101 passes the checks. -/
def Accepted (env : Platform) (req : Request) (res : Response) : Prop :=
  isWebsocketUpgrade req.headers = true ∧
    validUpgradeResponse env.deriveAcceptKey res.headers req.headers = true

theorem status_of_earlyReject (h : earlyReject policy req = some res) :
    res.status ≠ .switchingProtocols := by
  unfold earlyReject at h
  split_ifs at h <;> cases h <;> decide

theorem answered_unique {res' : Response} (h : Answered env policy uri req send res)
    (h' : Answered env policy uri req send res') : res = res' := by
  obtain ⟨s, hs, hr⟩ := h
  obtain ⟨s', hs', hr'⟩ := h'
  rw [hs] at hs'
  cases hs'
  rw [hr] at hr'
  cases hr'
  rfl

/-- A send either ends without a 101, or with the tunnel and the 101 of an upstream that passed the
checks. -/
theorem finish_cases (s : Sending) (out : SendOutcome) :
    ((s.finish env policy out).response.status ≠ .switchingProtocols ∧
      (s.finish env policy out).tunnels = false ∧
      ∀ res, out = .response res → res.status = .switchingProtocols →
        (s.finish env policy out).response.status = .badGateway ∧
          ¬ (s.upgrading = true ∧
            validUpgradeResponse env.deriveAcceptKey res.headers s.clientHeaders = true)) ∨
      ∃ res, out = .response res ∧ res.status = .switchingProtocols ∧
        (s.upgrading = true ∧ validUpgradeResponse env.deriveAcceptKey res.headers s.clientHeaders = true) ∧
        s.finish env policy out = .upgraded (relay policy res) := by
  cases out with
  | elapsed => exact .inl ⟨by show StatusCode.gatewayTimeout ≠ _; decide, rfl, fun _ h => by cases h⟩
  | error e => exact .inl ⟨by show StatusCode.badGateway ≠ _; decide, rfl, fun _ h => by cases h⟩
  | response res =>
    by_cases hsw : res.status = .switchingProtocols
    · by_cases hacc : s.upgrading = true ∧
        validUpgradeResponse env.deriveAcceptKey res.headers s.clientHeaders = true
      · refine .inr ⟨res, rfl, hsw, hacc, ?_⟩
        rw [Sending.finish, if_pos hsw, hacc.1, hacc.2]
        rfl
      · have hno : (!s.upgrading || !validUpgradeResponse env.deriveAcceptKey res.headers
          s.clientHeaders) = true := by
          rw [← Bool.not_and, Bool.not_eq_true', ← Bool.not_eq_true, Bool.and_eq_true]
          exact hacc
        have hf : s.finish env policy (.response res) =
          .failed (proxyFailure "Invalid upstream WebSocket upgrade") := by
          rw [Sending.finish, if_pos hsw, if_pos hno]
        rw [hf]
        refine .inl ⟨by show StatusCode.badGateway ≠ _; decide, rfl, fun res' h _ => ⟨rfl, ?_⟩⟩
        cases h
        exact hacc
    · have hf : s.finish env policy (.response res) = .relayed (relay policy res) := by
        rw [Sending.finish, if_neg hsw]
      rw [hf]
      exact .inl ⟨hsw, rfl, fun res' h h' => by cases h; exact absurd h' hsw⟩

theorem forwardFinished_cases (h : forwardFinished env policy uri req send = some f) :
    (f.response.status ≠ .switchingProtocols ∧ f.tunnels = false ∧
      ∀ res, Answered env policy uri req send res → res.status = .switchingProtocols →
        f.response.status = .badGateway ∧ ¬ Accepted env req res) ∨
      ∃ res, Answered env policy uri req send res ∧ res.status = .switchingProtocols ∧
        Accepted env req res ∧
        f = .upgraded (relay policy res) := by
  rcases forwardStart_eq env policy uri req with ⟨r, he, hst⟩ | ⟨u, -, -, hst⟩
  · rw [forwardFinished, hst] at h
    cases h
    refine .inl ⟨status_of_earlyReject he, rfl, fun res ⟨s, hs, _⟩ => ?_⟩
    rw [hst] at hs
    cases hs
  · rw [forwardFinished, hst] at h
    cases h
    rcases finish_cases (sendingOf env policy u _ req) (send _) with ⟨hne, ht, hno⟩ |
      ⟨res, ho, hs, hacc, hf⟩
    · refine .inl ⟨hne, ht, fun res ⟨s, hs, ho⟩ => ?_⟩
      rw [hst] at hs
      cases hs
      exact hno res ho
    · exact .inr ⟨res, ⟨_, hst, ho⟩, hs, hacc, hf⟩

theorem readWhole_of_delivers (h : DeliversHandshakes env policy uri req send)
    (hans : Answered env policy uri req send res) (hs : res.status = .switchingProtocols)
    (hacc : Accepted env req res) : ReadWhole req.headers res.headers := by
  obtain ⟨s, hst, ho⟩ := id hans
  obtain ⟨f, hf⟩ : ∃ f, forwardFinished env policy uri req send = some f :=
    ⟨_, by rw [forwardFinished, hst]; rfl⟩
  rcases forwardFinished_cases hf with ⟨-, -, hno⟩ | ⟨res', hans', hs', -, rfl⟩
  · exact absurd hacc (hno res hans hs).2
  · cases answered_unique hans hans'
    exact (complete_relay_iff hs hacc.2).1 (h.complete hf hs)

/-- Only valid handshakes are delivered exactly when every upstream 101 that passes the checks has
one `Sec-WebSocket-Accept` line that its `Connection` does not nominate, and nothing but offered
subprotocols, unless its `Connection` nominates these. -/
theorem delivers_handshakes_iff (env : Platform) (policy : ProxyPolicy) (uri : Uri) (req : Request)
    (send : Request → SendOutcome) :
    DeliversHandshakes env policy uri req send ↔
      ∀ res, Answered env policy uri req send res → res.status = .switchingProtocols →
        Accepted env req res →
        ReadWhole req.headers res.headers := by
  constructor
  · intro h res hans hs hacc
    exact readWhole_of_delivers h hans hs hacc
  · intro h
    refine ⟨fun hf => ?_, fun hf hs => ?_, fun hf hs => ?_, fun hf hans hs => ?_⟩
    all_goals rcases forwardFinished_cases hf with ⟨hne, ht, hno⟩ | ⟨res, hans', hs', hacc, rfl⟩
    · rw [ht]; simp [hne]
    · exact ⟨fun _ => hs', fun _ => rfl⟩
    · exact absurd hs hne
    · exact ⟨hacc.1, res, hans', hs'⟩
    · exact absurd hs hne
    · exact (complete_relay_iff hs' hacc.2).2 (h res hans' hs' hacc)
    · exact .inr ⟨(hno _ hans hs).1, ht⟩
    · exact .inl hs'

/-- To the sample handshake of RFC 6455: a second accept key, a subprotocol never offered, and an
accept key that is stripped. -/
theorem unread_lines_delivered :
    let env : Platform := ⟨64, fun _ => "s3pPLMBiTxaQ9kYGzzhZRbK+xOo=".toList⟩
    let uri : Uri := .absolute .http ⟨"up".toList, by decide⟩ ⟨['/']⟩
    let req : Request := { Request.new (.fromBytes []) with
      headers := ⟨[(connection, .fromStatic "Upgrade"), (upgrade, .fromStatic "websocket"),
        (secWebsocketKey, .fromStatic "dGhlIHNhbXBsZSBub25jZQ=="), (secWebsocketVersion, .fromStatic "13"),
        (secWebsocketProtocol, .fromStatic "chat")]⟩ }
    let answer (line : HeaderValue) (more : List (HeaderName × HeaderValue)) : Response :=
      { Response.withStatus .switchingProtocols (.fromBytes []) with
        headers := ⟨[(connection, line), (upgrade, .fromStatic "websocket"),
          (secWebsocketAccept, .fromStatic "s3pPLMBiTxaQ9kYGzzhZRbK+xOo=")] ++ more⟩ }
    ∀ res ∈ [answer (.fromStatic "Upgrade") [(secWebsocketAccept, .fromStatic "other")],
        answer (.fromStatic "Upgrade")
          [(secWebsocketProtocol, .fromStatic "chat"), (secWebsocketProtocol, .fromStatic "admin")],
        answer (.fromStatic "Upgrade, Sec-WebSocket-Accept") []],
      ¬ DeliversHandshakes env {} uri req fun _ => .response res := by
  intro env uri req answer
  obtain ⟨s, hs⟩ := @forwardStart_of_not_rejected env {} uri req rfl
  refine List.forall_mem_cons.2 ⟨?_, List.forall_mem_cons.2 ⟨?_, List.forall_mem_singleton.2 ?_⟩⟩
  · intro h
    exact absurd (readWhole_of_delivers h ⟨s, hs, rfl⟩ rfl ⟨by decide, by decide⟩).accept_once (by decide)
  · intro h
    exact absurd (readWhole_of_delivers h ⟨s, hs, rfl⟩ rfl ⟨by decide, by decide⟩).protocol (by decide)
  · intro h
    exact absurd (by decide) (readWhole_of_delivers h ⟨s, hs, rfl⟩ rfl ⟨by decide, by decide⟩).accept_kept

end AxumReverseProxy
