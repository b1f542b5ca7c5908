import AxumReverseProxy.Forward.BodyCap
import AxumReverseProxy.Forward.Hops
import AxumReverseProxy.Forward.Host
import AxumReverseProxy.Forward.Relayed

/-!
# Both ways along a path

Behind its first proxy a message has nothing left that the next one would strip (`Settled`), in either
direction. So the fields that no proxy of the path manages come out as behind a single proxy
(`request_over_path`, `response_over_path`), and the `Host` is the one of the last proxy that put in
its own (`host_over_path`).
-/

namespace AxumReverseProxy

open HeaderName

variable {hop : Hop} {hops : List Hop} {msg mid msg' : Message} {policy : ProxyPolicy} {uri : Uri}
  {req : Request} {res r : Response} {up : Bool} {n : HeaderName} {headers headers' : HeaderMap}
  {a : Authority}

/-! ### Stripping twice -/

/-- The pair of a handshake aside, no field has lines that the next proxy would strip. -/
def Settled (headers : HeaderMap) : Prop :=
  ∀ n, n ≠ connection → n ≠ upgrade → n ∈ hopByHopHeaders headers → headers.getAll n = []

theorem settled_of (hc : headers'.getAll connection = if up = true then [.fromStatic "upgrade"] else [])
    (hstd : ∀ n ∈ HOP_BY_HOP_HEADERS, n ≠ connection → n ≠ upgrade →
      headers'.getAll n = if n ∈ hopByHopHeaders headers then [] else headers.getAll n) :
    Settled headers' := by
  intro n hnc hnu hn
  rcases mem_hopByHopHeaders.1 hn with ⟨hs, hte⟩ | hnom
  · rw [hstd n hs hnc hnu]
    split
    · rfl
    · next hkept =>
      -- only a `TE` that is kept is not stripped, and it is kept again
      have hk : n = te ∧ KeepsTe headers := by
        by_contra hno
        exact hkept (mem_hopByHopHeaders.2 (.inl ⟨hs, hno⟩))
      obtain ⟨rfl, hk⟩ := hk
      refine absurd ⟨rfl, ?_⟩ hte
      have hget : headers'.getAll te = headers.getAll te := by rw [hstd te hs hnc hnu, if_neg hkept]
      rw [KeepsTe, MultiMap.get, hget]
      exact hk
  · exact absurd (nominatesUpgradeOnly_of_connection hc n hnom) hnu

theorem getAll_sentHeaders_of_not_mem (hm : n ∉ managedFields policy req.extensions.connectInfo)
    (hc : n ≠ connection) (hu : n ≠ upgrade) :
    (sentHeaders policy uri up req).getAll n =
      if n ∈ hopByHopHeaders req.headers then [] else req.headers.getAll n := by
  have hh : n ≠ host := by
    rintro rfl
    exact hm (List.mem_append_left _ (List.mem_cons_self ..))
  rw [getAll_sentHeaders_of_unmanaged hm hc hu, getAll_copyClientHeaders, replacesHost_of_ne hh]
  simp only [Bool.false_eq_true, false_or]

theorem settled_sentHeaders : Settled (sentHeaders policy uri up req) :=
  settled_of getAll_sentHeaders_pair.1 fun _ hs hc hu =>
    getAll_sentHeaders_of_not_mem (not_mem_managedFields_of_standard hs) hc hu

theorem settled_relay : Settled (relay policy res).headers := by
  have hpair := (@getAll_relay_pair policy res).1
  refine @settled_of (decide (res.status = .switchingProtocols)) res.headers _ ?_ fun n hs hc hu => ?_
  · rw [hpair]
    exact if_congr decide_eq_true_iff.symm rfl rfl
  · have hv : n ≠ via := by
      rintro rfl
      exact absurd hs (by decide)
    rw [getAll_relay_ne hc hu fun _ => hv, getAll_stripHopByHopResponseHeaders]

theorem Settled.getAll (h : Settled headers) (hc : n ≠ connection) (hu : n ≠ upgrade) :
    (if n ∈ hopByHopHeaders headers then [] else headers.getAll n) = headers.getAll n := by
  split
  · next hn => exact (h n hc hu hn).symm
  · rfl

/-! ### Requests -/

def Hop.cap (hop : Hop) : Option Nat := hop.policy.maxRequestBodyBytes.map hop.env.asUsize

theorem body_of_pass (h : Hop.pass msg hop = some msg') :
    msg'.body = hop.cap.elim msg.body msg.body.limited := by
  unfold Hop.pass at h
  split at h
  · next s hs =>
    cases h
    obtain ⟨-, u, -, rfl⟩ := forwardStart_sending hs
    show cappedBody hop.env hop.policy msg.body = _
    rw [cappedBody, Hop.cap]
    cases hop.policy.maxRequestBodyBytes <;> rfl
  · cases h

theorem Body.limitFrames_limitFrames (m k : Nat) (frames : List Frame) (ending : BodyEnd) :
    limitFrames k (limitFrames m frames ending).1 (limitFrames m frames ending).2 =
      limitFrames (min m k) frames ending := by
  induction frames generalizing m k with
  | nil => rfl
  | cons f frames ih =>
    by_cases hm : f.bytes.length > m
    · rw [limitFrames, limitFrames, if_pos hm, if_pos (by omega)]
      rfl
    · by_cases hk : f.bytes.length > k
      · rw [limitFrames, limitFrames, if_neg hm, if_pos (by omega)]
        exact if_pos hk
      · have hmin : min m k - f.bytes.length = min (m - f.bytes.length) (k - f.bytes.length) := by omega
        rw [limitFrames, limitFrames, if_neg hm, if_neg (by omega), hmin, ← ih, limitFrames, if_neg hk]

theorem Body.limited_limited (b : Body) (m k : Nat) : (b.limited m).limited k = b.limited (min m k) := by
  rw [limited, limited, limited, ← limitFrames_limitFrames]

/-- What a path with these caps leaves of a body. -/
theorem foldl_limited (caps : List Nat) (b : Body) :
    caps.foldl Body.limited b = caps.min?.elim b b.limited := by
  induction caps generalizing b with
  | nil => rfl
  | cons m caps ih =>
    rw [List.foldl_cons, ih, List.min?_cons]
    cases caps.min? with
    | none => rfl
    | some k => exact Body.limited_limited b m k

structure RequestInv (msg : Message) (hops : List Hop) (msg' : Message) : Prop where
  settled : hops ≠ [] → Settled msg'.headers
  method : msg'.method = msg.method
  body : msg'.body = (hops.filterMap Hop.cap).foldl Body.limited msg.body
  fields : hops ≠ [] → ∀ n, (∀ hop ∈ hops, n ∉ managedFields hop.policy hop.connectInfo) →
    n ≠ connection → n ≠ upgrade →
    msg'.headers.getAll n = if n ∈ hopByHopHeaders msg.headers then [] else msg.headers.getAll n
  start : hops = [] → msg' = msg

theorem requestInv_pass (hi : RequestInv msg hops mid) (h : Hop.pass mid hop = some msg') :
    RequestInv msg (hops ++ [hop]) msg' := by
  obtain ⟨-, hm, hh⟩ := pass_eq_some h
  refine ⟨fun _ => by rw [hh]; exact settled_sentHeaders, hm.trans hi.method, ?_, fun _ n hn hc hu => ?_,
    fun hnil => by simp at hnil⟩
  · rw [body_of_pass h, hi.body, List.filterMap_append, List.foldl_append, List.filterMap_cons]
    cases hop.cap <;> rfl
  · have hsent : msg'.headers.getAll n = if n ∈ hopByHopHeaders mid.headers then [] else
      mid.headers.getAll n := by
      rw [hh]
      exact getAll_sentHeaders_of_not_mem (hn hop (by simp)) hc hu
    rw [hsent]
    by_cases hne : hops = []
    · rw [hi.start hne]
    · rw [(hi.settled hne).getAll hc hu]
      exact hi.fields hne n (fun g hg => hn g (List.mem_append_left _ hg)) hc hu

theorem requestInv_travel (h : travel msg hops = some msg') : RequestInv msg hops msg' := by
  refine Run.run_invariant (RequestInv msg) ?_ (fun hi hp => requestInv_pass hi hp) h
  exact ⟨by simp, rfl, rfl, by simp, fun _ => rfl⟩

/-- Of a request the origin server gets the method, the body as far as the smallest cap of the path, and
the lines of every field that no proxy of the path manages, unless the first one strips them. -/
theorem request_over_path (hops : List Hop) (msg msg' : Message) (hne : hops ≠ [])
    (h : travel msg hops = some msg') :
    msg'.method = msg.method ∧
      msg'.body = (hops.filterMap Hop.cap).min?.elim msg.body msg.body.limited ∧
      ∀ n, (∀ hop ∈ hops, n ∉ managedFields hop.policy hop.connectInfo) → n ≠ connection → n ≠ upgrade →
        msg'.headers.getAll n = if n ∈ hopByHopHeaders msg.headers then [] else msg.headers.getAll n := by
  have hi := requestInv_travel h
  exact ⟨hi.method, by rw [hi.body, foldl_limited], hi.fields hne⟩

def openHop : Hop := { peerHop with policy := {}, upstreamUri := upRoot }

theorem openHop_open : ∀ hop ∈ [openHop, openHop], hop.policy.via = none ∧
    hop.policy.maxRequestBodyBytes = none := by
  simp [openHop]

theorem request_over_path_twice :
    let msg : Message := ⟨.get, ⟨[(connection, .fromStatic "authorization"),
      (authorization, .fromStatic "a"), (cookie, .fromStatic "c")]⟩, .fromBytes []⟩
    ∃ msg', travel msg [openHop, openHop] = some msg' ∧ msg'.headers.getAll authorization = [] ∧
      msg'.headers.getAll cookie = [.fromStatic "c"] := by
  intro msg
  obtain ⟨msg', h⟩ := @exists_travel [openHop, openHop] msg openHop_open (by decide)
  obtain ⟨-, -, hfields⟩ := request_over_path _ msg msg' (by simp) h
  refine ⟨msg', h, ?_, ?_⟩
  · rw [hfields authorization (by decide) (by decide) (by decide)]
    decide
  · rw [hfields cookie (by decide) (by decide) (by decide)]
    decide

/-! ### The `Host` -/

theorem getAll_host_sent_of_ne_nil (h : (copyClientHeaders req.headers policy).getAll host ≠ []) :
    (sentHeaders policy uri up req).getAll host = (copyClientHeaders req.headers policy).getAll host := by
  have hkeep : (forwardHeaders policy up req).getAll host =
    (copyClientHeaders req.headers policy).getAll host := by
    rw [getAll_host_forwardHeaders, keepHost]
    split
    · rw [insertIfAbsent_of_getAll_ne_nil h]
    · rfl
  rw [sentHeaders]
  unfold withHost
  rw [if_pos (MultiMap.containsKey_iff.2 (by rw [hkeep]; exact h)), hkeep]

/-- Proxies that keep the client's `Host` all send the one they get. -/
theorem host_of_kept (hp : ∀ hop ∈ hops, hop.policy.forwardsClientHost = true)
    (hnom : NominatesUpgradeOnly mid.headers)
    (hne : mid.headers.getAll host ≠ []) (h : travel mid hops = some msg') :
    msg'.headers.getAll host = mid.headers.getAll host := by
  have hinv := Run.run_invariant (fun as t => (∀ hop ∈ as, hop.policy.forwardsClientHost = true) →
    NominatesUpgradeOnly t.headers ∧ t.headers.getAll host = mid.headers.getAll host)
      (fun _ => ⟨hnom, rfl⟩) ?_ h
  · exact (hinv hp).2
  · intro as t hop t' ih hpass has
    obtain ⟨hnom, hlines⟩ := ih fun g hg => has g (List.mem_append_left _ hg)
    obtain ⟨-, -, hh⟩ := pass_eq_some hpass
    have hcopy : (copyClientHeaders t.headers hop.policy).getAll host = mid.headers.getAll host := by
      rw [getAll_host_copy_of_kept (has hop (by simp)) fun hn => absurd (hnom _ hn) (by decide), hlines]
    refine ⟨by rw [hh]; exact nominatesUpgradeOnly_sentHeaders, ?_⟩
    rw [hh, getAll_host_sent_of_ne_nil (by rw [Hop.receive, hcopy]; exact hne)]
    exact hcopy

/-- The `Host` is the upstream of the last proxy that replaces it. Where none does, it is what the client
named, in `Host` or in `:authority`, and the first upstream when it named nothing. -/
theorem host_over_path (pre : List Hop) (hop : Hop) (post : List Hop) (a : Authority) (msg msg' : Message)
    (ha : hop.upstreamUri.authority? = some a) (hpost : ∀ g ∈ post, g.policy.forwardsClientHost = true)
    (h : travel msg (pre ++ hop :: post) = some msg') :
    (hop.policy.forwardsClientHost = false → msg'.headers.getAll host = [a.value]) ∧
      (hop.policy.forwardsClientHost = true → pre = [] → msg'.headers.getAll host =
        if NominatedReadably msg.headers host ∨ msg.headers.getAll host = [] then
          [(hop.uri.authority?.getD a).value]
        else msg.headers.getAll host) := by
  obtain ⟨before, hpre, h⟩ := Option.bind_eq_some_iff.1 (Run.run_append.symm.trans h)
  obtain ⟨mid, hpass, h⟩ := Option.bind_eq_some_iff.1 (Run.run_cons.symm.trans h)
  obtain ⟨-, -, hh⟩ := pass_eq_some hpass
  have hsent := @getAll_host_sent hop.policy hop.upstreamUri (hop.receive before)
    (isWebsocketUpgrade before.headers) a ha
  rw [← hh] at hsent
  have hne : mid.headers.getAll host ≠ [] := by
    rw [hsent]
    split
    · exact List.cons_ne_nil _ _
    · assumption
  rw [host_of_kept hpost (by rw [hh]; exact nominatesUpgradeOnly_sentHeaders) hne h, hsent]
  refine ⟨fun hr => ?_, fun hk hnil => ?_⟩
  · rw [getAll_host_copy_of_dropped (.inl hr), if_pos rfl, hostFallback, hr]
    rfl
  · subst hnil
    cases hpre
    have hfb : hostFallback hop.policy (hop.receive msg) a = (hop.uri.authority?.getD a).value := by
      rw [hostFallback, if_pos hk]
      rfl
    rw [hfb]
    by_cases hn : NominatedReadably msg.headers host
    · have hcopy : (copyClientHeaders (hop.receive msg).headers hop.policy).getAll host = [] :=
        getAll_host_copy_of_dropped (.inr hn)
      rw [if_pos hcopy, if_pos (.inl hn)]
    · have hcopy : (copyClientHeaders (hop.receive msg).headers hop.policy).getAll host =
        msg.headers.getAll host :=
        getAll_host_copy_of_kept hk hn
      rw [hcopy]
      exact if_congr (or_iff_right hn).symm rfl rfl

theorem host_over_path_replaced :
    let keeps : Hop := { openHop with policy := { hostBehaviour := .preserve } }
    ∃ msg', travel ⟨.get, ⟨[(host, .fromStatic "client.example")]⟩, .fromBytes []⟩ [openHop,
      keeps] = some msg' ∧
      msg'.headers.getAll host = [.fromStatic "up"] := by
  intro keeps
  obtain ⟨msg', h⟩ := @exists_travel [openHop, keeps]
    ⟨.get, ⟨[(host, .fromStatic "client.example")]⟩, .fromBytes []⟩ (by simp [keeps, openHop]) (by decide)
  exact ⟨msg', h, (host_over_path [] openHop [keeps] ⟨"up".toList, by decide⟩ _ _ rfl (by decide) h).1 rfl⟩

/-! ### Responses -/

/-- Who answers a request: the origin server, or a proxy in front of it. -/
abbrev Server := Message → Option SendOutcome

def Hop.serve (hop : Hop) (server : Server) : Server := fun msg =>
  match hop.start msg with
  | none => none
  | some (.rejected res) => some (.response res)
  | some (.sending s) =>
    (server ⟨s.forwardReq.method, s.forwardReq.headers, s.forwardReq.body⟩).map fun out =>
      .response (s.finish hop.env hop.policy out).response

/-- A server behind a path of proxies. -/
def serveOver (hops : List Hop) (server : Server) : Server := hops.foldr Hop.serve server

theorem serve_of_pass (h : Hop.pass msg hop = some mid) :
    ∃ s : Sending, s.upgrading = isWebsocketUpgrade msg.headers ∧ s.clientHeaders = msg.headers ∧
      ∀ server, hop.serve server msg =
        (server mid).map fun out => .response (s.finish hop.env hop.policy out).response := by
  unfold Hop.pass at h
  split at h
  · next s hs =>
    cases h
    obtain ⟨-, u, -, hs'⟩ := forwardStart_sending hs
    refine ⟨s, by rw [hs']; rfl, by rw [hs']; rfl, fun server => ?_⟩
    rw [Hop.serve, hs]
  · cases h

structure ResponseInv (hops : List Hop) (res r : Response) : Prop where
  status : r.status = res.status
  body : r.body = res.body
  settled : Settled r.headers
  fields : ∀ n, (∀ hop ∈ hops, hop.policy.via.isSome = true → n ≠ via) → n ≠ connection → n ≠ upgrade →
    r.headers.getAll n = if n ∈ hopByHopHeaders res.headers then [] else res.headers.getAll n

theorem getAll_relay_of_ne (hc : n ≠ connection) (hu : n ≠ upgrade)
    (hv : policy.via.isSome = true → n ≠ via) :
    (relay policy res).headers.getAll n =
      if n ∈ hopByHopHeaders res.headers then [] else res.headers.getAll n := by
  rw [getAll_relay_ne hc hu hv, getAll_stripHopByHopResponseHeaders]

theorem responseInv_relay : ResponseInv [hop] res (relay hop.policy res) :=
  ⟨rfl, rfl, settled_relay, fun _ hv hc hu => getAll_relay_of_ne hc hu (hv hop (by simp))⟩

theorem ResponseInv.relay (hi : ResponseInv hops res r) (hop : Hop) :
    ResponseInv (hop :: hops) res (relay hop.policy r) := by
  refine ⟨hi.status, hi.body, settled_relay, fun n hv hc hu => ?_⟩
  rw [getAll_relay_of_ne hc hu (hv hop (by simp)), hi.settled.getAll hc hu]
  exact hi.fields n (fun g hg => hv g (by simp [hg])) hc hu

/-- An answer that is no 101 reaches the client with its status and its body, and with the lines of every
field but the `Via` that a proxy of the path writes, unless the last one strips them. -/
theorem response_over_path (hops : List Hop) (msg msg' : Message) (server : Server) (res : Response)
    (hne : hops ≠ [])
    (h : travel msg hops = some msg') (hres : server msg' = some (.response res))
    (hs : res.status ≠ .switchingProtocols) :
    ∃ r, serveOver hops server msg = some (.response r) ∧ r.status = res.status ∧ r.body = res.body ∧
      ∀ n, (∀ hop ∈ hops, hop.policy.via.isSome = true → n ≠ via) → n ≠ connection → n ≠ upgrade →
        r.headers.getAll n = if n ∈ hopByHopHeaders res.headers then [] else res.headers.getAll n := by
  obtain ⟨r, hr, hi⟩ : ∃ r, serveOver hops server msg = some (.response r) ∧ ResponseInv hops res r := by
    induction hops generalizing msg with
    | nil => exact absurd rfl hne
    | cons hop hops ih =>
      obtain ⟨mid, hpass, h⟩ := Option.bind_eq_some_iff.1 (Run.run_cons.symm.trans h)
      obtain ⟨s, -, -, hserve⟩ := serve_of_pass hpass
      have hfinish : ∀ r : Response, r.status ≠ .switchingProtocols →
          (s.finish hop.env hop.policy (.response r)).response = relay hop.policy r := by
        intro r hr
        rw [Sending.finish, if_neg hr]
        rfl
      show ∃ r, hop.serve (serveOver hops server) msg = _ ∧ _
      rw [hserve]
      by_cases hnil : hops = []
      · subst hnil
        obtain rfl : mid = msg' := Option.some.inj h
        refine ⟨_, ?_, responseInv_relay⟩
        show Option.map _ (server mid) = _
        rw [hres, Option.map_some, hfinish res hs]
      · obtain ⟨r, hr, hi⟩ := ih mid hnil h
        refine ⟨_, ?_, hi.relay hop⟩
        rw [hr, Option.map_some, hfinish r (by rw [hi.status]; exact hs)]
  exact ⟨r, hr, hi.status, hi.body, hi.fields⟩

theorem response_over_path_twice :
    let res : Response := { Response.new (.fromStr "ok") with
      headers := ⟨[(connection, .fromStatic "etag"), (etag, .fromStatic "e"),
        (setCookie, .fromStatic "c")]⟩ }
    ∃ r, serveOver [openHop, openHop] (fun _ => some (.response res)) ⟨.get, .empty,
      .fromBytes []⟩ = some (.response r) ∧
      r.headers.getAll etag = [] ∧ r.headers.getAll setCookie = [.fromStatic "c"] := by
  intro res
  obtain ⟨msg', h⟩ := @exists_travel [openHop, openHop] ⟨.get, .empty, .fromBytes []⟩
    openHop_open (by decide)
  obtain ⟨r, hr, -, -, hfields⟩ := response_over_path _ _ msg'
    (fun _ => some (.response res)) res (by simp) h rfl (by decide)
  refine ⟨r, hr, ?_, ?_⟩
  · rw [hfields etag (by decide) (by decide) (by decide)]
    decide
  · rw [hfields setCookie (by decide) (by decide) (by decide)]
    decide

end AxumReverseProxy
