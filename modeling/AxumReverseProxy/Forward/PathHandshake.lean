import AxumReverseProxy.Forward.Handshake
import AxumReverseProxy.Forward.Paths

/-!
# WebSocket handshakes over a path

Every proxy writes the pair of a handshake anew and copies the fields its key and its version stand
in. Whether the handshake gets on is decided at the first proxy, and whether the 101 gets back at the
last one, but for an accept key that the origin server nominated (`handshake_over_path`).
-/

namespace AxumReverseProxy

open HeaderName

variable {hop : Hop} {hops : List Hop} {msg mid msg' : Message} {policy : ProxyPolicy} {uri : Uri}
  {req : Request} {res r : Response} {up : Bool} {n : HeaderName} {headers request request' : HeaderMap}
  {addr : Option SocketAddr} {d : List UInt8 → Str} {last : Hop} {server : Server}

/-! ### Requests -/

theorem token_connection (h : headers.getAll connection = [.fromStatic "upgrade"]) :
    token headers connection "upgrade".toList = true := by
  rw [token, HeaderMap.readable, h]
  decide

theorem token_upgrade (h : headers.getAll upgrade = [.fromStatic "websocket"]) :
    token headers upgrade "websocket".toList = true := by
  rw [token, HeaderMap.readable, h]
  decide

theorem token_of_nil {wanted : Str} (h : headers.getAll n = []) : token headers n wanted = false := by
  rw [token, HeaderMap.readable_of_getAll_nil h]
  rfl

def handshakeFields : List HeaderName := [secWebsocketKey, secWebsocketVersion, secWebsocketProtocol]

/-- The fields of a handshake are copied like any other. -/
theorem handshakeField_unmanaged : ∀ n ∈ handshakeFields, n ∉ managedFields policy addr := by
  intro n hn hm
  have hne : n ≠ host ∧ n ≠ xForwardedHost ∧ n ≠ xForwardedProto ∧ n ≠ xForwardedFor ∧
    n ≠ forwarded ∧ n ≠ via :=
    (by decide : ∀ n ∈ handshakeFields, n ≠ host ∧ n ≠ xForwardedHost ∧ n ≠ xForwardedProto ∧
      n ≠ xForwardedFor ∧
      n ≠ forwarded ∧ n ≠ via) n hn
  obtain ⟨h1, h2, h3, h4, h5, h6⟩ := hne
  unfold managedFields forwardingFields at hm
  split_ifs at hm <;> simp [h1, h2, h3, h4, h5, h6] at hm

theorem handshakeField_stripped_iff : ∀ n ∈ handshakeFields, n ∈ hopByHopHeaders headers ↔
    NominatedReadably headers n := by
  intro n hn
  have hstd : n ∉ HOP_BY_HOP_HEADERS := (by decide : ∀ n ∈ handshakeFields, n ∉ HOP_BY_HOP_HEADERS) n hn
  rw [mem_hopByHopHeaders, or_iff_right fun h => hstd h.1]

theorem getAll_handshakeField (hne : hops ≠ []) (h : travel msg hops = some msg')
    (hn : n ∈ handshakeFields) :
    msg'.headers.getAll n = if NominatedReadably msg.headers n then [] else msg.headers.getAll n := by
  have hpair : n ≠ connection ∧ n ≠ upgrade :=
    (by decide : ∀ n ∈ handshakeFields, n ≠ connection ∧ n ≠ upgrade) n hn
  rw [(requestInv_travel h).fields hne n (fun _ _ => handshakeField_unmanaged n hn) hpair.1 hpair.2]
  exact if_congr (handshakeField_stripped_iff n hn) rfl rfl

/-- A handshake of the client's with the fields that let the next proxy see one as well. -/
def UpgradesOn (headers : HeaderMap) : Prop :=
  isWebsocketUpgrade headers = true ∧ ¬ NominatedReadably headers secWebsocketKey ∧
    ¬ NominatedReadably headers secWebsocketVersion

theorem isWebsocketUpgrade_iff : isWebsocketUpgrade headers = true ↔
    token headers connection "upgrade".toList = true ∧ token headers upgrade "websocket".toList = true ∧
      headers.getAll secWebsocketKey ≠ [] ∧ headers.getAll secWebsocketVersion ≠ [] := by
  rw [isWebsocketUpgrade, Bool.and_eq_true, Bool.and_eq_true, Bool.and_eq_true, MultiMap.containsKey_iff,
    MultiMap.containsKey_iff, and_assoc, and_assoc]

theorem isWebsocketUpgrade_pass (h : Hop.pass msg hop = some msg') :
    isWebsocketUpgrade msg'.headers = true ↔ UpgradesOn msg.headers := by
  obtain ⟨-, -, hh⟩ := pass_eq_some h
  have hfield (n : HeaderName) (hn : n ∈ handshakeFields) :=
    @getAll_handshakeField [hop] msg msg' n (by simp) (travel_singleton.trans h) hn
  have hpair := @getAll_sentHeaders_pair hop.policy hop.upstreamUri (hop.receive msg)
    (isWebsocketUpgrade msg.headers)
  rw [← hh] at hpair
  rw [isWebsocketUpgrade_iff, hfield secWebsocketKey (by decide),
    hfield secWebsocketVersion (by decide), UpgradesOn]
  by_cases hup : isWebsocketUpgrade msg.headers = true
  · rw [if_pos hup, if_pos hup] at hpair
    obtain ⟨-, -, hk, hv⟩ := isWebsocketUpgrade_iff.1 hup
    rw [token_connection hpair.1, token_upgrade hpair.2, hup]
    simp [hk, hv]
  · rw [if_neg hup] at hpair
    refine iff_of_false (fun h => ?_) fun h => hup h.1
    rw [token_of_nil hpair.1] at h
    exact absurd h.1 (by simp)

/-- Behind a proxy the next one sees a handshake exactly when the client sent one and nominated neither the
key nor the version; the proxies in between do not matter. -/
theorem isWebsocketUpgrade_travel (h : travel msg hops = some msg') :
    isWebsocketUpgrade msg'.headers = true ↔ isWebsocketUpgrade msg.headers = true ∧ (hops ≠ [] →
      ¬ NominatedReadably msg.headers secWebsocketKey ∧
        ¬ NominatedReadably msg.headers secWebsocketVersion) := by
  have hinv := Run.run_invariant (fun as t => (as ≠ [] → NominatesUpgradeOnly t.headers ∧
    (isWebsocketUpgrade t.headers = true ↔ UpgradesOn msg.headers)) ∧ (as = [] → t = msg))
      ⟨by simp, fun _ => rfl⟩ ?_ h
  · by_cases hne : hops = []
    · rw [hinv.2 hne, and_iff_left]
      exact fun hn => absurd hne hn
    · rw [(hinv.1 hne).2, UpgradesOn]
      simp only [hne, ne_eq, not_false_iff, true_imp_iff]
  · rintro as t hop t' ⟨ih, hstart⟩ hpass
    obtain ⟨-, -, hh⟩ := pass_eq_some hpass
    refine ⟨fun _ => ⟨by rw [hh]; exact nominatesUpgradeOnly_sentHeaders, ?_⟩, fun hnil => by simp at hnil⟩
    rw [isWebsocketUpgrade_pass hpass]
    by_cases has : as = []
    · rw [hstart has]
    · obtain ⟨hnom, hup⟩ := ih has
      rw [← hup, UpgradesOn, and_iff_left]
      exact ⟨fun hn => absurd (hnom _ hn) (by decide), fun hn => absurd (hnom _ hn) (by decide)⟩

/-! ### Responses -/

/-- What the client is told about the subprotocol and the accept key. -/
structure HandshakeReply (res r : Response) : Prop where
  connection : r.headers.getAll connection = [.fromStatic "upgrade"]
  upgrade : r.headers.getAll upgrade = [.fromStatic "websocket"]
  lines : ∀ n ∈ [secWebsocketAccept, secWebsocketProtocol],
    r.headers.getAll n = if NominatedReadably res.headers n then [] else res.headers.getAll n

theorem HandshakeReply.nominates (h : HandshakeReply res r) : NominatesUpgradeOnly r.headers :=
  @nominatesUpgradeOnly_of_connection true _ h.connection

theorem handshakeReply_relay (hs : res.status = .switchingProtocols) :
    HandshakeReply res (relay policy res) := by
  have hpair := @getAll_relay_pair policy res
  rw [if_pos hs, if_pos hs] at hpair
  exact ⟨hpair.1, hpair.2, fun n hn => getAll_relay_handshake hn⟩

theorem HandshakeReply.relay (h : HandshakeReply res r) (hs : r.status = .switchingProtocols) :
    HandshakeReply res (relay policy r) := by
  obtain ⟨hc, hu, hl⟩ := @handshakeReply_relay policy r hs
  refine ⟨hc, hu, fun n hn => ?_⟩
  rw [hl n hn, if_neg, h.lines n hn]
  intro hnom
  have hne : n ≠ HeaderName.upgrade :=
    (by decide : ∀ n ∈ [secWebsocketAccept, secWebsocketProtocol], n ≠ HeaderName.upgrade) n hn
  exact hne (h.nominates n hnom)

/-- A proxy answers a 101 with a 101 where the checks pass, and else with a 502. -/
theorem finish_switching {env : Platform} (s : Sending) (hs : res.status = .switchingProtocols) :
    (s.finish env policy (.response res)).response =
      if s.upgrading = true ∧
          validUpgradeResponse env.deriveAcceptKey res.headers s.clientHeaders = true then
        relay policy res
      else proxyFailure "Invalid upstream WebSocket upgrade" := by
  rw [Sending.finish, if_pos hs]
  by_cases hacc : s.upgrading = true ∧
    validUpgradeResponse env.deriveAcceptKey res.headers s.clientHeaders = true
  · rw [if_pos hacc, hacc.1, hacc.2]
    rfl
  · rw [if_neg hacc, if_pos]
    · rfl
    · rw [← Bool.not_and, Bool.not_eq_true', ← Bool.not_eq_true, Bool.and_eq_true]
      exact hacc

/-- An answer that was valid for the request as it was sent on is valid for the request as it came, when
the accept key is still there. -/
theorem valid_reply (hkey : ∀ n ∈ handshakeFields, request'.getAll n = request.getAll n ∨
    request'.getAll n = [])
    (hv : validUpgradeResponse d res.headers request' = true) (hr : HandshakeReply res r) :
    validUpgradeResponse d r.headers request = true ↔
      ¬ NominatedReadably res.headers secWebsocketAccept := by
  unfold validUpgradeResponse at hv ⊢
  rw [MultiMap.get] at hv ⊢
  have hk := hkey secWebsocketKey (by decide)
  rcases hk with hk | hk
  · rw [hk] at hv
    cases hkeys : (request.getAll secWebsocketKey).head? with
    | none => rw [hkeys] at hv; cases hv
    | some key =>
      rw [hkeys] at hv
      simp only [Bool.and_eq_true] at hv ⊢
      obtain ⟨⟨-, haccept⟩, hprotocol⟩ := hv
      have hga := hr.lines secWebsocketAccept (by decide)
      have hgp := hr.lines secWebsocketProtocol (by decide)
      have htokens := And.intro (token_connection hr.connection) (token_upgrade hr.upgrade)
      have hoffers : (r.headers.get secWebsocketProtocol).all
        (fun selected => selected.toStr.any fun selected =>
          ((request.readable secWebsocketProtocol).flatMap fun v => v.split ',').any fun offered =>
            offered.trim == selected) = true := by
        rw [MultiMap.get, hgp]
        split
        · rfl
        · rw [MultiMap.get] at hprotocol
          rcases hkey secWebsocketProtocol (by decide) with hp | hp
          · rw [HeaderMap.readable_congr hp] at hprotocol
            exact hprotocol
          · -- nothing was offered, so nothing was selected
            rw [HeaderMap.readable_of_getAll_nil hp] at hprotocol
            cases hsel : (res.headers.getAll secWebsocketProtocol).head? with
            | none => rfl
            | some selected =>
              rw [hsel] at hprotocol
              cases selected.toStr <;> simp at hprotocol
      constructor
      · rintro ⟨⟨-, ha⟩, -⟩ hnom
        rw [MultiMap.get, hga, if_pos hnom] at ha
        cases ha
      · intro hnom
        refine ⟨⟨htokens, ?_⟩, hoffers⟩
        rw [MultiMap.get, hga, if_neg hnom]
        exact haccept
  · rw [hk] at hv
    cases hv

/-- Whether the 101 of the origin server gets to the client over the proxies `hops` and a last one. -/
def Delivers (d : List UInt8 → Str) (hops : List Hop) (mid : Message) (res : Response) : Prop :=
  isWebsocketUpgrade mid.headers = true ∧ validUpgradeResponse d res.headers mid.headers = true ∧
    (hops ≠ [] → ¬ NominatedReadably res.headers secWebsocketAccept)

theorem serve_handshake (hd : ∀ hop ∈ hops ++ [last], hop.env.deriveAcceptKey = d)
    (h : travel msg hops = some mid)
    (hlast : Hop.pass mid last = some msg') (hres : server msg' = some (.response res))
    (hs : res.status = .switchingProtocols) :
    ∃ r, serveOver (hops ++ [last]) server msg = some (.response r) ∧
      ((r.status = .switchingProtocols ∧ HandshakeReply res r) ∨ r.status = .badGateway) ∧
      (r.status = .switchingProtocols ↔ Delivers d hops mid res) := by
  have hbad : StatusCode.badGateway ≠ .switchingProtocols := by decide
  induction hops generalizing msg with
  | nil =>
    cases h
    obtain ⟨s, hup, hclient, hserve⟩ := serve_of_pass hlast
    refine ⟨_, (hserve _).trans (congrArg (Option.map _) hres), ?_⟩
    rw [finish_switching s hs, hd last (by simp), hup, hclient]
    split
    · next hacc => exact ⟨.inl ⟨hs, handshakeReply_relay hs⟩,
        iff_of_true hs ⟨hacc.1, hacc.2, fun hne => absurd rfl hne⟩⟩
    · next hacc => exact ⟨.inr rfl, iff_of_false hbad fun hall => hacc ⟨hall.1, hall.2.1⟩⟩
  | cons hop hops ih =>
    have hpath := h
    obtain ⟨first, hpass, h⟩ := Option.bind_eq_some_iff.1 (Run.run_cons.symm.trans h)
    obtain ⟨r, hr, hcases, hiff⟩ := ih (fun g hg => hd g (List.mem_cons_of_mem _ hg)) h
    obtain ⟨s, hup, hclient, hserve⟩ := serve_of_pass hpass
    refine ⟨_, (hserve _).trans (congrArg (Option.map _) hr), ?_⟩
    rcases hcases with ⟨hsw, hreply⟩ | hgw
    · obtain ⟨hupgrade, hvalid, -⟩ := hiff.1 hsw
      have hcame := ((isWebsocketUpgrade_travel hpath).1 hupgrade).1
      have hlines : ∀ n ∈ handshakeFields, mid.headers.getAll n = msg.headers.getAll n ∨
        mid.headers.getAll n = [] := by
        intro n hn
        rw [getAll_handshakeField (by simp) hpath hn]
        split
        · exact .inr rfl
        · exact .inl rfl
      have hreads := valid_reply hlines hvalid hreply
      rw [finish_switching s hsw, hd hop (by simp), hup, hclient]
      by_cases hnom : NominatedReadably res.headers secWebsocketAccept
      · rw [if_neg fun hall => hreads.1 hall.2 hnom]
        exact ⟨.inr rfl, iff_of_false hbad fun hall => hall.2.2 (by simp) hnom⟩
      · rw [if_pos ⟨hcame, hreads.2 hnom⟩]
        exact ⟨.inl ⟨hsw, hreply.relay hsw⟩, iff_of_true hsw ⟨hupgrade, hvalid, fun _ => hnom⟩⟩
    · have hne : r.status ≠ .switchingProtocols := by rw [hgw]; exact hbad
      have hfinish : (s.finish hop.env hop.policy (.response r)).response = relay hop.policy r := by
        rw [Sending.finish, if_neg hne]
        rfl
      rw [hfinish]
      exact ⟨.inr hgw, iff_of_false hne fun hall => hne
        (hiff.2 ⟨hall.1, hall.2.1, fun _ => hall.2.2 (by simp)⟩)⟩

/-- The client gets the 101 of the origin server exactly when it sent a handshake whose key and version
the next proxy gets to see, the last proxy accepts the answer, and, where there is another, the accept key
gets past it. The 101 then has the accept keys and subprotocols that were not nominated; every other
answer is a 502. -/
theorem handshake_over_path (d : List UInt8 → Str) (hops : List Hop) (last : Hop) (msg mid msg' : Message)
    (server : Server) (res : Response) (hd : ∀ hop ∈ hops ++ [last], hop.env.deriveAcceptKey = d)
    (h : travel msg hops = some mid) (hlast : Hop.pass mid last = some msg')
    (hres : server msg' = some (.response res)) (hs : res.status = .switchingProtocols) :
    ∃ r, serveOver (hops ++ [last]) server msg = some (.response r) ∧
      ((r.status = .switchingProtocols ∧ HandshakeReply res r) ∨ r.status = .badGateway) ∧
      (r.status = .switchingProtocols ↔ isWebsocketUpgrade msg.headers = true ∧
        validUpgradeResponse d res.headers mid.headers = true ∧ (hops ≠ [] →
          ¬ NominatedReadably msg.headers secWebsocketKey ∧
            ¬ NominatedReadably msg.headers secWebsocketVersion ∧
            ¬ NominatedReadably res.headers secWebsocketAccept)) := by
  obtain ⟨r, hr, hcases, hiff⟩ := serve_handshake hd h hlast hres hs
  refine ⟨r, hr, hcases, hiff.trans ?_⟩
  rw [Delivers, isWebsocketUpgrade_travel h]
  tauto

def keyHop : Hop := { openHop with env := ⟨64, fun _ => "s3pPLMBiTxaQ9kYGzzhZRbK+xOo=".toList⟩ }

/-- The sample handshake of RFC 6455 over two proxies. -/
theorem handshake_over_path_sample :
    let msg : Message := ⟨.get, ⟨[(connection, .fromStatic "Upgrade"), (upgrade, .fromStatic "websocket"),
      (secWebsocketKey, .fromStatic "dGhlIHNhbXBsZSBub25jZQ=="),
        (secWebsocketVersion, .fromStatic "13")]⟩, .fromBytes []⟩
    let res : Response := { Response.withStatus .switchingProtocols (.fromBytes []) with
      headers := ⟨[(connection, .fromStatic "Upgrade"), (upgrade, .fromStatic "websocket"),
        (secWebsocketAccept, .fromStatic "s3pPLMBiTxaQ9kYGzzhZRbK+xOo=")]⟩ }
    ∃ r, serveOver [keyHop, keyHop] (fun _ => some (.response res)) msg = some (.response r) ∧
      r.status = .switchingProtocols ∧
      r.headers.getAll secWebsocketAccept = [.fromStatic "s3pPLMBiTxaQ9kYGzzhZRbK+xOo="] := by
  intro msg res
  obtain ⟨mid, h⟩ := @exists_travel [keyHop] msg (by simp [keyHop, openHop]) (by decide)
  obtain ⟨msg', hlast⟩ := @exists_travel [keyHop] mid (by simp [keyHop, openHop])
    (by rw [(pass_eq_some (travel_singleton.symm.trans h)).2.1]; decide)
  obtain ⟨r, hr, hcases, hiff⟩ := handshake_over_path
    (fun _ => "s3pPLMBiTxaQ9kYGzzhZRbK+xOo=".toList) [keyHop] keyHop msg
    mid msg' (fun _ => some (.response res)) res (by simp [keyHop]) h (travel_singleton.symm.trans
      hlast) rfl rfl
  have hkey : mid.headers.getAll secWebsocketKey = [.fromStatic "dGhlIHNhbXBsZSBub25jZQ=="] := by
    rw [getAll_handshakeField (by simp) h (by decide)]
    decide
  have hoffers : mid.headers.readable secWebsocketProtocol = [] := by
    refine HeaderMap.readable_of_getAll_nil ?_
    rw [getAll_handshakeField (by simp) h (by decide)]
    decide
  have hvalid : validUpgradeResponse (fun _ => "s3pPLMBiTxaQ9kYGzzhZRbK+xOo=".toList) res.headers
    mid.headers = true := by
    rw [validUpgradeResponse, MultiMap.get, hkey, hoffers]
    decide
  have hsw := hiff.2 ⟨by decide, hvalid, fun _ => by decide⟩
  rcases hcases with ⟨-, hreply⟩ | hgw
  · refine ⟨r, hr, hsw, ?_⟩
    rw [hreply.lines secWebsocketAccept (by decide)]
    decide
  · rw [hgw] at hsw
    cases hsw

end AxumReverseProxy
