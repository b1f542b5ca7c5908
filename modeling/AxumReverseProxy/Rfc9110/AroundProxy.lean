import AxumReverseProxy.Forward.PathHandshake
import AxumReverseProxy.Rfc9110.Removal

/-!
# `Rfc9110Layer` around a proxy

Both remove the fields of the hop, by rules of their own. Which fields the upstream and the client get
otherwise than from the proxy alone (`layered_field_iff`), and when a WebSocket handshake gets through
both (`layered_handshake_iff`).
-/

namespace AxumReverseProxy.Rfc9110

open HeaderName

variable {config : Config} {request r : Request} {passed : Passed} {headers : HeaderMap}
  {n : HeaderName} {b : Bool} {env : Platform} {policy : ProxyPolicy} {uri : Uri} {s s' : Sending}
  {res out : Response}

/-! ### What the layer passes on -/

theorem extensions_receive (h : receive config request = .ok passed) :
    passed.request.extensions = request.extensions := by
  obtain ⟨-, r, hm, -, hpass⟩ := receive_eq_ok h
  have hr : r.extensions = request.extensions := by
    rcases processMaxForwards_cases hm with rfl | ⟨-, value, rfl⟩ <;> rfl
  rw [← hr, show passed.request = _ from congrArg Prod.snd hpass, addViaHeader_eq, setVia]
  split <;> rfl

theorem getAll_receive (h : receive config request = .ok passed) (hv : n ≠ via) (hm : n ≠ maxForwards) :
    passed.request.headers.getAll n =
      if n ∈ headersToRemove request.headers (preserves config request) then [] else
        request.headers.getAll n := by
  have hl := leaves_receive h
  split
  · next hn => exact hl.removed n hv hn
  · next hn => exact hl.kept n hv hm hn

/-- The pair of a handshake is kept or removed as a whole. -/
theorem pair_mem_headersToRemove_iff (h : n ∈ WEBSOCKET_HEADERS) :
    n ∈ headersToRemove headers b ↔ b = false := by
  have hend : n ∈ HOP_BY_HOP_HEADERS ∧ isEndToEndHeader n = false :=
    (by decide : ∀ m ∈ WEBSOCKET_HEADERS, m ∈ HOP_BY_HOP_HEADERS ∧ isEndToEndHeader m = false) n h
  rw [mem_headersToRemove, and_iff_right (.inl hend.1), Exempt, hend.2]
  simp [h]

theorem getAll_pair_receive (h : receive config request = .ok passed) (hn : n ∈ WEBSOCKET_HEADERS) :
    passed.request.headers.getAll n = if preserves config request = true then request.headers.getAll
      n else [] := by
  have hne : n ≠ via ∧ n ≠ maxForwards :=
    (by decide : ∀ m ∈ WEBSOCKET_HEADERS, m ≠ via ∧ m ≠ maxForwards) n hn
  rw [getAll_receive h hne.1 hne.2]
  by_cases hp : preserves config request = true
  · rw [if_pos hp, if_neg fun hmem => by simp [(pair_mem_headersToRemove_iff hn).1 hmem] at hp]
  · rw [if_neg hp, if_pos ((pair_mem_headersToRemove_iff hn).2 (by simpa using hp))]

theorem nominatedReadably_congr {headers' : HeaderMap}
    (h : headers.getAll connection = headers'.getAll connection) :
    NominatedReadably headers n ↔ NominatedReadably headers' n := by
  rw [NominatedReadably, NominatedReadably, HeaderMap.readable_congr h]

theorem nominatedReadably_receive (h : receive config request = .ok passed) :
    NominatedReadably passed.request.headers n ↔ preserves config request = true ∧
      NominatedReadably request.headers n := by
  have hc := getAll_pair_receive h (n := connection) (by decide)
  by_cases hp : preserves config request = true
  · rw [if_pos hp] at hc
    rw [and_iff_right hp, nominatedReadably_congr hc]
  · rw [if_neg hp] at hc
    refine iff_of_false (fun hn => ?_) fun hn => hp hn.1
    obtain ⟨line, hline, -⟩ := hn
    rw [HeaderMap.readable_of_getAll_nil hc] at hline
    cases hline

/-! ### Fields -/

/-- The fields that the layer manages, and the pair of a handshake. -/
def layerFields : List HeaderName := [via, maxForwards, connection, upgrade]

/-- Behind the layer the proxy strips what it strips alone, but for a `TE` it would keep and for what is
nominated where the layer does not look. -/
def StrippedAlike (config : Config) (request : Request) (n : HeaderName) : Prop :=
  (n = te → KeepsTe request.headers → NominatedReadably request.headers te) ∧
    (NominatedReadably request.headers n → n ∈ HOP_BY_HOP_HEADERS ∨ preserves config request = true ∨
      NamedFirst request.headers n ∧ isEndToEndHeader n = false)

instance (config : Config) (request : Request) (n : HeaderName) :
    Decidable (StrippedAlike config request n) :=
  inferInstanceAs (Decidable (_ ∧ _))

theorem layerField_ne (hn : n ∉ layerFields) : n ≠ via ∧ n ≠ maxForwards ∧ n ≠ connection ∧
    n ≠ upgrade := by
  simpa [layerFields] using hn

theorem exempt_iff (hn : n ∉ layerFields) : Exempt b n ↔ isEndToEndHeader n = true := by
  obtain ⟨-, -, hc, hu⟩ := layerField_ne hn
  simp [Exempt, WEBSOCKET_HEADERS, hc, hu]

theorem strippedAlike_iff (h : receive config request = .ok passed) (hn : n ∉ layerFields) :
    StrippedAlike config request n ↔ (n ∈ hopByHopHeaders request.headers ↔
      n ∈ hopByHopHeaders passed.request.headers ∨
        n ∈ headersToRemove request.headers (preserves config request)) := by
  rw [mem_headersToRemove, exempt_iff hn, Bool.not_eq_true, mem_hopByHopHeaders, mem_hopByHopHeaders,
    nominatedReadably_receive h, StrippedAlike]
  by_cases hs : n ∈ HOP_BY_HOP_HEADERS
  · have hend := isEndToEndHeader_eq_false n (List.mem_cons_of_mem _ hs)
    have hs' : n ∈ AxumReverseProxy.HOP_BY_HOP_HEADERS := hs
    by_cases hte : n = te
    · subst hte
      simp [hs, hs', hend, imp_iff_not_or]
    · simp [hs, hs', hend, hte]
  · have hs' : n ∉ AxumReverseProxy.HOP_BY_HOP_HEADERS := hs
    have hte : n ≠ te := by
      rintro rfl
      exact hs (by decide)
    have hfirst : NamedFirst request.headers n → NominatedReadably request.headers n :=
      nominatedReadably_of_namedFirst
    simp only [hs, hs', hte, false_and, false_or, false_imp_iff, true_and]
    tauto

theorem ite_nil_eq_iff {α : Type} {l : List α} {p q : Prop} [Decidable p] [Decidable q] :
    ((if p then [] else l) = if q then [] else l) ↔ l = [] ∨ (q ↔ p) := by
  by_cases hp : p <;> by_cases hq : q <;> simp [hp, hq, eq_comm]

theorem getAll_answer_relay (h : receive config request = .ok passed) (hn : n ∉ layerFields) :
    (answer passed (relay policy res)).headers.getAll n =
      if n = te then [] else (relay policy res).headers.getAll n := by
  obtain ⟨hv, hm, hc, hu⟩ := layerField_ne hn
  have hl := leaves_answer h (relay policy res)
  have hrelay : (relay policy res).headers.getAll n =
      if n ∈ hopByHopHeaders res.headers then [] else res.headers.getAll n := by
    rw [getAll_relay_ne hc hu fun _ => hv, getAll_stripHopByHopResponseHeaders]
  have hnamed : ¬ NamedFirst (relay policy res).headers n := fun hf => hu
    (@nominatesUpgradeOnly_of_connection (decide (res.status = .switchingProtocols)) _
      ((@getAll_relay_pair policy res).1.trans (if_congr decide_eq_true_iff.symm rfl rfl)) n
        (nominatedReadably_of_namedFirst hf))
  generalize (preserves config request && decide ((relay policy res).status = .switchingProtocols)) =
    b at hl
  by_cases hmem : n ∈ headersToRemove (relay policy res).headers b
  · have hs := ((mem_headersToRemove.1 hmem).1).resolve_right hnamed
    rw [hl.removed n hv hmem]
    split
    · rfl
    · next hte => rw [hrelay, if_pos (mem_hopByHopHeaders.2 (.inl ⟨hs, fun h => hte h.1⟩))]
  · have hte : n ≠ te := by
      rintro rfl
      exact hmem (mem_headersToRemove.2 ⟨.inl (by decide),
        fun hex => absurd ((exempt_iff hn).1 hex) (by decide)⟩)
    rw [if_neg hte, hl.kept n hv hm hmem]

/-- With the layer around it the proxy sends the lines of a field as without, exactly when there are none or
both rules strip it or neither does. Of a response the client gets the same lines, but for a `TE`. -/
theorem layered_field_iff (h : receive config request = .ok passed) (hn : n ∉ layerFields)
    (hm : n ∉ managedFields policy request.extensions.connectInfo)
    (hs : forwardStart env policy uri passed.request = some (.sending s))
    (hs' : forwardStart env policy uri request = some (.sending s')) (res : Response) :
    (s.forwardReq.headers.getAll n = s'.forwardReq.headers.getAll n ↔
      request.headers.getAll n = [] ∨ StrippedAlike config request n) ∧
    ((answer passed (relay policy res)).headers.getAll n = (relay policy res).headers.getAll n ↔
      (n = te → (relay policy res).headers.getAll te = [])) := by
  obtain ⟨hv, hmax, hc, hu⟩ := layerField_ne hn
  constructor
  · have hm' : n ∉ managedFields policy passed.request.extensions.connectInfo := by
      rwa [extensions_receive h]
    rw [headers_of_sending hs, headers_of_sending hs', getAll_sentHeaders_of_not_mem hm' hc hu,
      getAll_sentHeaders_of_not_mem hm hc hu, getAll_receive h hv hmax, strippedAlike_iff h hn,
        ← ite_nil_eq_iff, ite_or]
  · rw [getAll_answer_relay h hn]
    split
    · next hte =>
      subst hte
      exact eq_comm.trans ⟨fun h _ => h, fun h => h rfl⟩
    · next hte => exact iff_of_true rfl fun h => absurd h hte

theorem layered_field_iff_exempt :
    let request := { Request.new (.fromBytes []) with
      headers := ⟨[(connection, .fromStatic "authorization"), (authorization, .fromStatic "a")]⟩ }
    ∃ passed s s', receive {} request = .ok passed ∧
      forwardStart ⟨64, fun _ => []⟩ {} (.origin ⟨['/']⟩) passed.request = some (.sending s) ∧
      forwardStart ⟨64, fun _ => []⟩ {} (.origin ⟨['/']⟩) request = some (.sending s') ∧
      s.forwardReq.headers.getAll authorization ≠ s'.forwardReq.headers.getAll authorization := by
  intro request
  obtain ⟨passed, h, hrej⟩ : ∃ passed, receive {} request = .ok passed ∧
    earlyReject {} passed.request = none :=
    ⟨_, rfl, by decide⟩
  obtain ⟨s, hs⟩ := @forwardStart_of_not_rejected ⟨64, fun _ => []⟩ {} (.origin ⟨['/']⟩) passed.request hrej
  obtain ⟨s', hs'⟩ := @forwardStart_of_not_rejected
    ⟨64, fun _ => []⟩ {} (.origin ⟨['/']⟩) request (by decide)
  have hiff := (@layered_field_iff {} request passed authorization _ {} _ s s' h (by decide)
    (by decide) hs hs'
    (.new (.fromBytes []))).1
  exact ⟨passed, s, s', h, hs, hs', fun heq => absurd (hiff.1 heq) (by decide)⟩

/-! ### Handshakes -/

theorem token_congr {headers' : HeaderMap} {wanted : Str} (h : headers.getAll n = headers'.getAll n) :
    token headers n wanted = token headers' n wanted := by
  rw [token, token, HeaderMap.readable_congr h]

theorem getAll_handshakeField_receive (h : receive config request = .ok passed) (hn : n ∈ handshakeFields) :
    passed.request.headers.getAll n = if NamedFirst request.headers n then [] else
      request.headers.getAll n := by
  obtain ⟨hlayer, hs, hend⟩ := (by decide : ∀ m ∈ handshakeFields,
    m ∉ layerFields ∧ m ∉ HOP_BY_HOP_HEADERS ∧ isEndToEndHeader m = false) n hn
  rw [getAll_receive h (layerField_ne hlayer).1 (layerField_ne hlayer).2.1]
  refine if_congr ?_ rfl rfl
  rw [mem_headersToRemove, exempt_iff hlayer, hend, or_iff_right hs, and_iff_left (by simp)]

theorem preserves_of_upgrade (hup : isWebsocketUpgrade request.headers = true)
    (hc : config.preserveWebsocketHeaders = true) : preserves config request = true := by
  obtain ⟨-, -, hk, hv⟩ := isWebsocketUpgrade_iff.1 hup
  rw [preserves, isWebsocketUpgradeRequest, hc, MultiMap.containsKey_iff.2 hk,
    MultiMap.containsKey_iff.2 hv]
  rfl

theorem isWebsocketUpgrade_receive (h : receive config request = .ok passed) :
    isWebsocketUpgrade passed.request.headers = true ↔ isWebsocketUpgrade request.headers = true ∧
      config.preserveWebsocketHeaders = true ∧ ¬ NamedFirst request.headers secWebsocketKey ∧
        ¬ NamedFirst request.headers secWebsocketVersion := by
  have hc := getAll_pair_receive h (n := connection) (by decide)
  have hu := getAll_pair_receive h (n := upgrade) (by decide)
  by_cases hp : preserves config request = true
  · rw [if_pos hp] at hc hu
    have hconf : config.preserveWebsocketHeaders = true := by
      rw [preserves, Bool.and_eq_true] at hp
      exact hp.1
    rw [isWebsocketUpgrade_iff, isWebsocketUpgrade_iff, token_congr hc, token_congr hu,
      getAll_handshakeField_receive h (by decide), getAll_handshakeField_receive h (by decide)]
    simp only [hconf, ne_eq, ite_eq_left_iff, not_forall, exists_prop, true_and]
    tauto
  · rw [if_neg hp] at hc
    refine iff_of_false (fun hup => ?_) fun hup => hp (preserves_of_upgrade hup.1 hup.2.1)
    rw [isWebsocketUpgrade_iff, token_of_nil hc] at hup
    cases hup.1

/-- An answer to a request that has lost its subprotocols is right when it selects none. -/
theorem valid_iff_of_lost {d : List UInt8 → Str} {request request' : HeaderMap} {lost : Prop}
    [Decidable lost]
    (hk : request'.getAll secWebsocketKey = request.getAll secWebsocketKey)
    (hp : request'.getAll secWebsocketProtocol = if lost then [] else request.getAll secWebsocketProtocol) :
    validUpgradeResponse d headers request' = true ↔
      validUpgradeResponse d headers request = true ∧ (lost → headers.get secWebsocketProtocol = none) := by
  unfold validUpgradeResponse
  rw [MultiMap.get_congr hk]
  cases request.get secWebsocketKey with
  | none => simp
  | some key =>
    by_cases hl : lost
    · rw [if_pos hl] at hp
      rw [HeaderMap.readable_of_getAll_nil hp]
      cases headers.get secWebsocketProtocol with
      | none => simp [hl]
      | some v => cases v.toStr <;> simp [hl]
    · rw [if_neg hl] at hp
      rw [HeaderMap.readable_congr hp]
      simp [hl]

/-- The proxy as a service; a panic is no answer. -/
def proxyService (env : Platform) (policy : ProxyPolicy) (uri : Uri) (send : Request → SendOutcome)
    (request : Request) :
    Except Unit Response :=
  (forwardWith env policy uri request send).elim (.error ()) .ok

theorem handshakeReply_answer (h : receive config request = .ok passed)
    (hpres : preserves config request = true)
    (hs : res.status = .switchingProtocols) : HandshakeReply res (answer passed (relay policy res)) := by
  obtain ⟨hc, hu, hlines⟩ := @handshakeReply_relay policy res hs
  have hl := leaves_answer h (relay policy res)
  have hb : (preserves config request && decide ((relay policy res).status = .switchingProtocols)) =
    true := by
    rw [hpres, show (relay policy res).status = res.status from rfl, hs]
    rfl
  rw [hb] at hl
  have hpair : ∀ n ∈ WEBSOCKET_HEADERS, (answer passed (relay policy res)).headers.getAll n =
    (relay policy res).headers.getAll n := by
    intro n hn
    have hne : n ≠ via ∧ n ≠ maxForwards :=
      (by decide : ∀ m ∈ WEBSOCKET_HEADERS, m ≠ via ∧ m ≠ maxForwards) n hn
    exact hl.kept n hne.1 hne.2 fun hmem => by simpa using (pair_mem_headersToRemove_iff hn).1 hmem
  refine ⟨(hpair _ (by decide)).trans hc, (hpair _ (by decide)).trans hu, fun n hn => ?_⟩
  obtain ⟨hlayer, hte⟩ := (by decide : ∀ m ∈ [secWebsocketAccept, secWebsocketProtocol],
    m ∉ layerFields ∧ m ≠ te) n hn
  rw [getAll_answer_relay h hlayer, if_neg hte, hlines n hn]

theorem status_answer (passed : Passed) (response : Response) :
    (answer passed response).status = response.status := by
  unfold answer
  simp only
  split <;> rfl

/-- A 101 of the upstream gets to the client through the proxy and the layer exactly when the client sent
a handshake, the layer is to preserve one, the first `Connection` line names neither the key nor the
version, and the answer is right for what is left of the request. Every other one becomes a 502. -/
theorem layered_handshake_iff {send : Request → SendOutcome} (h : receive config request = .ok passed)
    (hans : Answered env policy uri passed.request send res) (hs : res.status = .switchingProtocols) :
    ∃ r, call config (proxyService env policy uri send) request = .ok r ∧
      ((r.status = .switchingProtocols ∧ HandshakeReply res r) ∨ r.status = .badGateway) ∧
      (r.status = .switchingProtocols ↔ isWebsocketUpgrade request.headers = true ∧
        config.preserveWebsocketHeaders = true ∧ ¬ NamedFirst request.headers secWebsocketKey ∧
        ¬ NamedFirst request.headers secWebsocketVersion ∧
        validUpgradeResponse env.deriveAcceptKey res.headers request.headers = true ∧
        (NamedFirst request.headers secWebsocketProtocol →
          res.headers.get secWebsocketProtocol = none)) := by
  obtain ⟨s, hst, ho⟩ := hans
  have hfields : s.upgrading = isWebsocketUpgrade passed.request.headers ∧
    s.clientHeaders = passed.request.headers := by
    obtain ⟨-, u, -, rfl⟩ := forwardStart_sending hst
    exact ⟨rfl, rfl⟩
  refine ⟨answer passed (s.finish env policy (.response res)).response, ?_, ?_⟩
  · rw [call, h]
    show Except.map (answer passed) (proxyService env policy uri send passed.request) = _
    rw [proxyService, forwardWith, hst, ← ho]
    rfl
  · rw [status_answer, finish_switching s hs, hfields.1, hfields.2]
    have hiff := isWebsocketUpgrade_receive h
    have hvalid (hk : ¬ NamedFirst request.headers secWebsocketKey) :=
      @valid_iff_of_lost res.headers env.deriveAcceptKey request.headers passed.request.headers _ _
        ((getAll_handshakeField_receive h (by decide)).trans (if_neg hk))
          (getAll_handshakeField_receive h (by decide))
    split
    · next hacc =>
      obtain ⟨hup, hpres, hk, hv⟩ := hiff.1 hacc.1
      exact ⟨.inl ⟨hs, handshakeReply_answer h (preserves_of_upgrade hup hpres) hs⟩,
        iff_of_true hs ⟨hup, hpres, hk, hv, (hvalid hk).1 hacc.2⟩⟩
    · next hacc =>
      have hbad : StatusCode.badGateway ≠ .switchingProtocols := by decide
      refine ⟨.inr rfl, iff_of_false hbad ?_⟩
      rintro ⟨hup, hpres, hk, hv, hright⟩
      exact hacc ⟨hiff.2 ⟨hup, hpres, hk, hv⟩, (hvalid hk).2 hright⟩

theorem layered_handshake_iff_sample :
    let env : Platform := ⟨64, fun _ => "s3pPLMBiTxaQ9kYGzzhZRbK+xOo=".toList⟩
    let request := { Request.new (.fromBytes []) with
      headers := ⟨[(connection, .fromStatic "Upgrade"), (upgrade, .fromStatic "websocket"),
        (secWebsocketKey, .fromStatic "dGhlIHNhbXBsZSBub25jZQ=="),
          (secWebsocketVersion, .fromStatic "13")]⟩ }
    let res : Response := { Response.withStatus .switchingProtocols (.fromBytes []) with
      headers := ⟨[(connection, .fromStatic "Upgrade"), (upgrade, .fromStatic "websocket"),
        (secWebsocketAccept, .fromStatic "s3pPLMBiTxaQ9kYGzzhZRbK+xOo=")]⟩ }
    ∃ r, call {} (proxyService env {} (.origin ⟨['/']⟩) fun _ => .response res) request = .ok r ∧
      r.status = .switchingProtocols := by
  intro env request res
  obtain ⟨passed, h, hrej⟩ : ∃ passed, receive {} request = .ok passed ∧
    earlyReject {} passed.request = none :=
    ⟨_, rfl, by decide⟩
  obtain ⟨s, hst⟩ := @forwardStart_of_not_rejected env {} (.origin ⟨['/']⟩) passed.request hrej
  obtain ⟨r, hr, -, hiff⟩ := @layered_handshake_iff {} request passed env {} (.origin ⟨['/']⟩) res
    (fun _ => .response res) h
    ⟨s, hst, rfl⟩ rfl
  exact ⟨r, hr, hiff.2 ⟨by decide, rfl, by decide, by decide, by decide, by decide⟩⟩

end AxumReverseProxy.Rfc9110
