import AxumReverseProxy.Lib.Run
import AxumReverseProxy.Forward.Sent

/-!
# Paths of proxies

A request that passes several proxies one after the other, unchanged between them. Every proxy
leaves at most its own `upgrade` in `Connection`, so behind the first one no list field is nominated
and the lists that the proxies append to are kept.
-/

namespace AxumReverseProxy

open HeaderName

structure Message where
  method : Method
  headers : HeaderMap
  body : Body

structure Hop where
  env : Platform
  policy : ProxyPolicy
  upstreamUri : Uri
  uri : Uri
  version : Version
  connectInfo : Option SocketAddr

namespace Hop

def receive (hop : Hop) (msg : Message) : Request where
  method := msg.method
  uri := hop.uri
  version := hop.version
  headers := msg.headers
  extensions := { connectInfo := hop.connectInfo }
  body := msg.body

def start (hop : Hop) (msg : Message) : Option Started :=
  forwardStart hop.env hop.policy hop.upstreamUri (hop.receive msg)

def pass (msg : Message) (hop : Hop) : Option Message :=
  match hop.start msg with
  | some (.sending s) => some ⟨s.forwardReq.method, s.forwardReq.headers, s.forwardReq.body⟩
  | _ => none

end Hop

def travel (msg : Message) (hops : List Hop) : Option Message := Run.run Hop.pass msg hops

variable {hop : Hop} {hops : List Hop} {msg msg' : Message} {policy : ProxyPolicy} {uri : Uri}
  {req : Request} {up : Bool} {n : HeaderName} {headers : HeaderMap} {p : Str}

theorem pass_eq_some (h : Hop.pass msg hop = some msg') :
    earlyReject hop.policy (hop.receive msg) = none ∧ msg'.method = msg.method ∧
      msg'.headers = sentHeaders hop.policy hop.upstreamUri (isWebsocketUpgrade msg.headers)
        (hop.receive msg) := by
  unfold Hop.pass at h
  split at h
  · next s hs =>
    cases h
    obtain ⟨he, u, -, rfl⟩ := forwardStart_sending hs
    exact ⟨he, rfl, rfl⟩
  · cases h

theorem pass_isSome (h : earlyReject hop.policy (hop.receive msg) = none) :
    ∃ msg', Hop.pass msg hop = some msg' := by
  obtain ⟨s, hs⟩ := @forwardStart_of_not_rejected hop.env hop.policy hop.upstreamUri _ h
  exact ⟨_, by rw [Hop.pass, Hop.start, hs]⟩

theorem travel_singleton : travel msg [hop] = Hop.pass msg hop := by
  rw [travel, Run.run_cons]
  cases Hop.pass msg hop <;> rfl

/-- Proxies without a pseudonym and a cap let every request but `CONNECT` through. -/
theorem exists_travel (ho : ∀ hop ∈ hops, hop.policy.via = none ∧ hop.policy.maxRequestBodyBytes = none)
    (hm : msg.method ≠ .connect) : ∃ msg', travel msg hops = some msg' := by
  induction hops generalizing msg with
  | nil => exact ⟨msg, rfl⟩
  | cons hop hops ih =>
    obtain ⟨hv, hcap⟩ := ho hop (by simp)
    have he : earlyReject hop.policy (hop.receive msg) = none := by
      have hcon : (hop.receive msg).method ≠ .connect := hm
      rw [earlyReject, if_neg hcon, hv, hcap]
      rfl
    obtain ⟨mid, hpass⟩ := pass_isSome he
    obtain ⟨msg', h⟩ := @ih mid (fun g hg => ho g
      (by simp [hg])) (by rw [(pass_eq_some hpass).2.1]; exact hm)
    exact ⟨msg', by rw [travel, Run.run_cons, hpass]; exact h⟩

/-! ### Nominations behind a proxy -/

/-- `Connection` names `upgrade` at most. -/
def NominatesUpgradeOnly (headers : HeaderMap) : Prop := ∀ n, NominatedReadably headers n → n = upgrade

theorem nominatesUpgradeOnly_of_connection
    (h : headers.getAll connection = if up = true then [.fromStatic "upgrade"] else []) :
    NominatesUpgradeOnly headers := by
  rintro n ⟨s, hs, hn⟩
  rw [HeaderMap.readable, h] at hs
  cases up with
  | false => cases hs
  | true =>
    have hread : [HeaderValue.fromStatic "upgrade"].filterMap HeaderValue.toStr = ["upgrade".toList] := by
      decide
    rw [if_pos rfl, hread, List.mem_singleton] at hs
    subst hs
    obtain ⟨e, he, hn⟩ := hn
    have helem : Str.commaElements "upgrade".toList = ["upgrade".toList] := by decide
    rw [helem, List.mem_singleton] at he
    subst he
    have htok : HeaderName.tryFrom "upgrade".toList = some upgrade := by decide
    exact Option.some.inj (hn.symm.trans htok)

theorem nominatesUpgradeOnly_sentHeaders : NominatesUpgradeOnly (sentHeaders policy uri up req) :=
  nominatesUpgradeOnly_of_connection getAll_sentHeaders_pair.1

theorem getAll_copy_of_listField (hn : n ∉ HOP_BY_HOP_HEADERS) (hh : n ≠ host)
    (hnom : ¬ NominatedReadably headers n) :
    (copyClientHeaders headers policy).getAll n = headers.getAll n :=
  getAll_copyClientHeaders_of_not_mem (by rw [mem_hopByHopHeaders, not_or]; exact ⟨fun h => hn h.1, hnom⟩)
    (replacesHost_of_ne hh)

/-! ### Via -/

theorem getAll_via_sentHeaders (hp : policy.via = some p) :
    (sentHeaders policy uri up req).getAll via =
      (appendVia (copyClientHeaders req.headers policy) req.version p).getAll via := by
  rw [sentHeaders, getAll_withHost_ne (by decide), forwardHeaders,
    getAll_upgrading_ne (by decide) (by decide), ProxyPolicy.appendVia, hp]
  refine getAll_appendElement_congr (getAll_buildForwardHeaders_of_not_mem ?_)
  unfold forwardingFields
  split
  · split <;> decide
  · decide

theorem viaElements_sentHeaders (hp : policy.via = some p) (htok : p.IsToken) :
    viaElements (sentHeaders policy uri up req) =
      viaElements (copyClientHeaders req.headers policy) ++ [[viaProtocol req.version, p]] := by
  rw [viaElements_congr (getAll_via_sentHeaders hp), viaElements_appendVia req.version htok.isPseudonym]

/-- The pseudonyms of the proxies behind a message are in its `Via` list, and no `Connection` line
can take it away. -/
structure ViaInv (hops : List Hop) (msg : Message) : Prop where
  pseudonyms : ∀ hop ∈ hops, ∀ p ∈ hop.policy.via, ∃ e ∈ viaElements msg.headers, e[1]? = some p
  nominates : hops ≠ [] → NominatesUpgradeOnly msg.headers
  method : hops ≠ [] → msg.method ≠ .connect

theorem viaInv_pass (htok : ∃ p, hop.policy.via = some p ∧ p.IsToken) (hi : ViaInv hops msg)
    (h : Hop.pass msg hop = some msg') : ViaInv (hops ++ [hop]) msg' := by
  obtain ⟨he, hm, hh⟩ := pass_eq_some h
  obtain ⟨p, hp, htok⟩ := htok
  have hvia : viaElements msg'.headers = viaElements (copyClientHeaders msg.headers hop.policy) ++
      [[viaProtocol hop.version, p]] := by rw [hh, viaElements_sentHeaders hp htok]; rfl
  refine ⟨fun g hg q hq => ?_, fun _ => by rw [hh]; exact nominatesUpgradeOnly_sentHeaders, fun _ hc => ?_⟩
  · rw [hvia]
    rcases List.mem_append.1 hg with hg | hg
    · -- an earlier pseudonym: `via` is not nominated, so its lines were copied
      have hne : hops ≠ [] := List.ne_nil_of_mem hg
      have hcopy : (copyClientHeaders msg.headers hop.policy).getAll via = msg.headers.getAll via :=
        getAll_copy_of_listField (by decide) (by decide) fun hn =>
          absurd (hi.nominates hne _ hn) (by decide)
      obtain ⟨e, hmem, hq⟩ := hi.pseudonyms g hg q hq
      exact ⟨e, List.mem_append_left _ (by rwa [viaElements_congr hcopy]), hq⟩
    · obtain rfl := List.mem_singleton.1 hg
      obtain rfl : q = p := Option.some.inj (hq.symm.trans hp)
      exact ⟨_, List.mem_append_right _ (List.mem_singleton_self _), rfl⟩
  · have hcon : (hop.receive msg).method = .connect := hm.symm.trans hc
    rw [earlyReject, if_pos hcon] at he
    cases he

theorem viaInv_travel (htok : ∀ hop ∈ hops, ∃ p, hop.policy.via = some p ∧ p.IsToken)
    (h : travel msg hops = some msg') : ViaInv hops msg' := by
  revert htok
  refine Run.run_invariant (fun as t => (∀ hop ∈ as, ∃ p, hop.policy.via = some p ∧ p.IsToken) →
    ViaInv as t) ?_ ?_ h
  · intro _
    exact ⟨by simp, by simp, by simp⟩
  · intro as t a t' ih hpass htok
    exact viaInv_pass (htok a (by simp)) (ih fun g hg => htok g (List.mem_append_left _ hg)) hpass

/-- A proxy that a request reaches a second time answers 508 and does not send it. -/
theorem no_undetected_loop (hops : List Hop) (last : Hop) (p : Str) (msg msg' : Message)
    (htok : ∀ hop ∈ hops, ∃ p, hop.policy.via = some p ∧ p.IsToken) (hlast : last.policy.via = some p)
    (hseen : ∃ hop ∈ hops, hop.policy.via = some p) (h : travel msg hops = some msg') :
    ∃ res, last.start msg' = some (.rejected res) ∧ res.status = .loopDetected := by
  have hi := viaInv_travel htok h
  obtain ⟨hop, hmem, hp⟩ := hseen
  have hc : (last.receive msg').method ≠ .connect := hi.method (List.ne_nil_of_mem hmem)
  have hvia : last.policy.via.any (viaContainsPseudonym (last.receive msg').headers) = true := by
    rw [hlast]
    exact viaContainsPseudonym_iff.2 (hi.pseudonyms hop hmem p hp)
  refine ⟨.withStatus .loopDetected (.fromStr "Loop Detected"), ?_, rfl⟩
  rw [Hop.start, forwardStart, earlyReject, if_neg hc, if_pos hvia]

def edgeHop : Hop where
  env := ⟨64, fun _ => []⟩
  policy := ProxyPolicy.withVia {} "edge".toList
  upstreamUri := .origin ⟨['/']⟩
  uri := .origin ⟨['/']⟩
  version := .http11
  connectInfo := none

theorem no_undetected_loop_edge :
    ∃ msg', travel ⟨.get, .empty, .fromBytes []⟩ [edgeHop] = some msg' ∧
      ∃ res, edgeHop.start msg' = some (.rejected res) ∧ res.status = .loopDetected := by
  obtain ⟨msg', h⟩ := @pass_isSome edgeHop ⟨.get, .empty, .fromBytes []⟩ (by decide)
  have ht : travel ⟨.get, .empty, .fromBytes []⟩ [edgeHop] = some msg' := travel_singleton.trans h
  refine ⟨msg', ht, no_undetected_loop [edgeHop] edgeHop "edge".toList _ _ ?_ rfl
    ⟨edgeHop, by simp, rfl⟩ ht⟩
  intro hop hmem
  rw [List.mem_singleton.1 hmem]
  exact ⟨_, rfl, by decide⟩

/-! ### X-Forwarded-For -/

/-- The elements of the readable lines of a list field. -/
def listElements (headers : HeaderMap) (n : HeaderName) : List Str :=
  (headers.readable n).flatMap Str.commaElements

theorem xForwardedFor_sentHeaders {addr : SocketAddr} (ha : policy.xForwardedFor = .append)
    (hc : req.extensions.connectInfo = some addr) :
    ∃ v text, (sentHeaders policy uri up req).getAll xForwardedFor = [v] ∧ v.toStr = some text ∧
      text.commaElements =
        listElements (copyClientHeaders req.headers policy) xForwardedFor ++ [addr.ip.display] := by
  have hvis := addr.ip.display_visible
  have hcopy : (keepHost (copyClientHeaders req.headers policy) (req.uri.authority?.map (·.str))
      policy).getAll xForwardedFor = (copyClientHeaders req.headers policy).getAll xForwardedFor :=
        getAll_keepHost_ne (by decide)
  refine ⟨.ofVisible (joinElement ((copyClientHeaders req.headers policy).readable xForwardedFor)
    addr.ip.display)
    (joinElement_visible (fun _ h => HeaderMap.readable_visible h) hvis), _, ?_,
    HeaderValue.toStr_ofVisible _, ?_⟩
  · rw [sentHeaders, getAll_withHost_ne (by decide), forwardHeaders,
      getAll_upgrading_ne (by decide) (by decide), getAll_policyVia_ne (by decide)]
    simp only [buildForwardHeaders, if_pos ha, hc, appendClient]
    rw [getAll_insertIfAbsent_ne (by decide), getAll_insertIfAbsent_ne (by decide),
      getAll_appendForwardedHeader_ne (by decide), getAll_appendElement_congr hcopy,
      getAll_appendElement_self hvis]
  · rw [commaElements_joinElement, IpAddr.commaElements_display, listElements]

def peers (hops : List Hop) : List Str := hops.filterMap fun hop => hop.connectInfo.map (·.ip.display)

/-- The elements a client's request brings in: none when the field was nominated. -/
def clientElements (msg : Message) : List Str :=
  if NominatedReadably msg.headers xForwardedFor then [] else listElements msg.headers xForwardedFor

/-- One line, with the client's elements and then the peers of the proxies passed. -/
structure ForwardedForInv (msg : Message) (hops : List Hop) (msg' : Message) : Prop where
  nominates : hops ≠ [] → NominatesUpgradeOnly msg'.headers
  line : hops ≠ [] → ∃ v text, msg'.headers.getAll xForwardedFor = [v] ∧ v.toStr = some text ∧
    text.commaElements = clientElements msg ++ peers hops
  start : hops = [] → msg' = msg

theorem listElements_of_line {v : HeaderValue} {text : Str} (h : headers.getAll n = [v])
    (hv : v.toStr = some text) : listElements headers n = text.commaElements := by
  simp [listElements, HeaderMap.readable, h, hv]

theorem ForwardedForInv.copied (hi : ForwardedForInv msg hops msg') (policy : ProxyPolicy) :
    listElements (copyClientHeaders msg'.headers policy) xForwardedFor = clientElements msg ++
      peers hops := by
  by_cases hnom : NominatedReadably msg'.headers xForwardedFor
  · have hnil : hops = [] := by
      by_contra hne
      exact absurd (hi.nominates hne _ hnom) (by decide)
    rw [hi.start hnil] at hnom ⊢
    rw [listElements, HeaderMap.readable,
      getAll_copyClientHeaders_of_mem (mem_hopByHopHeaders.2 (.inr hnom)),
      clientElements, if_pos hnom, hnil]
    rfl
  · have hcopy : (copyClientHeaders msg'.headers policy).getAll xForwardedFor =
        msg'.headers.getAll xForwardedFor := getAll_copy_of_listField (by decide) (by decide) hnom
    rw [listElements, HeaderMap.readable_congr hcopy]
    by_cases hne : hops = []
    · rw [hi.start hne] at hnom ⊢
      rw [clientElements, if_neg hnom, hne, peers, List.filterMap_nil, List.append_nil, listElements]
    · obtain ⟨v, text, hall, hv, htext⟩ := hi.line hne
      rw [← htext, ← listElements_of_line hall hv, listElements]

theorem forwardedForInv_pass (ha : hop.policy.xForwardedFor = .append) (hc : hop.connectInfo.isSome = true)
    {mid : Message} (hi : ForwardedForInv msg hops mid) (h : Hop.pass mid hop = some msg') :
    ForwardedForInv msg (hops ++ [hop]) msg' := by
  obtain ⟨-, -, hh⟩ := pass_eq_some h
  obtain ⟨addr, hc⟩ := Option.isSome_iff_exists.1 hc
  refine ⟨fun _ => by rw [hh]; exact nominatesUpgradeOnly_sentHeaders, fun _ => ?_,
    fun hnil => by simp at hnil⟩
  obtain ⟨v, text, hall, hv, htext⟩ := @xForwardedFor_sentHeaders hop.policy hop.upstreamUri
    (hop.receive mid) (isWebsocketUpgrade mid.headers) addr ha hc
  refine ⟨v, text, by rw [hh]; exact hall, hv, ?_⟩
  have hpeers : peers (hops ++ [hop]) = peers hops ++ [addr.ip.display] := by simp [peers, hc]
  rw [htext, hpeers, ← List.append_assoc, ← hi.copied hop.policy]
  rfl

/-- Behind a path of appending proxies the field is one line: the client's readable elements, unless
a readable `Connection` line nominated the field, and then the peers in the order of the path. -/
theorem x_forwarded_for_hop_list (hops : List Hop) (msg msg' : Message) (hne : hops ≠ [])
    (happend : ∀ hop ∈ hops, hop.policy.xForwardedFor = .append)
    (hpeer : ∀ hop ∈ hops, hop.connectInfo.isSome = true) (h : travel msg hops = some msg') :
    ∃ v text, msg'.headers.getAll xForwardedFor = [v] ∧ v.toStr = some text ∧
      text.commaElements = clientElements msg ++ peers hops ∧ (peers hops).length = hops.length := by
  have hinv : ForwardedForInv msg hops msg' := by
    revert happend hpeer
    refine Run.run_invariant (fun as t => (∀ hop ∈ as, hop.policy.xForwardedFor = .append) →
      (∀ hop ∈ as, hop.connectInfo.isSome = true) → ForwardedForInv msg as t) ?_ ?_ h
    · intro _ _
      exact ⟨by simp, by simp, fun _ => rfl⟩
    · intro as t a t' ih hpass happend hpeer
      exact forwardedForInv_pass (happend a (by simp)) (hpeer a (by simp))
        (ih (fun g hg => happend g (List.mem_append_left _ hg)) fun g hg => hpeer g
          (List.mem_append_left _ hg)) hpass
  obtain ⟨v, text, hall, hv, htext⟩ := hinv.line hne
  refine ⟨v, text, hall, hv, htext, ?_⟩
  rw [peers, List.length_filterMap_eq_countP, List.countP_eq_length]
  intro hop hmem
  simpa using hpeer hop hmem

def peerHop : Hop := { edgeHop with connectInfo := some ⟨.V4 ⟨10, 0, 0, 1⟩, 80⟩ }

def relayHop : Hop := { edgeHop with policy := {}, connectInfo := some ⟨.V4 ⟨10, 0, 0, 2⟩, 80⟩ }

/-- Two lines of the client's, and two proxies. -/
theorem x_forwarded_for_hop_list_two :
    let msg : Message := ⟨.get, ⟨[(xForwardedFor, .fromStatic "1.2.3.4, 5.6.7.8"),
      (connection, .fromStatic "forwarded"), (xForwardedFor, .fromStatic "9.9.9.9")]⟩, .fromBytes []⟩
    ∃ msg' v text, travel msg [peerHop, relayHop] = some msg' ∧
      msg'.headers.getAll xForwardedFor = [v] ∧ v.toStr = some text ∧
      text.commaElements = ["1.2.3.4", "5.6.7.8", "9.9.9.9", "10.0.0.1", "10.0.0.2"].map String.toList := by
  intro msg
  obtain ⟨mid, hmid⟩ := @pass_isSome peerHop msg (by decide)
  have hmethod : mid.method = .get := (pass_eq_some hmid).2.1
  obtain ⟨msg', h⟩ := @exists_travel [relayHop] mid (by simp [relayHop]) (by rw [hmethod]; decide)
  have ht : travel msg [peerHop, relayHop] = some msg' := by
    rw [travel, Run.run_cons, hmid]
    exact h
  obtain ⟨v, text, hall, hv, htext, -⟩ := x_forwarded_for_hop_list [peerHop, relayHop] msg msg' (by simp)
    (by simp [peerHop, relayHop, edgeHop, ProxyPolicy.withVia]) (by simp [peerHop, relayHop]) ht
  refine ⟨msg', v, text, ht, hall, hv, htext.trans ?_⟩
  decide

end AxumReverseProxy
