import AxumReverseProxy.Forward.Forwarded
import AxumReverseProxy.Forward.Paths

/-!
# What the origin server learns of the client

The proxies of a path each add an element to `Forwarded`, and the first one puts in its view of the
host and the scheme. The proxies behind it can neither lose an element nor change that view
(`forwarded_over_path`, `edge_view_over_path`).
-/

namespace AxumReverseProxy

open HeaderName Forwarded

variable {hop first : Hop} {hops rest : List Hop} {msg mid msg' : Message} {policy : ProxyPolicy}
  {uri : Uri} {req : Request} {up : Bool} {n : HeaderName} {headers : HeaderMap} {addr : SocketAddr}
  {es : List ForwardedElement} {value : Option Str} {lines : List HeaderValue}

/-! ### Forwarded -/

/-- A proxy that appends, knows its peer and names a scheme, if any, that is a token. -/
structure Hop.Reports (hop : Hop) : Prop where
  append : hop.policy.xForwardedFor = .append
  peer : hop.connectInfo.isSome = true
  scheme : ∀ t ∈ hop.policy.publicScheme, t.IsToken

/-- The host and the scheme in the element of the first proxy. -/
def edgePairs (hop : Hop) (headers : HeaderMap) : ForwardedElement :=
  (hostValue headers hop.uri.authority?).toList.map ("host".toList, ·) ++
    hop.policy.publicScheme.toList.map ("proto".toList, ·)

/-- The elements of proxies that find some already there. -/
def peerElements (hops : List Hop) : List ForwardedElement :=
  hops.filterMap fun hop => hop.connectInfo.map fun addr => [("for".toList, addr.ip.node)]

/-- A field that the next proxy reads as the elements `es`. -/
structure ForwardedLine (headers : HeaderMap) (es : List ForwardedElement) : Prop where
  nominates : NominatesUpgradeOnly headers
  line : ∃ v, headers.getAll forwarded = [v] ∧ v.Readable
  elements : elements headers = some es

theorem forwardedLine_pass (hr : hop.Reports) (hc : hop.connectInfo = some addr)
    (h : Hop.pass msg hop = some msg')
    (hes : parse (outgoingForwarded msg.headers hop.uri.authority? addr.ip
      hop.policy.publicScheme) = some es) :
    ForwardedLine msg'.headers es := by
  obtain ⟨-, -, hh⟩ := pass_eq_some h
  have hline : msg'.headers.getAll forwarded = [.ofVisible
      (outgoingForwarded msg.headers hop.uri.authority? addr.ip hop.policy.publicScheme)
      (outgoingForwarded_visible hr.scheme)] := by
    rw [hh, getAll_forwarded_sentHeaders]
    show (buildForwardHeaders msg.headers hop.connectInfo _ _).getAll forwarded = _
    rw [hc]
    exact getAll_forwarded_build hr.append hr.scheme
  refine ⟨by rw [hh]; exact nominatesUpgradeOnly_sentHeaders, ⟨_, hline,
    HeaderValue.readable_ofVisible _⟩, ?_⟩
  rw [elements_of_line hline, HeaderValue.latin1_ofVisible, hes]

theorem outgoingForwarded_append {auth : Option Authority} {scheme : Option Str}
    (hn : headers.getAll forwarded ≠ [])
    (hr : ∀ v ∈ headers.getAll forwarded, v.Readable) (hnom : ¬ NominatedReadably headers forwarded)
    (hes : elements headers = some es) :
    parse (outgoingForwarded headers auth addr.ip scheme) =
      some (es ++ [[("for".toList, addr.ip.node)]]) := by
  rw [elements_of_ne_nil hn, HeaderMap.map_latin1_eq_readable hr] at hes
  have hex : headers.readable forwarded ≠ [] := by
    rw [← HeaderMap.map_latin1_eq_readable hr]
    simpa using hn
  have hout : outgoingForwarded headers auth addr.ip scheme =
      Str.join (headers.readable forwarded) ", ".toList ++ ", ".toList ++
        [';'].intercalate (ownPairs addr.ip none none) := by
    simp only [outgoingForwarded, if_neg hnom, onFirst, if_neg hex, joinElement]
  rw [hout]
  exact parse_append hes (parse_ownPairs (by simp) (by simp))

theorem outgoingForwarded_edge (hr : first.Reports) (hsound : ForwardedSound msg.headers)
    (hes : elements msg.headers = some es) :
    parse (outgoingForwarded msg.headers first.uri.authority? addr.ip first.policy.publicScheme) =
      some (es ++ [("for".toList, addr.ip.node) ::
        if es = [] then edgePairs first msg.headers else []]) := by
  unfold ForwardedSound at hsound
  split at hsound
  · next hn =>
    obtain rfl : [] = es := Option.some.inj ((elements_of_nil hn).symm.trans hes)
    obtain ⟨hhost, hmem⟩ := @clientHost_eq msg.headers first.uri.authority? hsound
    rw [outgoingForwarded_first (.inr (HeaderMap.readable_of_getAll_nil hn)), hhost,
      parse_ownPairs hmem hr.scheme]
    rfl
  · next hn =>
    have hne : es ≠ [] := ne_nil_of_parse ((elements_of_ne_nil hn).symm.trans hes)
    rw [outgoingForwarded_append hn hsound.1 hsound.2 hes, if_neg hne]

theorem ForwardedLine.pass (hl : ForwardedLine mid.headers es) (hr : hop.Reports)
    (h : Hop.pass mid hop = some msg') :
    ForwardedLine msg'.headers (es ++ peerElements [hop]) := by
  obtain ⟨addr, hc⟩ := Option.isSome_iff_exists.1 hr.peer
  obtain ⟨v, hv, hread⟩ := hl.line
  have hout : peerElements [hop] = [[("for".toList, addr.ip.node)]] := by simp [peerElements, hc]
  rw [hout]
  refine forwardedLine_pass hr hc h (outgoingForwarded_append ?_ ?_ ?_ hl.elements)
  · rw [hv]
    exact List.cons_ne_nil _ _
  · rw [hv]
    exact List.forall_mem_singleton.2 hread
  · exact fun hn => absurd (hl.nominates _ hn) (by decide)

/-- Behind a path of proxies that append, the origin server reads the client's elements and then one for
each proxy in the order of the path, of which the first has the host and the scheme if the client had
none. -/
theorem forwarded_over_path (first : Hop) (rest : List Hop) (msg msg' : Message) (addr : SocketAddr)
    (es : List ForwardedElement) (hr : ∀ hop ∈ first :: rest, hop.Reports)
    (hc : first.connectInfo = some addr)
    (hsound : ForwardedSound msg.headers) (hes : elements msg.headers = some es)
    (h : travel msg (first :: rest) = some msg') :
    elements msg'.headers = some (es ++
      (("for".toList, addr.ip.node) :: if es = [] then edgePairs first msg.headers else []) ::
        peerElements rest) := by
  obtain ⟨mid, hpass, h⟩ := Option.bind_eq_some_iff.1 (Run.run_cons.symm.trans h)
  have hfirst := forwardedLine_pass (hr first (by simp)) hc hpass
    (outgoingForwarded_edge (hr first (by simp)) hsound hes)
  have hline := Run.run_invariant (fun as t => (∀ hop ∈ as, hop.Reports) →
    ForwardedLine t.headers ((es ++ [("for".toList, addr.ip.node) ::
      if es = [] then edgePairs first msg.headers else []]) ++ peerElements as))
    (fun _ => by rw [peerElements, List.filterMap_nil, List.append_nil]; exact hfirst) ?_ h
  · rw [(hline fun g hg => hr g (List.mem_cons_of_mem _ hg)).elements, List.append_assoc]
    rfl
  · intro as t hop t' ih hpass has
    have hnext := (ih fun g hg => has g (List.mem_append_left _ hg)).pass (has hop (by simp)) hpass
    rwa [List.append_assoc, peerElements, peerElements, ← List.filterMap_append] at hnext

theorem openHop_reports : openHop.Reports := ⟨rfl, rfl, fun _ ht => by cases ht⟩

theorem forwarded_over_path_two :
    let msg : Message := ⟨.get, ⟨[(host, .fromStatic "example.com")]⟩, .fromBytes []⟩
    ∃ msg', travel msg [openHop, openHop] = some msg' ∧
      elements msg'.headers = some [[("for".toList, "10.0.0.1".toList),
        ("host".toList, "example.com".toList)], [("for".toList, "10.0.0.1".toList)]] := by
  intro msg
  obtain ⟨msg', h⟩ := @exists_travel [openHop, openHop] msg openHop_open nofun
  refine ⟨msg', h, (forwarded_over_path openHop [openHop] _ _ ⟨.V4 ⟨10, 0, 0, 1⟩, 80⟩ [] ?_ rfl ?_
    rfl h).trans ?_⟩
  · simp [openHop_reports]
  · show ∀ v ∈ msg.headers.get host, IsPlainHost v
    intro v hv
    cases hv
    exact ⟨by decide, by decide, by decide⟩
  · decide

/-! ### X-Forwarded-Host and X-Forwarded-Proto -/

theorem getAll_insertIfAbsent_of_ne_nil {m : HeaderName} (h : headers.getAll n ≠ []) :
    (insertIfAbsent headers m value).getAll n = headers.getAll n := by
  by_cases hn : n = m
  · subst hn
    rw [insertIfAbsent_of_getAll_ne_nil h]
  · exact getAll_insertIfAbsent_ne hn

theorem getAll_insertIfAbsent_self {v : HeaderValue} {t : Str} (hv : HeaderValue.fromStr t = some v) :
    (insertIfAbsent headers n (some t)).getAll n =
      if headers.getAll n = [] then [v] else headers.getAll n := by
  by_cases h : headers.getAll n = []
  · unfold insertIfAbsent
    rw [if_pos h, if_neg (by rw [MultiMap.containsKey_iff]; exact fun hn => hn h), Option.bind_some, hv]
    exact MultiMap.getAll_insert_self
  · rw [if_neg h, insertIfAbsent_of_getAll_ne_nil h]

/-- The fields that a proxy leaves as they are when they are there. -/
def edgeFields : List HeaderName := [xForwardedHost, xForwardedProto]

theorem getAll_edgeField_sent (hn : n ∈ edgeFields) :
    (sentHeaders policy uri up req).getAll n =
      if policy.xForwardedFor = .append then
        (insertIfAbsent (insertIfAbsent (copyClientHeaders req.headers policy) xForwardedHost
          (clientHost req.headers (req.uri.authority?.map (·.str)))) xForwardedProto
            policy.publicScheme).getAll n
      else (copyClientHeaders req.headers policy).getAll n := by
  have hne : n ≠ host ∧ n ≠ connection ∧ n ≠ upgrade ∧ n ≠ via ∧ n ≠ xForwardedFor ∧ n ≠ forwarded :=
    (by decide : ∀ n ∈ edgeFields, n ≠ host ∧ n ≠ connection ∧ n ≠ upgrade ∧ n ≠ via ∧ n ≠ xForwardedFor ∧
      n ≠ forwarded) n hn
  obtain ⟨hh, hc, hu, hv, hx, hf⟩ := hne
  rw [sentHeaders, getAll_withHost_ne hh, forwardHeaders, getAll_upgrading_ne hc hu, getAll_policyVia_ne hv]
  simp only [buildForwardHeaders]
  split
  · -- neither the host nor the client's address bear on the two fields
    have hbase (n : HeaderName) (hn : n ∈ edgeFields) :
        (appendClient (keepHost (copyClientHeaders req.headers policy)
          (req.uri.authority?.map (·.str)) policy)
          req.extensions.connectInfo (clientHost req.headers (req.uri.authority?.map (·.str)))
          policy.publicScheme).getAll n = (copyClientHeaders req.headers policy).getAll n := by
      have hne : n ≠ host ∧ n ≠ xForwardedFor ∧ n ≠ forwarded :=
        (by decide : ∀ n ∈ edgeFields, n ≠ host ∧ n ≠ xForwardedFor ∧ n ≠ forwarded) n hn
      rw [getAll_appendClient_ne hne.2.1 hne.2.2, getAll_keepHost_ne hne.1]
    rcases List.mem_pair.1 hn with rfl | rfl
    · refine (getAll_insertIfAbsent_ne (by decide)).trans
        (.trans ?_ (getAll_insertIfAbsent_ne (by decide)).symm)
      exact getAll_insertIfAbsent_congr (hbase _ hn)
    · refine getAll_insertIfAbsent_congr ?_
      rw [getAll_insertIfAbsent_ne (by decide), getAll_insertIfAbsent_ne (by decide), hbase _ hn]
  · exact getAll_keepHost_ne hh

/-- The lines of the client's that the first proxy copies. -/
def copiedLines (headers : HeaderMap) (n : HeaderName) : List HeaderValue :=
  if NominatedReadably headers n then [] else headers.getAll n

theorem copy_edgeField (hn : n ∈ edgeFields) :
    (copyClientHeaders headers policy).getAll n = copiedLines headers n := by
  obtain ⟨hh, hstd⟩ := (by decide : ∀ n ∈ edgeFields, n ≠ host ∧ n ∉ HOP_BY_HOP_HEADERS) n hn
  rw [copiedLines]
  split
  · next hnom => exact getAll_copyClientHeaders_of_mem (mem_hopByHopHeaders.2 (.inr hnom))
  · next hnom => exact getAll_copy_of_listField hstd hh hnom

theorem edgeField_travel (hn : n ∈ edgeFields) (hnom : NominatesUpgradeOnly mid.headers)
    (hne : mid.headers.getAll n ≠ []) (h : travel mid rest = some msg') :
    msg'.headers.getAll n = mid.headers.getAll n := by
  have hinv := Run.run_preserves (fun t => NominatesUpgradeOnly t.headers ∧
    t.headers.getAll n = mid.headers.getAll n)
    ⟨hnom, rfl⟩ ?_ h
  · exact hinv.2
  · rintro t hop t' ⟨hnom, hlines⟩ hpass
    obtain ⟨-, -, hh⟩ := pass_eq_some hpass
    have hup : n ≠ upgrade := (by decide : ∀ n ∈ edgeFields, n ≠ upgrade) n hn
    have hcopy : (copyClientHeaders (hop.receive t).headers hop.policy).getAll n =
      mid.headers.getAll n := by
      show (copyClientHeaders t.headers hop.policy).getAll n = _
      rw [copy_edgeField hn, copiedLines, if_neg fun h => hup (hnom n h), hlines]
    have hne : (copyClientHeaders (hop.receive t).headers hop.policy).getAll n ≠ [] := by rwa [hcopy]
    refine ⟨by rw [hh]; exact nominatesUpgradeOnly_sentHeaders, ?_⟩
    rw [hh, getAll_edgeField_sent hn]
    split
    · rw [getAll_insertIfAbsent_of_ne_nil, getAll_insertIfAbsent_of_ne_nil hne, hcopy]
      rwa [getAll_insertIfAbsent_of_ne_nil hne]
    · exact hcopy

/-- What the first proxy knows of the host and the scheme is what the origin server is told, whatever the
proxies behind it know, unless the client brought lines of its own. -/
theorem edge_view_over_path (first : Hop) (rest : List Hop) (msg msg' : Message)
    (ha : first.policy.xForwardedFor = .append) (h : travel msg (first :: rest) = some msg') :
    (∀ t v, clientHost msg.headers (first.uri.authority?.map (·.str)) = some t →
      HeaderValue.fromStr t = some v →
      msg'.headers.getAll xForwardedHost =
        if copiedLines msg.headers xForwardedHost = [] then [v] else copiedLines msg.headers
          xForwardedHost) ∧
    ∀ t v, first.policy.publicScheme = some t → HeaderValue.fromStr t = some v →
      msg'.headers.getAll xForwardedProto =
        if copiedLines msg.headers xForwardedProto = [] then [v] else copiedLines msg.headers
          xForwardedProto := by
  obtain ⟨mid, hpass, h⟩ := Option.bind_eq_some_iff.1 (Run.run_cons.symm.trans h)
  obtain ⟨-, -, hh⟩ := pass_eq_some hpass
  have hnom : NominatesUpgradeOnly mid.headers := by
    rw [hh]
    exact nominatesUpgradeOnly_sentHeaders
  have hset {v : HeaderValue} (lines : List HeaderValue) : (if lines = [] then [v] else lines) ≠ [] := by
    split
    · exact List.cons_ne_nil _ _
    · assumption
  constructor
  · intro t v ht hv
    have hmid : mid.headers.getAll xForwardedHost =
        if copiedLines msg.headers xForwardedHost = [] then [v] else copiedLines msg.headers
          xForwardedHost := by
      rw [hh, getAll_edgeField_sent (by decide), if_pos ha, getAll_insertIfAbsent_ne (by decide)]
      show (insertIfAbsent (copyClientHeaders msg.headers _) _ (clientHost msg.headers _)).getAll _ = _
      rw [Hop.receive, ht, getAll_insertIfAbsent_self hv, copy_edgeField (by decide)]
    rw [edgeField_travel (by decide) hnom (by rw [hmid]; exact hset _) h, hmid]
  · intro t v ht hv
    have hmid : mid.headers.getAll xForwardedProto =
        if copiedLines msg.headers xForwardedProto = [] then [v] else copiedLines msg.headers
          xForwardedProto := by
      rw [hh, getAll_edgeField_sent (by decide), if_pos ha, ht, getAll_insertIfAbsent_self hv,
        getAll_insertIfAbsent_ne (by decide), copy_edgeField (by decide)]
      rfl
    rw [edgeField_travel (by decide) hnom (by rw [hmid]; exact hset _) h, hmid]

theorem edge_view_over_path_replaced :
    let msg : Message := ⟨.get, ⟨[(host, .fromStatic "example.com")]⟩, .fromBytes []⟩
    ∃ msg', travel msg [openHop, openHop] = some msg' ∧
      msg'.headers.getAll xForwardedHost = [.fromStatic "example.com"] := by
  intro msg
  obtain ⟨msg', h⟩ := @exists_travel [openHop, openHop] msg openHop_open nofun
  refine ⟨msg', h, ((edge_view_over_path openHop [openHop] _ _ rfl h).1 "example.com".toList
    (.fromStatic "example.com")
    ?_ ?_).trans (if_pos rfl)⟩
  · decide
  · decide

end AxumReverseProxy
