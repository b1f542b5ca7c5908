import AxumReverseProxy.Forward.HopByHopFree

/-!
# Hop-by-hop fields in requests and responses

Both directions satisfy `Direction`. A stripped field is written, if at all, from other fields only,
so its lines do not depend on what came in. That a field which is not stripped does cross is shown
with two probes, `x` and a value that is not readable: the first of its outgoing bytes tells them
apart, whatever the proxy puts behind them.
-/

namespace AxumReverseProxy

open HeaderName

variable {env : Platform} {policy : ProxyPolicy} {uri : Uri} {req : Request} {s : Sending} {res : Response}
  {headers headers' client client' : HeaderMap} {addr : Option SocketAddr} {auth : Option Str}
  {n name : HeaderName} {up up' : Bool} {own : Str} {v : HeaderValue}

/-! ### Every step reads a field from its own lines -/

theorem getAll_appendElement_any (h : headers.getAll n = headers'.getAll n) :
    (appendElement headers name own).getAll n = (appendElement headers' name own).getAll n := by
  by_cases hn : n = name
  · subst hn; exact getAll_appendElement_congr h
  · rw [getAll_appendElement_ne hn, getAll_appendElement_ne hn, h]

theorem getAll_insertIfAbsent_any {value : Option Str} (h : headers.getAll n = headers'.getAll n) :
    (insertIfAbsent headers name value).getAll n = (insertIfAbsent headers' name value).getAll n := by
  by_cases hn : n = name
  · subst hn; exact getAll_insertIfAbsent_congr h
  · rw [getAll_insertIfAbsent_ne hn, getAll_insertIfAbsent_ne hn, h]

theorem getAll_keepHost_any (h : headers.getAll n = headers'.getAll n) :
    (keepHost headers auth policy).getAll n = (keepHost headers' auth policy).getAll n := by
  unfold keepHost
  split
  · exact getAll_insertIfAbsent_any h
  · exact h

theorem getAll_appendClient_any {ch scheme : Option Str} (h : headers.getAll n = headers'.getAll n) :
    (appendClient headers addr ch scheme).getAll n = (appendClient headers' addr ch scheme).getAll n := by
  cases addr with
  | none => exact h
  | some a =>
    by_cases hn : n = forwarded
    · subst hn
      have hx : (appendElement headers xForwardedFor a.ip.display).getAll forwarded =
          (appendElement headers' xForwardedFor a.ip.display).getAll forwarded := getAll_appendElement_any h
      simp only [appendClient, appendForwardedHeader, HeaderMap.readable_congr hx]
      exact getAll_appendElement_congr hx
    · simp only [appendClient, getAll_appendForwardedHeader_ne hn]
      exact getAll_appendElement_any h

theorem getAll_policyVia_any {version : Version} (h : headers.getAll n = headers'.getAll n) :
    (policy.appendVia headers version).getAll n = (policy.appendVia headers' version).getAll n := by
  unfold ProxyPolicy.appendVia
  split
  · exact getAll_appendElement_any h
  · exact h

theorem getAll_withHost_any {a : Option Authority} (h : headers.getAll n = headers'.getAll n) :
    (withHost headers a).getAll n = (withHost headers' a).getAll n := by
  by_cases hn : n = host
  · subst hn
    unfold withHost
    rw [MultiMap.containsKey_congr h]
    split
    · exact h
    · cases a with
      | none => exact h
      | some a => simp
  · rw [getAll_withHost_ne hn, getAll_withHost_ne hn, h]

theorem getAll_buildForwardHeaders_congr
    (hcopy : (copyClientHeaders client policy).getAll n = (copyClientHeaders client' policy).getAll n)
    (hhost : n ≠ host → clientHost client auth = clientHost client' auth) :
    (buildForwardHeaders client addr auth policy).getAll n =
      (buildForwardHeaders client' addr auth policy).getAll n := by
  have hkeep : (keepHost (copyClientHeaders client policy) auth policy).getAll n =
      (keepHost (copyClientHeaders client' policy) auth policy).getAll n := getAll_keepHost_any hcopy
  unfold buildForwardHeaders
  simp only
  split
  · by_cases hn : n = host
    · subst hn
      rw [getAll_insertIfAbsent_ne (by decide), getAll_insertIfAbsent_ne (by decide),
        getAll_appendClient_ne (by decide) (by decide), getAll_insertIfAbsent_ne (by decide),
        getAll_insertIfAbsent_ne (by decide), getAll_appendClient_ne (by decide) (by decide), hkeep]
    · rw [hhost hn]
      exact getAll_insertIfAbsent_any (getAll_insertIfAbsent_any (getAll_appendClient_any hkeep))
  · exact hkeep

theorem getAll_sentHeaders_congr (hc : n ≠ connection) (hu : n ≠ upgrade)
    (hcopy : (copyClientHeaders req.headers policy).getAll n = (copyClientHeaders client policy).getAll n)
    (hhost : n ≠ host → clientHost req.headers (req.uri.authority?.map (·.str)) =
      clientHost client (req.uri.authority?.map (·.str))) :
    (sentHeaders policy uri up req).getAll n =
      (sentHeaders policy uri up' { req with headers := client }).getAll n := by
  refine getAll_withHost_any ?_
  rw [forwardHeaders, forwardHeaders, getAll_upgrading_ne hc hu, getAll_upgrading_ne hc hu]
  exact getAll_policyVia_any (getAll_buildForwardHeaders_congr hcopy hhost)

/-! ### Probes -/

/-- A value that reads as `x` or not at all. -/
def IsProbe (v : HeaderValue) : Prop := ∀ s ∈ v.toStr, s = ['x']

def readableProbe : HeaderValue := .fromStatic "x"

def unreadableProbe : HeaderValue := ⟨[0x80], by decide⟩

theorem isProbe_readableProbe : IsProbe readableProbe := by unfold IsProbe; decide

theorem isProbe_unreadableProbe : IsProbe unreadableProbe := by unfold IsProbe; decide

def probed (headers : HeaderMap) (n : HeaderName) (v : HeaderValue) : HeaderMap :=
  headers.mapValues n fun _ => v

theorem getAll_probed_ne {m : HeaderName} (h : m ≠ n) : (probed headers n v).getAll m = headers.getAll m :=
  MultiMap.getAll_mapValues_ne _ h

theorem mem_probed {w : HeaderValue} (h : w ∈ (probed headers n v).getAll n) : w = v := by
  rw [probed, MultiMap.getAll_mapValues_self] at h
  obtain ⟨_, -, rfl⟩ := List.mem_map.1 h
  rfl

theorem getAll_probed_ne_nil (h : headers.getAll n ≠ []) : (probed headers n v).getAll n ≠ [] := by
  rw [probed, MultiMap.getAll_mapValues_self]
  simpa using h

theorem readable_probed {t : Str} (hv : IsProbe v) (h : t ∈ (probed headers n v).readable n) :
    t = ['x'] := by
  obtain ⟨w, hw, ht⟩ := List.mem_filterMap.1 h
  rw [mem_probed hw] at ht
  exact hv t ht

theorem earlyReject_probed (hv : IsProbe v) (h : earlyReject policy req = none) :
    earlyReject policy { req with headers := probed req.headers n v } = none := by
  unfold earlyReject at h ⊢
  split_ifs at h with h1 h2 h3
  have hvia : ¬ policy.via.any (viaContainsPseudonym (probed req.headers n v)) = true := by
    cases hp : policy.via with
    | none => simp
    | some p =>
      rw [hp] at h2
      show ¬ viaContainsPseudonym _ p = true
      by_cases hn : via = n
      · subst hn
        rw [viaContainsPseudonym_iff]
        rintro ⟨e, he, hep⟩
        obtain ⟨t, ht, he⟩ := List.mem_flatMap.1 he
        have hwords : (Str.split ['x'] ',').map Str.splitWhitespace = [[['x']]] := by decide
        rw [readable_probed hv ht, hwords, List.mem_singleton] at he
        subst he; cases hep
      · rw [viaContainsPseudonym_iff, viaElements_congr (getAll_probed_ne hn), ← viaContainsPseudonym_iff]
        exact h2
  have hlen : declaredLength (probed req.headers n v) = none ∨
      declaredLength (probed req.headers n v) = declaredLength req.headers := by
    by_cases hn : contentLength = n
    · subst hn
      left
      unfold declaredLength
      cases hg : (probed req.headers contentLength v).get contentLength with
      | none => rfl
      | some w =>
        obtain rfl := mem_probed (List.mem_of_mem_head? hg)
        cases hs : w.toStr with
        | none => simp [hs]
        | some t =>
          obtain rfl := hv t hs
          simp only [Option.bind_some, hs]
          decide
    · exact .inr (by rw [declaredLength, MultiMap.get_congr (getAll_probed_ne hn), declaredLength])
  rw [if_neg h1, if_neg hvia, if_neg]
  intro hc
  rcases hlen with hl | hl
  · simp [hl] at hc
  · rw [hl] at hc; exact h3 hc

/-! ### What a field that is kept looks like -/

def OwnText (own : Str) : Prop := ∀ c ∈ own.head?, c.toNat ≤ 127 ∧ c ≠ 'x'

/-- `vs` are the lines of the field, or one line made of them and a text of the proxy's own. -/
def Extends (headers : HeaderMap) (n : HeaderName) (vs : List HeaderValue) : Prop :=
  vs = headers.getAll n ∨ ∃ own, OwnText own ∧ vs = (appendElement headers n own).getAll n

theorem Extends.congr {vs : List HeaderValue} (h : headers.getAll n = headers'.getAll n)
    (he : Extends headers n vs) : Extends headers' n vs := by
  rcases he with rfl | ⟨own, ho, rfl⟩
  · exact .inl h
  · exact .inr ⟨own, ho, getAll_appendElement_congr h⟩

theorem Extends.ne_nil {vs : List HeaderValue} (h : headers.getAll n ≠ []) (he : Extends headers n vs) :
    vs ≠ [] := by
  rcases he with rfl | ⟨own, -, rfl⟩
  · exact h
  · unfold appendElement
    split
    · simp
    · exact h

theorem ownText_append {a b : Str} (ha : a ≠ []) (h : OwnText a) : OwnText (a ++ b) := by
  intro c hc
  rw [List.head?_append_of_ne_nil _ ha] at hc
  exact h c hc

theorem ownText_display (ip : IpAddr) : OwnText ip.display := by
  intro c hc
  have h := ip.isIpChar_display c (List.mem_of_mem_head? hc)
  exact (by decide : ∀ c ∈ "0123456789abcdef.:".toList, c.toNat ≤ 127 ∧ c ≠ 'x') c (of_decide_eq_true h)

theorem ownText_via (version : Version) (p : Str) : OwnText (viaProtocol version ++ " ".toList ++ p) := by
  rw [List.append_assoc]
  cases version <;> exact ownText_append (by decide) (by unfold OwnText; decide)

theorem getAll_insertIfAbsent_of_present {value : Option Str} (h : headers.getAll n ≠ []) :
    (insertIfAbsent headers name value).getAll n = headers.getAll n := by
  by_cases hn : n = name
  · subst hn; rw [insertIfAbsent_of_getAll_ne_nil h]
  · exact getAll_insertIfAbsent_ne hn

theorem ownText_forPair : ∀ ip : IpAddr, OwnText (forPair ip) ∧ forPair ip ≠ []
  | .V4 _ => ⟨ownText_append (by decide) (by unfold OwnText; decide), List.cons_ne_nil _ _⟩
  | .V6 _ => by
    refine ⟨?_, List.cons_ne_nil _ _⟩
    rw [forPair, List.append_assoc]
    exact ownText_append (by decide) (by unfold OwnText; decide)

theorem appendForwardedHeader_extends {a : SocketAddr} {ch scheme : Option Str} :
    Extends headers forwarded ((appendForwardedHeader headers a ch scheme).getAll forwarded) := by
  obtain ⟨ho, hne⟩ := ownText_forPair a.ip
  refine .inr ⟨_, ?_, rfl⟩
  split
  · rw [List.append_assoc]; exact ownText_append hne ho
  · exact ho

theorem appendClient_extends {ch scheme : Option Str} :
    Extends headers n ((appendClient headers addr ch scheme).getAll n) := by
  cases addr with
  | none => exact .inl rfl
  | some a =>
    by_cases hn : n = forwarded
    · subst hn
      rw [appendClient]
      exact appendForwardedHeader_extends.congr (getAll_appendElement_ne (by decide))
    · simp only [appendClient, getAll_appendForwardedHeader_ne hn]
      by_cases hx : n = xForwardedFor
      · subst hx; exact .inr ⟨_, ownText_display _, rfl⟩
      · exact .inl (getAll_appendElement_ne hx)

theorem buildForwardHeaders_extends (h : (copyClientHeaders client policy).getAll n ≠ []) :
    Extends (copyClientHeaders client policy) n
      ((buildForwardHeaders client addr auth policy).getAll n) := by
  have hkeep : (keepHost (copyClientHeaders client policy) auth policy).getAll n =
      (copyClientHeaders client policy).getAll n := by
    unfold keepHost
    split
    · exact getAll_insertIfAbsent_of_present h
    · rfl
  unfold buildForwardHeaders
  simp only
  split
  · have hext : Extends (keepHost (copyClientHeaders client policy) auth policy) n
        ((appendClient (keepHost (copyClientHeaders client policy) auth policy) addr
          (clientHost client auth) policy.publicScheme).getAll n) := appendClient_extends
    have hne := hext.ne_nil (by rw [hkeep]; exact h)
    rw [getAll_insertIfAbsent_of_present (by rwa [getAll_insertIfAbsent_of_present hne]),
      getAll_insertIfAbsent_of_present hne]
    exact hext.congr hkeep
  · exact .inl hkeep

theorem policyVia_extends {version : Version} :
    Extends headers via ((policy.appendVia headers version).getAll via) := by
  unfold ProxyPolicy.appendVia
  split
  · exact .inr ⟨_, ownText_via _ _, rfl⟩
  · exact .inl rfl

theorem sentHeaders_extends (hn : n ∉ hopByHopHeaders req.headers) (hr : replacesHost policy n = false)
    (hne : req.headers.getAll n ≠ []) :
    Extends req.headers n ((sentHeaders policy uri up req).getAll n) := by
  have hcopy := @getAll_copyClientHeaders_of_not_mem _ policy _ hn hr
  have hc : n ≠ connection ∧ n ≠ upgrade := by
    constructor <;> rintro rfl <;>
      exact hn (mem_hopByHopHeaders.2 (.inl (mem_standard_of_pair (by decide))))
  have hbuild : Extends req.headers n ((policy.appendVia
    (buildForwardHeaders req.headers req.extensions.connectInfo
      (req.uri.authority?.map (·.str)) policy) req.version).getAll n) := by
    by_cases hv : n = via
    · subst hv
      refine policyVia_extends.congr ((getAll_buildForwardHeaders_of_not_mem ?_).trans hcopy)
      unfold forwardingFields
      split
      · split <;> decide
      · decide
    · rw [getAll_policyVia_ne hv]
      exact (buildForwardHeaders_extends (by rwa [hcopy])).congr hcopy
  have hfwd : Extends req.headers n ((forwardHeaders policy up req).getAll n) := by
    rwa [forwardHeaders, getAll_upgrading_ne hc.1 hc.2]
  have hhost : (sentHeaders policy uri up req).getAll n = (forwardHeaders policy up req).getAll n := by
    by_cases hh : n = host
    · subst hh
      unfold sentHeaders withHost
      rw [if_pos (MultiMap.containsKey_iff.2 (hfwd.ne_nil hne))]
    · exact getAll_withHost_ne hh
  rwa [hhost]

/-! ### Telling the probes apart -/

def firstByte (vs : List HeaderValue) : Option UInt8 := vs.head?.bind fun v => v.bytes.head?

theorem head?_asBytes_x {own : Str} (h : own.head? = some 'x') : own.asBytes.head? = some 0x78 := by
  cases own with
  | nil => cases h
  | cons c own => cases h; rfl

theorem head?_asBytes_of_ownText (h : OwnText own) : own.asBytes.head? ≠ some 0x78 := by
  cases own with
  | nil => simp [Str.asBytes]
  | cons c own =>
    obtain ⟨hlt, hx⟩ := h c rfl
    rw [HeaderValue.asBytes_cons_of_ascii hlt, List.head?_cons, ne_eq, Option.some.injEq]
    intro hc
    refine hx (Char.toNat_inj.1 ?_)
    rw [← HeaderValue.toNat_byteOfAscii hlt, hc]
    rfl

theorem bytes_of_fromStr {t : Str} (h : HeaderValue.fromStr t = some v) : v.bytes = t.asBytes := by
  unfold HeaderValue.fromStr at h
  split at h
  · cases h; rfl
  · cases h

theorem firstByte_readableProbe {vs : List HeaderValue} (hne : headers.getAll n ≠ [])
    (he : Extends (probed headers n readableProbe) n vs) : firstByte vs = some 0x78 := by
  have hsame : firstByte ((probed headers n readableProbe).getAll n) = some 0x78 := by
    cases hg : (probed headers n readableProbe).getAll n with
    | nil => exact absurd hg (getAll_probed_ne_nil hne)
    | cons w ws =>
      obtain rfl := mem_probed (hg ▸ List.mem_cons_self .. : w ∈ (probed headers n readableProbe).getAll n)
      rfl
  rcases he with rfl | ⟨own, -, rfl⟩
  · exact hsame
  · unfold appendElement
    split
    · next w hw =>
      rw [MultiMap.getAll_insert_self]
      show w.bytes.head? = _
      rw [bytes_of_fromStr hw]
      refine head?_asBytes_x ?_
      cases hr : (probed headers n readableProbe).readable n with
      | nil =>
        rw [HeaderMap.readable, List.filterMap_eq_nil_iff] at hr
        obtain ⟨w, hw⟩ := List.exists_mem_of_ne_nil _ (getAll_probed_ne_nil (v := readableProbe) hne)
        have := hr w hw
        rw [mem_probed hw] at this
        exact absurd this (by decide)
      | cons t ts =>
        obtain rfl := readable_probed isProbe_readableProbe (hr ▸ List.mem_cons_self .. :
          t ∈ (probed headers n readableProbe).readable n)
        rw [joinElement, if_neg (by simp), List.append_assoc]
        cases ts <;> rfl
    · exact hsame

theorem firstByte_unreadableProbe {vs : List HeaderValue}
    (he : Extends (probed headers n unreadableProbe) n vs) : firstByte vs ≠ some 0x78 := by
  have hsame : firstByte ((probed headers n unreadableProbe).getAll n) ≠ some 0x78 := by
    cases hg : (probed headers n unreadableProbe).getAll n with
    | nil => simp [firstByte]
    | cons w ws =>
      obtain rfl := mem_probed (hg ▸ List.mem_cons_self .. : w ∈
        (probed headers n unreadableProbe).getAll n)
      exact fun h => absurd h (by simp [firstByte, unreadableProbe])
  rcases he with rfl | ⟨own, ho, rfl⟩
  · exact hsame
  · unfold appendElement
    split
    · next w hw =>
      have hr : (probed headers n unreadableProbe).readable n = [] := by
        rw [HeaderMap.readable, List.filterMap_eq_nil_iff]
        intro w hw
        rw [mem_probed hw]
        decide
      rw [hr, joinElement, if_pos rfl] at hw
      rw [MultiMap.getAll_insert_self]
      show w.bytes.head? ≠ _
      rw [bytes_of_fromStr hw]
      exact head?_asBytes_of_ownText ho
    · exact hsame

theorem not_doesNotCross {forward : HeaderMap → Option HeaderMap} {out : HeaderMap}
    (ho : forward headers = some out)
    (hne : headers.getAll n ≠ []) (hext : ∀ v, IsProbe v → ∃ out',
      forward (probed headers n v) = some out' ∧
      Extends (probed headers n v) n (out'.getAll n)) : ¬ DoesNotCross forward headers n := by
  intro h
  obtain ⟨out₁, ho₁, he₁⟩ := hext _ isProbe_readableProbe
  obtain ⟨out₂, ho₂, he₂⟩ := hext _ isProbe_unreadableProbe
  have h₁ := firstByte_readableProbe hne he₁
  have h₂ := firstByte_unreadableProbe he₂
  rw [h _ _ _ ho ho₁] at h₁
  rw [h _ _ _ ho ho₂] at h₂
  exact h₂ h₁

/-! ### Requests -/

def requestFields (env : Platform) (policy : ProxyPolicy) (uri : Uri) (req : Request)
    (headers : HeaderMap) :
    Option HeaderMap :=
  match forwardStart env policy uri { req with headers := headers } with
  | some (.sending s) => some s.forwardReq.headers
  | _ => none

theorem requestFields_eq_some {out : HeaderMap} (h : requestFields env policy uri req headers = some out) :
    out = sentHeaders policy uri (isWebsocketUpgrade headers) { req with headers := headers } := by
  unfold requestFields at h
  rcases forwardStart_eq env policy uri { req with headers := headers } with ⟨res, -, h'⟩ | ⟨u, -, -, h'⟩
  · rw [h'] at h; cases h
  · rw [h'] at h; exact (Option.some.inj h).symm

theorem requestFields_of_not_rejected (h : earlyReject policy { req with headers := headers } = none) :
    requestFields env policy uri req headers =
      some (sentHeaders policy uri (isWebsocketUpgrade headers) { req with headers := headers }) := by
  obtain ⟨s, hs⟩ := @forwardStart_of_not_rejected env policy uri _ h
  rw [requestFields, hs, ← headers_of_sending hs]

theorem mem_hopByHopHeaders_mapValues {f : HeaderValue → HeaderValue} (hc : n ≠ connection) (hte : n ≠ te)
    {m : HeaderName} : m ∈ hopByHopHeaders (headers.mapValues n f) ↔ m ∈ hopByHopHeaders headers :=
  mem_hopByHopHeaders_congr (MultiMap.getAll_mapValues_ne f hte.symm)
    (MultiMap.getAll_mapValues_ne f hc.symm)

theorem ne_of_not_mem_special (h : n ∉ [connection, upgrade, te]) :
    n ≠ connection ∧ n ≠ upgrade ∧ n ≠ te := by
  simpa [List.mem_cons, not_or] using h

theorem request_hidden (hn : n ∉ [connection, upgrade, te])
    (h : n ∈ hopByHopHeaders req.headers ∨ replacesHost policy n = true) :
    DoesNotCross (requestFields env policy uri req) req.headers n := by
  obtain ⟨hc, hu, hte⟩ := ne_of_not_mem_special hn
  intro f out out' ho ho'
  rw [requestFields_eq_some ho, requestFields_eq_some ho']
  refine (getAll_sentHeaders_congr hc hu ?_ fun hh => ?_).symm
  · show (copyClientHeaders req.headers policy).getAll n =
      (copyClientHeaders (req.headers.mapValues n f) policy).getAll n
    rw [getAll_copyClientHeaders, getAll_copyClientHeaders, if_pos h.symm,
      if_pos (h.symm.imp id (mem_hopByHopHeaders_mapValues hc hte).2)]
  · have hget : (req.headers.mapValues n f).get host = req.headers.get host :=
      MultiMap.get_congr (MultiMap.getAll_mapValues_ne f (Ne.symm hh))
    rw [clientHost, clientHost, hget]

theorem request_shown (he : earlyReject policy req = none) (hn : n ∉ [connection, upgrade, te])
    (hmem : n ∉ hopByHopHeaders req.headers) (hr : replacesHost policy n = false)
    (hne : req.headers.getAll n ≠ []) :
    ¬ DoesNotCross (requestFields env policy uri req) req.headers n := by
  obtain ⟨hc, -, hte⟩ := ne_of_not_mem_special hn
  refine not_doesNotCross (requestFields_of_not_rejected he) hne fun v hv => ?_
  refine ⟨_, requestFields_of_not_rejected (earlyReject_probed hv he), ?_⟩
  have hmem' : n ∉ hopByHopHeaders (probed req.headers n v) := by
    rwa [probed, mem_hopByHopHeaders_mapValues hc hte]
  exact sentHeaders_extends hmem' hr
    (getAll_probed_ne_nil hne)

theorem request_direction (h : forwardStart env policy uri req = some (.sending s)) :
    Direction (requestFields env policy uri req) (replacesHost policy) req.headers s.forwardReq.headers
      s.upgrading := by
  obtain ⟨he, u, -, hs⟩ := forwardStart_sending h
  have hh := headers_of_sending h
  refine ⟨?_, fun n hn => ?_, ?_, replacesHost_of_ne (by decide), fun n hn => request_hidden hn,
    fun n hn => request_shown he hn⟩
  · rw [hh, hs]; exact getAll_sentHeaders_pair
  · obtain ⟨hstd, hte, hc, hu⟩ := (by decide : ∀ m ∈ [keepAlive, proxyConnection,
      transferEncoding, trailer], m ∈ HOP_BY_HOP_HEADERS ∧ m ≠ te ∧ m ≠ connection ∧ m ≠ upgrade) n hn
    rw [hh, getAll_sentHeaders_of_unmanaged (not_mem_managedFields_of_standard hstd) hc hu,
      getAll_copy_of_standard hstd hte]
  · rw [hh, getAll_sentHeaders_te, getAll_copyClientHeaders]
    simp [replacesHost_of_ne (show te ≠ host by decide)]

/-! ### Responses -/

def responseFields (policy : ProxyPolicy) (res : Response) (headers : HeaderMap) : Option HeaderMap :=
  some (relay policy { res with headers := headers }).headers

theorem relay_eq : (relay policy res).headers = policy.appendVia
    (if res.status = .switchingProtocols then upgradeHeaders (stripHopByHopResponseHeaders res.headers)
      else stripHopByHopResponseHeaders res.headers) res.version := rfl

theorem getAll_relayPair_ne (hc : n ≠ connection) (hu : n ≠ upgrade) :
    (if res.status = .switchingProtocols then upgradeHeaders headers else headers).getAll n =
      headers.getAll n := by
  split
  · exact getAll_upgradeHeaders_ne hc hu
  · rfl

theorem response_hidden (hn : n ∉ [connection, upgrade, te]) (h : n ∈ hopByHopHeaders res.headers) :
    DoesNotCross (responseFields policy res) res.headers n := by
  obtain ⟨hc, hu, hte⟩ := ne_of_not_mem_special hn
  intro f out out' ho ho'
  cases ho
  cases ho'
  rw [relay_eq, relay_eq]
  refine getAll_policyVia_any ?_
  simp only [getAll_relayPair_ne hc hu, getAll_stripHopByHopResponseHeaders]
  rw [if_pos h, if_pos ((mem_hopByHopHeaders_mapValues hc hte).2 h)]

theorem response_shown (hn : n ∉ [connection, upgrade, te]) (hmem : n ∉ hopByHopHeaders res.headers)
    (hne : res.headers.getAll n ≠ []) : ¬ DoesNotCross (responseFields policy res) res.headers n := by
  obtain ⟨hc, hu, hte⟩ := ne_of_not_mem_special hn
  refine not_doesNotCross rfl hne fun v _ => ⟨_, rfl, ?_⟩
  have hstrip : (if res.status = .switchingProtocols
      then upgradeHeaders (stripHopByHopResponseHeaders (probed res.headers n v))
      else stripHopByHopResponseHeaders (probed res.headers n v)).getAll n =
        (probed res.headers n v).getAll n := by
    rw [getAll_relayPair_ne hc hu, getAll_stripHopByHopResponseHeaders, if_neg]
    rwa [probed, mem_hopByHopHeaders_mapValues hc hte]
  rw [relay_eq]
  by_cases hv : n = via
  · subst hv
    exact policyVia_extends.congr hstrip
  · rw [getAll_policyVia_ne hv]
    exact .inl hstrip

theorem response_direction (policy : ProxyPolicy) (res : Response) :
    Direction (responseFields policy res) (fun _ => false) res.headers (relay policy res).headers
      (res.status = .switchingProtocols) := by
  refine ⟨by simpa using getAll_relay_pair, fun n hn => ?_, ?_, rfl, fun n hn h => ?_,
    fun n hn h _ => response_shown hn h⟩
  · obtain ⟨hstd, hte, hc, hu, hv⟩ := (by decide : ∀ m ∈ [keepAlive, proxyConnection,
      transferEncoding, trailer],
      m ∈ HOP_BY_HOP_HEADERS ∧ m ≠ te ∧ m ≠ connection ∧ m ≠ upgrade ∧ m ≠ via) n hn
    rw [getAll_relay_ne hc hu fun _ => hv, getAll_stripHopByHopResponseHeaders, if_pos]
    exact mem_hopByHopHeaders.2 (.inl ⟨hstd, fun hc => hte hc.1⟩)
  · rw [getAll_relay_ne (by decide) (by decide) fun _ => by decide, getAll_stripHopByHopResponseHeaders]
  · exact response_hidden hn (h.resolve_right Bool.false_ne_true)

/-- No hop-by-hop field crosses the proxy exactly when `TE` is kept with `trailers` only and what
`Connection` nominates is nominated by readable lines; a replaced `Host` aside, in requests. -/
theorem hop_by_hop_free_iff (env : Platform) (policy : ProxyPolicy) (uri : Uri) (req : Request)
    (res : Response) :
    (∀ s, forwardStart env policy uri req = some (.sending s) →
      (HopByHopFree (requestFields env policy uri req) req.headers s.forwardReq.headers s.upgrading ↔
        ReadablyMarked req.headers (replacesHost policy))) ∧
    (HopByHopFree (responseFields policy res) res.headers (relay policy res).headers
        (res.status = .switchingProtocols) ↔
      ReadablyMarked res.headers fun _ => false) :=
  ⟨fun _ h => (request_direction h).hopByHopFree_iff, (response_direction policy res).hopByHopFree_iff⟩

def getWith (headers : HeaderMap) : Request := { Request.new (.fromBytes []) with headers := headers }

/-- `x-key` is nominated, and sent, in both directions. -/
theorem hop_by_hop_free_iff_key :
    let headers : HeaderMap := ⟨[(te, .fromStatic "trailers"), (connection, .fromStatic "x-key"),
      (.fromStatic "x-key", .fromStatic "1")]⟩
    let env : Platform := ⟨64, fun _ => []⟩
    let uri : Uri := .origin ⟨['/']⟩
    let res := { Response.new (.fromStr "") with headers }
    (∃ s, forwardStart env {} uri (getWith headers) = some (.sending s) ∧
      HopByHopFree (requestFields env {} uri (getWith headers)) headers s.forwardReq.headers s.upgrading) ∧
    HopByHopFree (responseFields {} res) headers (relay {} res).headers
      (res.status = .switchingProtocols) := by
  intro headers env uri res
  have hmarked : ∀ exempt, ReadablyMarked headers exempt := by
    refine fun exempt => ⟨fun _ _ => by decide, fun n hnom _ => .inl ?_⟩
    obtain ⟨v, hv, e, he, hn⟩ := hnom
    obtain rfl : v = .fromStatic "x-key" := List.mem_singleton.1 hv
    obtain rfl : e = "x-key".toList := List.mem_singleton.1 he
    exact ⟨"x-key".toList, by decide, "x-key".toList, by decide, hn⟩
  obtain ⟨s, hs⟩ := @forwardStart_of_not_rejected env {} uri (getWith headers) rfl
  obtain ⟨hreq, hres⟩ := hop_by_hop_free_iff env {} uri (getWith headers) res
  exact ⟨⟨s, hs, (hreq s hs).2 (hmarked _)⟩, hres.2 (hmarked _)⟩

/-- A second `TE` line crosses with its value, and so does a field named in an unreadable line. -/
theorem hop_by_hop_fields_cross :
    (∃ s, forwardStart ⟨64, fun _ => []⟩ {} (.origin ⟨['/']⟩)
        (getWith ⟨[(te, .fromStatic "trailers"), (te, .fromStatic "gzip")]⟩) = some (.sending s) ∧
      s.forwardReq.headers.getAll te = [.fromStatic "trailers", .fromStatic "gzip"]) ∧
    ∃ n s, Nominated ⟨[(connection, ⟨Str.asBytes "x-key,".toList ++ [0xE9], by decide⟩),
        (n, .fromStatic "1")]⟩ n ∧
      forwardStart ⟨64, fun _ => []⟩ {} (.origin ⟨['/']⟩)
        (getWith ⟨[(connection, ⟨Str.asBytes "x-key,".toList ++ [0xE9], by decide⟩),
          (n, .fromStatic "1")]⟩) = some (.sending s) ∧
      s.forwardReq.headers.getAll n = [.fromStatic "1"] := by
  obtain ⟨s, hs⟩ := @forwardStart_of_not_rejected ⟨64, fun _ => []⟩ {} (.origin ⟨['/']⟩)
    (getWith ⟨[(te, .fromStatic "trailers"), (te, .fromStatic "gzip")]⟩) rfl
  obtain ⟨s', hs'⟩ := @forwardStart_of_not_rejected ⟨64, fun _ => []⟩ {} (.origin ⟨['/']⟩)
    (getWith ⟨[(connection, ⟨Str.asBytes "x-key,".toList ++ [0xE9], by decide⟩),
      (.fromStatic "x-key", .fromStatic "1")]⟩) rfl
  refine ⟨⟨s, hs, ?_⟩, .fromStatic "x-key", s', by decide, hs', ?_⟩
  · rw [headers_of_sending hs, getAll_sentHeaders_te]
    decide
  · rw [headers_of_sending hs', getAll_sentHeaders_of_unmanaged (by decide) (by decide) (by decide)]
    decide

end AxumReverseProxy
