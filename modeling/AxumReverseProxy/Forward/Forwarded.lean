import AxumReverseProxy.Forward.Sent
import AxumReverseProxy.Http.ForwardedField

/-!
# The element this proxy adds to `Forwarded`

What a recipient reads in the outgoing field (`Forwarded.elements`) against what it would have read
in the client's. The proxy writes its element by pasting the client's host between quotes, and puts
it behind the lines it copied; `forwarded_kept_iff` says for which requests the recipient reads the
client's elements and the proxy's own one.
-/

namespace AxumReverseProxy

open HeaderName Forwarded

/-! ### The proxy's element -/

def IpAddr.node : IpAddr → Str
  | .V4 ip => ip.display
  | .V6 ip => '[' :: ip.display ++ [']']

/-- The pairs of the proxy's element. -/
def ownPairs (ip : IpAddr) (host scheme : Option Str) : List Str :=
  forPair ip :: (host.toList.map (quotedPair "host".toList) ++
    scheme.toList.map fun s => "proto".toList ++ '=' :: s)

/-- What is known only to the first proxy of a chain. -/
def onFirst (existing : List Str) (value : Option Str) : Option Str := if existing = [] then value else none

variable {client headers : HeaderMap} {policy : ProxyPolicy} {addr : SocketAddr} {auth : Option Authority}
  {ip : IpAddr} {h s : Option Str} {es : List ForwardedElement} {v : HeaderValue}

theorem appendForwardedHeader_eq :
    appendForwardedHeader headers addr h s =
      appendElement headers forwarded ([';'].intercalate
        (ownPairs addr.ip (onFirst (headers.readable forwarded) h)
          (onFirst (headers.readable forwarded) s))) := by
  unfold appendForwardedHeader onFirst
  simp only
  congr 1
  split
  · cases h with
    | none => cases s <;> simp [ownPairs]
    | some h => cases s <;> simp [ownPairs, quotedPair, List.intercalate_cons_cons]
  · simp [ownPairs]

theorem Ipv4Addr.isToken_display (ip : Ipv4Addr) : ip.display.IsToken := by
  refine ⟨?_, fun c hc => ?_⟩
  · obtain ⟨a, b, c, d⟩ := ip
    simp [display, Str.join, List.intercalate_cons_cons]
  · rcases ip.isDigit_display c hc with h | rfl
    · simp [isTchar, Char.isAlphanum, h]
    · decide

theorem forPair_isPairText (ip : IpAddr) :
    IsPairText (forPair ip) ∧ parsePair (forPair ip) = some ("for".toList, ip.node) := by
  have hfor : Str.IsToken "for".toList := by decide
  cases ip with
  | V4 ip => exact ⟨isPairText_token hfor ip.isToken_display, parsePair_token hfor ip.isToken_display⟩
  | V6 ip =>
    have hmem : ∀ c, isIpChar c = false → c ≠ '[' → c ≠ ']' → c ∉ '[' :: ip.display ++ [']'] := by
      intro c hc h1 h2 h
      have := (IpAddr.V6 ip).not_mem_display hc
      simp_all [IpAddr.display]
    have heq : forPair (.V6 ip) = quotedPair "for".toList ('[' :: ip.display ++ [']']) := by
      simp [forPair, quotedPair]
    rw [heq]
    exact ⟨isPairText_quoted hfor (hmem _ (by decide) (by decide) (by decide))
      (hmem _ (by decide) (by decide) (by decide)),
      parsePair_quoted hfor (hmem _ (by decide) (by decide) (by decide))
        (hmem _ (by decide) (by decide) (by decide))⟩

theorem parse_ownPairs (hh : ∀ t ∈ h, '\"' ∉ t ∧ '\\' ∉ t) (hs : ∀ t ∈ s, t.IsToken) :
    parse ([';'].intercalate (ownPairs ip h s)) =
      some [("for".toList, ip.node) ::
        (h.toList.map ("host".toList, ·) ++ s.toList.map ("proto".toList, ·))] := by
  have hhost : Str.IsToken "host".toList := by decide
  have hproto : Str.IsToken "proto".toList := by decide
  rw [parse_pairs]
  · have h1 := (forPair_isPairText ip).2
    have h2 : (h.toList.map (quotedPair "host".toList)).mapM parsePair =
      some (h.toList.map ("host".toList, ·)) := by
      cases h with
      | none => rfl
      | some t =>
        have := parsePair_quoted hhost (hh t rfl).1 (hh t rfl).2
        simp only [Option.toList_some, List.map_singleton, List.mapM_cons, this]; rfl
    have h3 : (s.toList.map fun s => "proto".toList ++ '=' :: s).mapM parsePair =
        some (s.toList.map ("proto".toList, ·)) := by
      cases s with
      | none => rfl
      | some t =>
        have := parsePair_token hproto (hs t rfl)
        simp only [Option.toList_some, List.map_singleton, List.mapM_cons, this]; rfl
    rw [ownPairs, List.mapM_cons, List.mapM_append, h1, h2, h3]; rfl
  · intro t ht
    rcases List.mem_cons.1 ht with rfl | ht
    · exact (forPair_isPairText ip).1
    rcases List.mem_append.1 ht with ht | ht
    · obtain ⟨u, hu, rfl⟩ := List.mem_map.1 ht
      have := hh u (Option.mem_toList.1 hu)
      exact isPairText_quoted hhost this.1 this.2
    · obtain ⟨u, hu, rfl⟩ := List.mem_map.1 ht
      exact isPairText_token hproto (hs u (Option.mem_toList.1 hu))
  · simp [ownPairs]

/-! ### The outgoing field -/

theorem ownPairs_visible (ip : IpAddr) (hh : ∀ t ∈ h, t.Visible) (hs : ∀ t ∈ s, t.IsToken) :
    Str.Visible ([';'].intercalate (ownPairs ip h s)) := by
  refine @Str.Visible.join (ownPairs ip h s) [';'] (fun t ht => ?_) (by decide)
  rcases List.mem_cons.1 ht with rfl | ht
  · cases ip with
    | V4 ip => exact .append (by decide) (IpAddr.V4 ip).display_visible
    | V6 ip => exact .append (.append (by decide) (IpAddr.V6 ip).display_visible) (by decide)
  rcases List.mem_append.1 ht with ht | ht
  · obtain ⟨u, hu, rfl⟩ := List.mem_map.1 ht
    exact .append (by decide) (.cons (by decide)
      (.append (.cons (by decide) (hh u (Option.mem_toList.1 hu))) (by decide)))
  · obtain ⟨u, hu, rfl⟩ := List.mem_map.1 ht
    exact .append (by decide) (.cons (by decide) (hs u (Option.mem_toList.1 hu)).visible)

theorem clientHost_visible : ∀ t ∈ clientHost client (auth.map (·.str)), t.Visible := by
  intro t ht
  rw [clientHost, Option.mem_def, Option.or_eq_some_iff] at ht
  rcases ht with ht | ⟨-, ht⟩
  · obtain ⟨v, -, hv⟩ := Option.bind_eq_some_iff.1 ht
    exact HeaderValue.toStr_visible hv
  · obtain ⟨a, -, rfl⟩ := Option.map_eq_some_iff.1 ht
    exact a.visible

theorem readable_copy_forwarded :
    (copyClientHeaders client policy).readable forwarded =
      if NominatedReadably client forwarded then [] else client.readable forwarded := by
  have hstrip : forwarded ∈ hopByHopHeaders client ↔ NominatedReadably client forwarded := by
    rw [mem_hopByHopHeaders]
    exact or_iff_right fun h => absurd h.1 (by decide)
  split
  · next hn => exact HeaderMap.readable_of_getAll_nil (getAll_copyClientHeaders_of_mem (hstrip.2 hn))
  · next hn =>
    exact HeaderMap.readable_congr
      (getAll_copyClientHeaders_of_not_mem (fun h => hn (hstrip.1 h)) (replacesHost_of_ne (by decide)))

def outgoingForwarded (client : HeaderMap) (auth : Option Authority) (ip : IpAddr)
    (scheme : Option Str) : Str :=
  let existing := if NominatedReadably client forwarded then [] else client.readable forwarded
  joinElement existing ([';'].intercalate
    (ownPairs ip (onFirst existing (clientHost client (auth.map (·.str)))) (onFirst existing scheme)))

theorem mem_onFirst {existing : List Str} {t : Str} (ht : t ∈ onFirst existing s) : t ∈ s := by
  unfold onFirst at ht
  split at ht
  · exact ht
  · cases ht

theorem outgoingForwarded_visible (hs : ∀ t ∈ s, t.IsToken) :
    (outgoingForwarded client auth ip s).Visible := by
  refine joinElement_visible (fun t ht => ?_)
    (ownPairs_visible ip (fun t ht => clientHost_visible t (mem_onFirst ht)) fun t ht => hs t
      (mem_onFirst ht))
  split at ht
  · cases ht
  · exact HeaderMap.readable_visible ht

theorem getAll_forwarded_build (ha : policy.xForwardedFor = .append)
    (hs : ∀ t ∈ policy.publicScheme, t.IsToken) :
    (buildForwardHeaders client (some addr) (auth.map (·.str)) policy).getAll forwarded =
      [.ofVisible (outgoingForwarded client auth addr.ip policy.publicScheme)
        (outgoingForwarded_visible hs)] := by
  have hread : (appendElement (keepHost (copyClientHeaders client policy) (auth.map (·.str)) policy)
      xForwardedFor addr.ip.display).readable forwarded =
        if NominatedReadably client forwarded then [] else client.readable forwarded :=
    (HeaderMap.readable_congr ((getAll_appendElement_ne (by decide)).trans
      (getAll_keepHost_ne (by decide)))).trans
      readable_copy_forwarded
  have hvis : Str.Visible ([';'].intercalate (ownPairs addr.ip
      (onFirst (if NominatedReadably client forwarded then [] else client.readable forwarded)
        (clientHost client (auth.map (·.str))))
      (onFirst (if NominatedReadably client forwarded then [] else client.readable forwarded)
        policy.publicScheme))) :=
    ownPairs_visible addr.ip (fun t ht => clientHost_visible t (mem_onFirst ht)) fun t ht => hs t
      (mem_onFirst ht)
  simp only [buildForwardHeaders, if_pos ha, appendClient]
  rw [getAll_insertIfAbsent_ne (by decide), getAll_insertIfAbsent_ne (by decide), appendForwardedHeader_eq,
    hread, getAll_appendElement_self hvis]
  simp only [hread]
  rfl

theorem elements_of_line (h : headers.getAll forwarded = [v]) : elements headers = parse v.latin1 := by
  rw [elements, h]
  simp [Str.join]

theorem elements_build (policy : ProxyPolicy) (ha : policy.xForwardedFor = .append)
    (hs : ∀ t ∈ policy.publicScheme, t.IsToken) :
    elements (buildForwardHeaders client (some addr) (auth.map (·.str)) policy) =
      parse (outgoingForwarded client auth addr.ip policy.publicScheme) := by
  rw [elements_of_line (getAll_forwarded_build ha hs), HeaderValue.latin1_ofVisible]

theorem elements_build_scheme (ha : policy.xForwardedFor = .append) (hs : ∀ t ∈ s, t.IsToken) :
    elements (buildForwardHeaders client (some addr) (auth.map (·.str)) { policy with publicScheme := s }) =
      parse (outgoingForwarded client auth addr.ip s) :=
  elements_build { policy with publicScheme := s } ha hs

theorem getAll_forwarded_sentHeaders {uri : Uri} {up : Bool} {req : Request} :
    (sentHeaders policy uri up req).getAll forwarded = (buildForwardHeaders req.headers
      req.extensions.connectInfo (req.uri.authority?.map (·.str)) policy).getAll forwarded := by
  rw [sentHeaders, getAll_withHost_ne (by decide), forwardHeaders,
    getAll_upgrading_ne (by decide) (by decide), getAll_policyVia_ne (by decide)]

theorem elements_sentHeaders {uri : Uri} {up : Bool} {req : Request} :
    elements (sentHeaders policy uri up req) = elements (buildForwardHeaders req.headers
      req.extensions.connectInfo (req.uri.authority?.map (·.str)) policy) := by
  rw [elements, elements, getAll_forwarded_sentHeaders]

/-! ### When the client's elements are kept -/

def hostValue (client : HeaderMap) (auth : Option Authority) : Option Str :=
  ((client.get host).map HeaderValue.latin1).or (auth.map (·.str))

/-- Whatever the address and the scheme, a recipient reads the elements `es` and one more, which has
the address and, when it is the first, the host and the scheme. -/
def ForwardedKept (client : HeaderMap) (auth : Option Authority) (policy : ProxyPolicy)
    (es : List ForwardedElement) : Prop :=
  ∀ (addr : SocketAddr) (scheme : Option Str), (∀ t ∈ scheme, t.IsToken) →
    ∃ new, elements (buildForwardHeaders client (some addr) (auth.map (·.str))
        { policy with publicScheme := scheme }) = some (es ++ [new]) ∧
      new.values "for" = [addr.ip.node] ∧
      (es = [] → new.values "host" = (hostValue client auth).toList ∧ new.values "proto" = scheme.toList)

/-- A host that can stand between quotes as it is. -/
def IsPlainHost (v : HeaderValue) : Prop := v.Readable ∧ '\"' ∉ v.latin1 ∧ '\\' ∉ v.latin1

/-- Without `Forwarded` lines the host must be plain; the lines there are must be readable and not
nominated for removal. -/
def ForwardedSound (client : HeaderMap) : Prop :=
  if client.getAll forwarded = [] then ∀ v ∈ client.get host, IsPlainHost v
  else (∀ v ∈ client.getAll forwarded, v.Readable) ∧ ¬ NominatedReadably client forwarded

theorem elements_of_nil (hn : client.getAll forwarded = []) : elements client = some [] := by
  rw [elements, hn]; rfl

theorem elements_of_ne_nil (hn : client.getAll forwarded ≠ []) :
    elements client = parse (Str.join ((client.getAll forwarded).map HeaderValue.latin1) ", ".toList) :=
  if_neg (by simpa using hn)

theorem outgoingForwarded_first (h : NominatedReadably client forwarded ∨ client.readable forwarded = []) :
    outgoingForwarded client auth ip s =
      [';'].intercalate (ownPairs ip (clientHost client (auth.map (·.str))) s) := by
  have he : (if NominatedReadably client forwarded then [] else client.readable forwarded) = [] := by
    rcases h with h | h
    · exact if_pos h
    · rw [h, ite_self]
  rw [outgoingForwarded, he]; rfl

theorem values_own {t : Str} :
    let new : ForwardedElement :=
      ("for".toList, t) :: (h.toList.map ("host".toList, ·) ++ s.toList.map ("proto".toList, ·))
    new.values "for" = [t] ∧ new.values "host" = h.toList ∧ new.values "proto" = s.toList := by
  cases h <;> cases s <;> exact ⟨rfl, rfl, rfl⟩

theorem Authority.not_mem {a : Authority} {c : Char} (hc : isUriChar c = false) : c ∉ a.str := by
  intro h
  rw [List.all_eq_true.1 a.valid c h] at hc; cases hc

theorem clientHost_eq (hp : ∀ v ∈ client.get host, IsPlainHost v) :
    clientHost client (auth.map (·.str)) = hostValue client auth ∧
      ∀ t ∈ hostValue client auth, '\"' ∉ t ∧ '\\' ∉ t := by
  unfold clientHost hostValue
  cases hv : client.get host with
  | none =>
    refine ⟨rfl, fun t ht => ?_⟩
    obtain ⟨a, -, rfl⟩ := Option.map_eq_some_iff.1 ht
    exact ⟨a.not_mem (by decide), a.not_mem (by decide)⟩
  | some v =>
    obtain ⟨hr, hq, he⟩ := hp v hv
    refine ⟨by rw [Option.bind_some, HeaderValue.toStr_of_readable hr]; rfl, fun t ht => ?_⟩
    obtain rfl : v.latin1 = t := Option.some.inj ht
    exact ⟨hq, he⟩

theorem forwardedKept_first (ha : policy.xForwardedFor = .append) (hn : client.getAll forwarded = [])
    (hp : ∀ v ∈ client.get host, IsPlainHost v) : ForwardedKept client auth policy [] := by
  intro addr scheme hs
  obtain ⟨hhost, hmem⟩ := @clientHost_eq client auth hp
  refine ⟨_, ?_, values_own.1, fun _ => values_own.2⟩
  rw [elements_build_scheme ha hs, outgoingForwarded_first (.inr (HeaderMap.readable_of_getAll_nil hn)),
    hhost, parse_ownPairs hmem hs]
  rfl

theorem forwardedKept_append (ha : policy.xForwardedFor = .append) (hn : client.getAll forwarded ≠ [])
    (hr : ∀ v ∈ client.getAll forwarded, v.Readable) (hnom : ¬ NominatedReadably client forwarded)
    (hes : elements client = some es) : ForwardedKept client auth policy es := by
  intro addr scheme hs
  rw [elements_of_ne_nil hn, HeaderMap.map_latin1_eq_readable hr] at hes
  have hex : client.readable forwarded ≠ [] := by
    rw [← HeaderMap.map_latin1_eq_readable hr]; simpa using hn
  have hout : outgoingForwarded client auth addr.ip scheme =
      Str.join (client.readable forwarded) ", ".toList ++ ", ".toList ++
        [';'].intercalate (ownPairs addr.ip none none) := by
    simp only [outgoingForwarded, if_neg hnom, onFirst, if_neg hex, joinElement]
  refine ⟨_, ?_, (@values_own none none _).1, fun h => absurd h (ne_nil_of_parse hes)⟩
  rw [elements_build_scheme ha hs, hout]
  exact parse_append hes (parse_ownPairs (by simp) (by simp))

/-! ### Otherwise they are not -/

theorem intercalate_ownPairs : ∃ rest : Str, [';'].intercalate (ownPairs ip h s) = forPair ip ++ rest ∧
    ∀ c ∈ rest.head?, c = ';' := by
  rw [ownPairs]
  cases h.toList.map (quotedPair "host".toList) ++ s.toList.map fun s => "proto".toList ++ '=' :: s with
  | nil => exact ⟨[], by simp, by simp⟩
  | cons p ps =>
    refine ⟨';' :: [';'].intercalate (p :: ps), ?_, by simp⟩
    rw [List.intercalate_cons_cons, List.append_assoc]; rfl

theorem not_nominated_of_forwardedKept (ha : policy.xForwardedFor = .append) (hne : es ≠ [])
    (hk : ForwardedKept client auth policy es) : ¬ NominatedReadably client forwarded := by
  intro hnom
  have key (ip : IpAddr) : es.head?.bind List.head? = some ("for".toList, ip.node) := by
    obtain ⟨new, hnew, -⟩ := hk ⟨ip, 0⟩ none (by simp)
    obtain ⟨rest, hrest, hsemi⟩ := @intercalate_ownPairs ip (clientHost client (auth.map (·.str))) none
    rw [elements_build_scheme ha (by simp), outgoingForwarded_first (.inl hnom), hrest] at hnew
    obtain ⟨hpt, hpp⟩ := forPair_isPairText ip
    have hhead := head_of_parse hpt hpp hsemi hnew
    rwa [List.head?_append_of_ne_nil _ hne] at hhead
  have h1 := key (.V4 ⟨(1, 0, 0, 0)⟩)
  rw [key (.V4 ⟨(2, 0, 0, 0)⟩)] at h1
  exact absurd h1 (by decide)

theorem exists_not_visible (hv : ¬ v.Readable) : ∃ c ∈ v.latin1, Str.isVisibleAscii c = false := by
  by_contra hno
  refine hv (HeaderValue.visible_latin1_iff.1 fun c hc => ?_)
  by_contra hcv
  exact hno ⟨c, hc, by simpa using hcv⟩

theorem readable_of_forwardedKept (ha : policy.xForwardedFor = .append) (hes : elements client = some es)
    (hk : ForwardedKept client auth policy es) (hv : v ∈ client.getAll forwarded) : v.Readable := by
  by_contra hr
  obtain ⟨c, hc, hcv⟩ := exists_not_visible hr
  rw [elements_of_ne_nil (List.ne_nil_of_mem hv)] at hes
  have hmem := Str.mem_join ", ".toList (List.mem_map_of_mem hv) hc
  obtain ⟨e, he, p, hp, hcp⟩ := exists_mem_of_parse hes hmem hcv
  obtain ⟨new, hnew, -⟩ := hk ⟨.V4 ⟨(1, 0, 0, 0)⟩, 0⟩ none (by simp)
  rw [elements_build_scheme ha (by simp)] at hnew
  have hout := outgoingForwarded_visible (by simp) c (mem_of_parse hnew (List.mem_append_left _ he) hp hcp)
  rw [hout] at hcv; cases hcv

theorem isPlainHost_of_forwardedKept (ha : policy.xForwardedFor = .append)
    (hn : client.getAll forwarded = [])
    (hk : ForwardedKept client auth policy []) (hv : client.get host = some v) : IsPlainHost v := by
  obtain ⟨new, hnew, -, hfirst⟩ := hk ⟨.V4 ⟨(1, 0, 0, 0)⟩, 0⟩ none (by simp)
  have hhost : (hostValue client auth).toList = [v.latin1] := by rw [hostValue, hv]; rfl
  rw [elements_build_scheme ha (by simp), List.nil_append] at hnew
  obtain ⟨p, hp, hpv⟩ : ∃ p ∈ new, p.1.eqIgnoreAsciiCase "host".toList = true ∧ p.2 = v.latin1 := by
    have h1 := (hfirst rfl).1.trans hhost
    have : v.latin1 ∈ new.values "host" := by rw [h1]; simp
    obtain ⟨p, hp, hpv⟩ := List.mem_map.1 this
    exact ⟨p, (List.mem_filter.1 hp).1, (List.mem_filter.1 hp).2, hpv⟩
  have hr : v.Readable := by
    by_contra hr
    obtain ⟨c, hc, hcv⟩ := exists_not_visible hr
    have hout := outgoingForwarded_visible (by simp) c
      (mem_of_parse hnew (List.mem_singleton_self new) hp (hpv.2 ▸ hc))
    rw [hout] at hcv; cases hcv
  have hch : clientHost client (auth.map (·.str)) = some v.latin1 := by
    rw [clientHost, hv, Option.bind_some, HeaderValue.toStr_of_readable hr]; rfl
  rw [outgoingForwarded_first (.inr (HeaderMap.readable_of_getAll_nil hn)), hch] at hnew
  obtain ⟨hpt, hpp⟩ := forPair_isPairText (.V4 ⟨(1, 0, 0, 0)⟩)
  have hown : [';'].intercalate (ownPairs (.V4 ⟨(1, 0, 0, 0)⟩) (some v.latin1) none) =
      forPair (.V4 ⟨(1, 0, 0, 0)⟩) ++ ';' :: quotedPair "host".toList v.latin1 := by
    simp [ownPairs, List.intercalate_cons_cons]
  rw [hown] at hnew
  exact ⟨hr, not_mem_of_parse_quoted hpt hpp hnew hp (by rintro rfl; exact absurd hpv.1 (by decide)) hpv.1
    hpv.2⟩

/-- The recipient reads the client's elements and the proxy's own one behind them exactly when the
host of a request without `Forwarded` lines is plain, and `Forwarded` lines are readable and not
nominated for removal. -/
theorem forwarded_kept_iff (client : HeaderMap) (auth : Option Authority) (policy : ProxyPolicy)
    (es : List ForwardedElement) (ha : policy.xForwardedFor = .append) (hes : elements client = some es) :
    ForwardedKept client auth policy es ↔ ForwardedSound client := by
  unfold ForwardedSound
  by_cases hn : client.getAll forwarded = []
  · rw [if_pos hn]
    obtain rfl : [] = es := Option.some.inj ((elements_of_nil hn).symm.trans hes)
    exact ⟨fun hk v hv => isPlainHost_of_forwardedKept ha hn hk hv, forwardedKept_first ha hn⟩
  · rw [if_neg hn]
    have hne : es ≠ [] := ne_nil_of_parse ((elements_of_ne_nil hn).symm.trans hes)
    constructor
    · intro hk
      exact ⟨fun v hv => readable_of_forwardedKept ha hes hk hv, not_nominated_of_forwardedKept ha hne hk⟩
    · rintro ⟨hr, hnom⟩
      exact forwardedKept_append ha hn hr hnom hes

def chainedClient : HeaderMap :=
  ⟨[(host, .fromStatic "example.com"), (forwarded, .fromStatic "for=10.0.0.1;host=\"a,b;c\"")]⟩

theorem forwarded_kept_iff_chained :
    ForwardedKept chainedClient none {}
      [[("for".toList, "10.0.0.1".toList), ("host".toList, "a,b;c".toList)]] ↔
        ForwardedSound chainedClient :=
  forwarded_kept_iff chainedClient none {} _ rfl (by decide)

def forgingClient : HeaderMap := ⟨[(host, .fromStatic "a\",for=6.6.6.6;host=\"x")]⟩

theorem forwarded_last_element_forged :
    elements forgingClient = some [] ∧
      elements (buildForwardHeaders forgingClient (some ⟨.V4 ⟨(1, 2, 3, 4)⟩, 0⟩) none {}) =
        some [[("for".toList, "1.2.3.4".toList), ("host".toList, "a".toList)],
          [("for".toList, "6.6.6.6".toList), ("host".toList, "x".toList)]] ∧
      ¬ ForwardedKept forgingClient none {} [] := by
  refine ⟨by decide, ?_, fun hk => ?_⟩
  · exact (@elements_build forgingClient ⟨.V4 ⟨(1, 2, 3, 4)⟩, 0⟩ none {} rfl (by simp)).trans (by decide)
  · exact absurd (isPlainHost_of_forwardedKept rfl (by decide) hk rfl).2.1 (by decide)

end AxumReverseProxy
