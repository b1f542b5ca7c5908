import AxumReverseProxy.Dns.Discovery

/-!
# Discovered addresses as targets

A service URL has the address printed in front of the port, an IPv6 address without brackets.
-/

namespace AxumReverseProxy

namespace UriLib

/-- The reader accepts an `http` or `https` URI of a host name and a port. -/
def AcceptsHostPort (lib : UriLib) : Prop :=
  ∀ scheme ∈ [Scheme.http, Scheme.https], ∀ (host : Str) (port : UInt16), host ≠ [] →
    (∀ c ∈ host, c.isAlphanum = true ∨ c = '.' ∨ c = '-') →
    (lib.parse (scheme.str ++ "://".toList ++ (host ++ ':' :: Nat.toDigits 10 port.toNat))).isSome

/-- The reader rejects an authority with more than one colon and none of the signs that would make
it a userinfo or an address in brackets. -/
def RejectsColons (lib : UriLib) : Prop :=
  ∀ scheme ∈ [Scheme.http, Scheme.https], ∀ rest : Str, '@' ∉ authorityText rest →
    '[' ∉ authorityText rest →
    1 < (authorityText rest).count ':' → lib.parse (scheme.str ++ "://".toList ++ rest) = none

variable {scheme : Scheme}

theorem isSchemeChar_of_http (hs : scheme ∈ [Scheme.http, Scheme.https]) :
    scheme.str ≠ [] ∧ scheme.str.all isSchemeChar = true := by
  simp only [List.mem_cons, List.not_mem_nil, or_false] at hs
  rcases hs with rfl | rfl <;> decide

theorem plain_parse_http (hs : scheme ∈ [Scheme.http, Scheme.https]) (rest : Str) :
    plain.parse (scheme.str ++ "://".toList ++ rest) =
      (plain.parseAuthority (authorityText rest)).bind fun authority =>
        (plain.parsePathAndQuery (rest.dropWhile fun c => !endsAuthority c)).bind fun pathAndQuery =>
          some (.absolute scheme authority pathAndQuery) := by
  simp only [List.mem_cons, List.not_mem_nil, or_false] at hs
  rcases hs with rfl | rfl <;> rfl

theorem plain_acceptsHostPort : plain.AcceptsHostPort := by
  intro scheme hs host port hne hhost
  have hport : ∀ c ∈ Nat.toDigits 10 port.toNat, c.isDigit = true :=
    fun c hc => Nat.isDigit_of_mem_toDigits (by decide) (by decide) hc
  generalize Nat.toDigits 10 port.toNat = digits at hport
  have halnum : ∀ c, c.isAlphanum = true → c ≠ ':' ∧ isUriChar c = true ∧ c ∉ "/?#[]@%".toList := by
    intro c hc
    refine ⟨?_, by rw [isUriChar, hc, Bool.true_or], fun hm => ?_⟩
    · rintro rfl; exact absurd hc (by decide)
    · rw [(by decide : ∀ c ∈ "/?#[]@%".toList, c.isAlphanum = false) c hm] at hc; cases hc
  have hhost' : ∀ c ∈ host, c ≠ ':' ∧ isUriChar c = true ∧ c ∉ "/?#[]@%".toList := by
    intro c hc
    rcases hhost c hc with h | rfl | rfl
    · exact halnum c h
    · decide
    · decide
  have hport' : ∀ c ∈ digits, c ≠ ':' ∧ isUriChar c = true ∧ c ∉ "/?#[]@%".toList :=
    fun c hc => halnum c (by rw [Char.isAlphanum, hport c hc, Bool.or_true])
  have hchar : ∀ c ∈ host ++ ':' :: digits, isUriChar c = true ∧ c ∉ "/?#[]@%".toList := by
    intro c hc
    rcases List.mem_append.1 hc with hc | hc
    · exact (hhost' c hc).2
    · rcases List.mem_cons.1 hc with rfl | hc
      · decide
      · exact (hport' c hc).2
  have hends : ∀ c ∈ host ++ ':' :: digits, endsAuthority c = false := fun c hc => by
    have h := (hchar c hc).2
    simp only [endsAuthority, Bool.or_eq_false_iff, decide_eq_false_iff_not]
    refine ⟨⟨?_, ?_⟩, ?_⟩ <;> rintro rfl <;> exact h (by decide)
  have htext : authorityText (host ++ ':' :: digits) = host ++ ':' :: digits := by
    simpa using @authorityText_append _ [] hends (by simp)
  have hcount : (host ++ ':' :: digits).count ':' ≤ 1 := by
    rw [List.count_append, List.count_cons_self, List.count_eq_zero_of_not_mem fun h => (hhost' _ h).1 rfl,
      List.count_eq_zero_of_not_mem fun h => (hport' _ h).1 rfl]
  have hauth : plain.IsAuthority (host ++ ':' :: digits) :=
    ⟨by simp, List.all_eq_true.2 fun c hc => (hchar c hc).1, fun c hc hm => (hchar c hm).2 hc, hcount⟩
  show (plain.parse _).isSome
  have hdrop : (host ++ ':' :: digits).dropWhile (fun c => !endsAuthority c) = [] :=
    List.dropWhile_eq_nil_iff.2 fun c hc => by rw [hends c hc]; rfl
  have hpa : plain.parseAuthority (host ++ ':' :: digits) = some ⟨_, hauth.2.1⟩ := dif_pos hauth
  rw [plain_parse_http hs, htext, hpa, hdrop]
  rfl

theorem plain_rejectsColons : plain.RejectsColons := by
  intro scheme hs rest hat hbracket hcount
  have h : plain.parseAuthority (authorityText rest) = none :=
    dif_neg fun h => absurd h.2.2.2 (Nat.not_le.2 hcount)
  show plain.parse _ = none
  rw [plain_parse_http hs, h]
  rfl

end UriLib

/-- A change that one of the two discoverers can send for an address. -/
def DnsDiscoveryConfig.Announces (cfg : DnsDiscoveryConfig) (ip : IpAddr) (url : Str) : Prop :=
  (∃ rs d, DnsDiscovery.discoveryTask cfg rs = some d ∧ .insert ip url ∈ d.changes) ∨
    ∃ lookup, .ok (.insert ip url) ∈ staticDiscoveryTask cfg lookup

section

variable {lib : UriLib} {cfg : DnsDiscoveryConfig} {ip : IpAddr} {url path : Str}

theorem DnsDiscoveryConfig.Announces.url_eq (h : cfg.Announces ip url) : url = cfg.serviceUrl ip := by
  rcases h with ⟨rs, d, hd, hm⟩ | ⟨lookup, hm⟩
  · exact DnsDiscovery.url_of_insert hd ip url hm
  · cases lookup with
    | error e => exact absurd hm (by simp [staticDiscoveryTask])
    | ok ips =>
      obtain ⟨j, -, hj⟩ := List.mem_map.1 hm
      cases hj
      rfl

namespace DnsDiscoveryConfig

def schemeOf (cfg : DnsDiscoveryConfig) : Scheme := if cfg.useHttps then .https else .http

theorem schemeOf_mem : cfg.schemeOf ∈ [Scheme.http, Scheme.https] := by
  unfold schemeOf
  split <;> decide

theorem serviceUrl_eq : cfg.serviceUrl ip =
    cfg.schemeOf.str ++ "://".toList ++ (ip.display ++ ':' :: Nat.toDigits 10 cfg.port.toNat) := by
  rw [serviceUrl, List.append_assoc]
  congr 2
  unfold scheme schemeOf
  split <;> rfl

theorem isIpChar_hostPort (ip : IpAddr) (port : UInt16) :
    ∀ c ∈ ip.display ++ ':' :: Nat.toDigits 10 port.toNat, isIpChar c = true := by
  intro c hc
  rcases List.mem_append.1 hc with hc | hc
  · exact ip.isIpChar_display c hc
  · rcases List.mem_cons.1 hc with rfl | hc
    · decide
    · exact isIpChar_toDigits (by decide) (by decide) _ c hc

theorem authorityText_hostPort (ip : IpAddr) (port : UInt16) :
    authorityText (ip.display ++ ':' :: Nat.toDigits 10 port.toNat) =
      ip.display ++ ':' :: Nat.toDigits 10 port.toNat := by
  have hends : ∀ c ∈ "0123456789abcdef.:".toList, endsAuthority c = false := by decide
  have h := @authorityText_append (ip.display ++ ':' :: Nat.toDigits 10 port.toNat) []
    (fun c hc => hends c (of_decide_eq_true (isIpChar_hostPort ip port c hc))) (by simp)
  rwa [List.append_nil] at h

end DnsDiscoveryConfig

theorem ReverseProxy.new_of_parse {target : Str} {u : Uri} {a : Authority} (hu : lib.parse target = some u)
    (ha : u.authority? = some a) : ∃ proxy, ReverseProxy.new lib path target = some proxy ∧
      proxy.authority = a.str := by
  simp [ReverseProxy.new, hu, ha]

theorem new_serviceUrl_v4 (hlib : lib.Lawful) (hport : lib.AcceptsHostPort) (ip : Ipv4Addr) :
    ∃ proxy, ReverseProxy.new lib path (cfg.serviceUrl (.V4 ip)) = some proxy ∧
      proxy.authority = SocketAddr.display ⟨.V4 ip, cfg.port⟩ := by
  obtain ⟨hne, hchars⟩ := UriLib.isSchemeChar_of_http cfg.schemeOf_mem
  have hsome := hport cfg.schemeOf cfg.schemeOf_mem ip.display cfg.port ip.display_ne_nil fun c hc => by
    rcases ip.isDigit_display c hc with h | h
    · exact .inl (by rw [Char.isAlphanum, h, Bool.or_true])
    · exact .inr (.inl h)
  obtain ⟨u, hu⟩ := Option.isSome_iff_exists.1 hsome
  obtain ⟨s, a, rfl, -, ha⟩ := hlib.parse_absolute hne hchars hu
  have htext := DnsDiscoveryConfig.authorityText_hostPort (.V4 ip) cfg.port
  rw [← IpAddr.display, ← DnsDiscoveryConfig.serviceUrl_eq] at hu
  obtain ⟨proxy, hproxy, hauth⟩ := ReverseProxy.new_of_parse hu rfl
  exact ⟨proxy, hproxy, hauth.trans (ha.trans htext)⟩

theorem new_serviceUrl_v6 (hcolons : lib.RejectsColons) (ip : Ipv6Addr) :
    ReverseProxy.new lib path (cfg.serviceUrl (.V6 ip)) = none := by
  have htext := DnsDiscoveryConfig.authorityText_hostPort (.V6 ip) cfg.port
  have hnot : ∀ c, isIpChar c = false → c ∉ IpAddr.display (.V6 ip) ++ ':' ::
    Nat.toDigits 10 cfg.port.toNat :=
    fun c hc hm => by rw [DnsDiscoveryConfig.isIpChar_hostPort (.V6 ip) cfg.port c hm] at hc; cases hc
  have hnone := hcolons cfg.schemeOf cfg.schemeOf_mem
    (IpAddr.display (.V6 ip) ++ ':' :: Nat.toDigits 10 cfg.port.toNat)
  rw [htext] at hnone
  have hcount : 1 < (IpAddr.display (.V6 ip) ++ ':' :: Nat.toDigits 10 cfg.port.toNat).count ':' := by
    have h : 2 ≤ (IpAddr.display (.V6 ip)).count ':' := ip.two_le_count_display
    rw [List.count_append]
    omega
  rw [ReverseProxy.new, DnsDiscoveryConfig.serviceUrl_eq,
    hnone (hnot '@' (by decide)) (hnot '[' (by decide)) hcount]
  rfl

/-- A discovered address is a usable target just when it is an IPv4 address. -/
theorem discovered_address_usable_iff (hlib : lib.Lawful) (hport : lib.AcceptsHostPort)
    (hcolons : lib.RejectsColons) (h : cfg.Announces ip url) :
    (∃ proxy, ReverseProxy.new lib path url = some proxy ∧
      ∀ addr : SocketAddr, proxy.authority = addr.display ↔ addr = ⟨ip, cfg.port⟩) ↔
        ∃ ipv4, ip = .V4 ipv4 := by
  rw [h.url_eq]
  constructor
  · rintro ⟨proxy, hproxy, -⟩
    cases ip with
    | V4 ip => exact ⟨ip, rfl⟩
    | V6 ip => rw [new_serviceUrl_v6 hcolons] at hproxy; cases hproxy
  · rintro ⟨ip, rfl⟩
    obtain ⟨proxy, hproxy, hauth⟩ := @new_serviceUrl_v4 lib cfg path hlib hport ip
    refine ⟨proxy, hproxy, fun addr => ?_⟩
    rw [hauth]
    constructor
    · intro heq; exact SocketAddr.display_eq_v4 heq.symm
    · rintro rfl; rfl

theorem discovered_address_usable_iff_localhost :
    let cfg : DnsDiscoveryConfig := { hostname := "svc".toList, port := 8080 }
    (∃ proxy, ReverseProxy.new .plain "/".toList "http://127.0.0.1:8080".toList = some proxy ∧
      ∀ addr : SocketAddr, proxy.authority = addr.display ↔ addr = ⟨.V4 ⟨(127, 0, 0, 1)⟩, cfg.port⟩) ↔
      ∃ ipv4, IpAddr.V4 ⟨(127, 0, 0, 1)⟩ = .V4 ipv4 := by
  intro cfg
  exact discovered_address_usable_iff UriLib.plain_lawful UriLib.plain_acceptsHostPort
    UriLib.plain_rejectsColons
    (Or.inr ⟨.ok [.V4 ⟨(127, 0, 0, 1)⟩], by decide⟩ : cfg.Announces _ _)

/-- A lookup that answers with `::1`. -/
theorem discovered_loopback_unusable :
    let cfg : DnsDiscoveryConfig := { hostname := "svc".toList, port := 8080 }
    let loopback : IpAddr := .V6 ⟨[0, 0, 0, 0, 0, 0, 0, 1], rfl⟩
    let url := "http://::1:8080".toList
    staticDiscoveryTask cfg (.ok [loopback]) = [.ok (.insert loopback url)] ∧
      (DnsDiscovery.discoveryTask cfg [⟨.ok [loopback], [], [(loopback, url)]⟩]).map (·.changes) =
        some [.insert loopback url] ∧
      UriLib.plain.RejectsColons ∧ ReverseProxy.new .plain "/".toList url = none := by
  intro cfg loopback url
  exact ⟨by decide, by decide, UriLib.plain_rejectsColons, by decide⟩

end

end AxumReverseProxy
