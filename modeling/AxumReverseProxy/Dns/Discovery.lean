import AxumReverseProxy.Balanced.Proxy
import AxumReverseProxy.Rust.Net

/-!
# DNS service discovery

The background task keeps the services it knows in a `HashMap` of its own and tells the consumer
only what changed. `DnsDiscovery.step` is one call of `resolve_and_send` with the error handling of
its caller; the order in which the two hash maps are gone through is part of the step's label.
`Synced` is the invariant between the task's map and a consumer that replays what was sent.
-/

namespace AxumReverseProxy

/-- `Result<Change<IpAddr, String>, _>`, with the text of the error. -/
abbrev DiscoveryResult := Except Str (Change IpAddr Str)

/-- The answer of `lookup_ip`: the addresses in the order of the records, or the resolver's error. -/
abbrev Lookup := Except Str (List IpAddr)

abbrev Services := OrderedMap IpAddr Str

structure DnsDiscoveryConfig where
  hostname : Str
  port : UInt16
  refreshInterval : Duration := .ofSecs 30
  useHttps : Bool := false

namespace DnsDiscoveryConfig

variable (cfg : DnsDiscoveryConfig)

def scheme : Str := if cfg.useHttps then "https".toList else "http".toList

def serviceUrl (ip : IpAddr) : Str :=
  cfg.scheme ++ "://".toList ++ ip.display ++ ':' :: Nat.toDigits 10 cfg.port.toNat

def newServices (ips : List IpAddr) : Services :=
  ips.foldl (fun services ip => services.insert ip (cfg.serviceUrl ip)) .empty

def lookupFailed (e : Str) : Str := "DNS lookup failed for ".toList ++ cfg.hostname ++ ": ".toList ++ e

end DnsDiscoveryConfig

/-- A lookup, and the orders in which `current_services` and `new_services` are gone through. -/
structure Resolution where
  lookup : Lookup
  keys : List IpAddr
  entries : List (IpAddr × Str)

/-- `resolve_and_send`: what it sends and the services it leaves. `none` where the given orders are
not those of the maps. -/
def resolveAndSend (cfg : DnsDiscoveryConfig) (currentServices : Services) (r : Resolution) :
    Option (Except Str (List (Change IpAddr Str) × Services)) :=
  match r.lookup with
  | .error e => some (.error (cfg.lookupFailed e))
  | .ok ips =>
    let newServices := cfg.newServices ips
    if r.keys.Perm currentServices.keys ∧ r.entries.Perm newServices.entries then
      some (.ok (currentServices.diff newServices r.keys r.entries, newServices))
    else none

structure DnsDiscovery where
  currentServices : Services
  sent : List DiscoveryResult

namespace DnsDiscovery

def new : DnsDiscovery := ⟨.empty, []⟩

/-- A call of `resolve_and_send` from the discovery task. -/
def step (cfg : DnsDiscoveryConfig) (d : DnsDiscovery) (r : Resolution) : Option DnsDiscovery :=
  (resolveAndSend cfg d.currentServices r).map fun
    | .ok (changes, newServices) => ⟨newServices, d.sent ++ changes.map .ok⟩
    | .error e => { d with sent := d.sent ++ [.error e] }

def discoveryTask (cfg : DnsDiscoveryConfig) (rs : List Resolution) : Option DnsDiscovery :=
  if cfg.refreshInterval.nanos = 0 then none else Run.run (step cfg) new rs

def changes (d : DnsDiscovery) : List (Change IpAddr Str) := d.sent.filterMap Except.toOption

end DnsDiscovery

/-- `static_discovery_task`: what it sends. -/
def staticDiscoveryTask (cfg : DnsDiscoveryConfig) (lookup : Lookup) : List DiscoveryResult :=
  match lookup with
  | .ok ips => ips.map fun ip => .ok (.insert ip (cfg.serviceUrl ip))
  | .error e => [.error (cfg.lookupFailed e)]

def latestAddresses (lookups : List Lookup) : List IpAddr :=
  lookups.foldl (fun ips l => match l with | .ok ips' => ips' | .error _ => ips) []

namespace DnsDiscoveryConfig

variable {cfg : DnsDiscoveryConfig}

theorem lookup_newServices (ips : List IpAddr) (ip : IpAddr) :
    (cfg.newServices ips).lookup ip = if ip ∈ ips then some (cfg.serviceUrl ip) else none := by
  have h : ∀ m : Services,
      (ips.foldl (fun services ip => services.insert ip (cfg.serviceUrl ip)) m).lookup ip =
      if ip ∈ ips then some (cfg.serviceUrl ip) else m.lookup ip := by
    induction ips with
    | nil => intro m; rfl
    | cons j ips ih =>
      intro m
      rw [List.foldl_cons, ih]
      by_cases hj : ip = j
      · subst hj; simp
      · simp [hj, OrderedMap.lookup_insert_ne hj]
  exact h .empty

end DnsDiscoveryConfig

namespace DnsDiscovery

variable {cfg : DnsDiscoveryConfig} {d d' : DnsDiscovery} {r : Resolution} {rs : List Resolution}

/-- Every lookup can be followed by a step, whatever the orders of the maps are. -/
theorem isSome_step_iff : (d.step cfg r).isSome ↔
    ∀ ips, r.lookup = .ok ips →
      r.keys.Perm d.currentServices.keys ∧ r.entries.Perm (cfg.newServices ips).entries := by
  rw [step, Option.isSome_map, resolveAndSend]
  cases h : r.lookup with
  | error e => simp
  | ok ips => simp

theorem step_error {e : Str} (h : r.lookup = .error e) :
    d.step cfg r = some { d with sent := d.sent ++ [.error (cfg.lookupFailed e)] } := by
  rw [step, resolveAndSend, h]; rfl

theorem step_ok {ips : List IpAddr} (h : r.lookup = .ok ips) (hs : d.step cfg r = some d') :
    r.keys.Perm d.currentServices.keys ∧ r.entries.Perm (cfg.newServices ips).entries ∧
      d' = ⟨cfg.newServices ips,
        d.sent ++ (d.currentServices.diff (cfg.newServices ips) r.keys r.entries).map .ok⟩ := by
  rw [step, resolveAndSend, h] at hs
  simp only at hs
  split at hs
  · next hp => exact ⟨hp.1, hp.2, by simpa using hs.symm⟩
  · cases hs

theorem changes_sent_error (services : Services) (e : Str) :
    (⟨services, d.sent ++ [.error e]⟩ : DnsDiscovery).changes = d.changes := by
  rw [changes, List.filterMap_append, List.filterMap_cons_none rfl, List.filterMap_nil,
    List.append_nil, changes]

theorem changes_sent_ok (services : Services) (cs : List (Change IpAddr Str)) :
    (⟨services, d.sent ++ cs.map .ok⟩ : DnsDiscovery).changes = d.changes ++ cs := by
  rw [changes, List.filterMap_append, List.filterMap_map, changes]
  exact congrArg _ List.filterMap_some

/-- A consumer that replays the changes holds what the task knows, which is the latest lookup. -/
structure Synced (cfg : DnsDiscoveryConfig) (rs : List Resolution) (d : DnsDiscovery) : Prop where
  apt : OrderedMap.empty.AptAll d.changes
  replay : (OrderedMap.replay d.changes).lookup = d.currentServices.lookup
  latest : ∀ ip, d.currentServices.lookup ip =
    if ip ∈ latestAddresses (rs.map (·.lookup)) then some (cfg.serviceUrl ip) else none

theorem synced_new : Synced cfg [] new := ⟨trivial, rfl, fun _ => rfl⟩

theorem synced_step (h : Synced cfg rs d) (hs : d.step cfg r = some d') : Synced cfg (rs ++ [r]) d' := by
  have hlatest : latestAddresses ((rs ++ [r]).map (·.lookup)) =
      match r.lookup with | .ok ips => ips | .error _ => latestAddresses (rs.map (·.lookup)) := by
    rw [latestAddresses, List.map_append, List.foldl_append]; rfl
  cases hl : r.lookup with
  | error e =>
    rw [step_error hl, Option.some.injEq] at hs
    rw [hl] at hlatest
    subst hs
    refine ⟨?_, ?_, fun ip => ?_⟩
    · rw [changes_sent_error]; exact h.apt
    · rw [changes_sent_error]; exact h.replay
    · rw [hlatest]; exact h.latest ip
  | ok ips =>
    obtain ⟨hk, he, rfl⟩ := step_ok hl hs
    rw [hl] at hlatest
    have hshared : ∀ k ∈ d.currentServices.keys, k ∈ (cfg.newServices ips).keys →
        d.currentServices.lookup k = (cfg.newServices ips).lookup k := by
      intro k hold hnew
      rw [OrderedMap.mem_keys, cfg.lookup_newServices] at hnew
      rw [OrderedMap.mem_keys, h.latest] at hold
      rw [h.latest, cfg.lookup_newServices]
      split at hold <;> split at hnew <;> simp_all
    obtain ⟨hapt, hreplay⟩ := OrderedMap.aptAll_diff h.replay hk he hshared
    refine ⟨?_, ?_, fun ip => ?_⟩
    · rw [changes_sent_ok]
      exact OrderedMap.aptAll_append.2 ⟨h.apt, hapt⟩
    · rw [changes_sent_ok, OrderedMap.replay, List.foldl_append]
      exact hreplay
    · rw [hlatest]; exact cfg.lookup_newServices ips ip

theorem synced_discoveryTask (h : discoveryTask cfg rs = some d) : Synced cfg rs d := by
  rw [discoveryTask] at h
  split at h
  · cases h
  · exact Run.run_invariant (Synced cfg) synced_new synced_step h

theorem url_of_insert_step (h : ∀ ip url, .insert ip url ∈ d.changes → url = cfg.serviceUrl ip)
    (hs : d.step cfg r = some d') : ∀ ip url, .insert ip url ∈ d'.changes → url = cfg.serviceUrl ip := by
  intro ip url hm
  cases hl : r.lookup with
  | error e =>
    rw [step_error hl, Option.some.injEq] at hs
    subst hs
    rw [changes_sent_error] at hm
    exact h ip url hm
  | ok ips =>
    obtain ⟨-, he, rfl⟩ := step_ok hl hs
    rw [changes_sent_ok, List.mem_append] at hm
    rcases hm with hm | hm
    · exact h ip url hm
    · have hv := OrderedMap.mem_entries.1 (he.subset (OrderedMap.mem_of_insert_mem_diff hm))
      rw [cfg.lookup_newServices, Option.ite_none_right_eq_some, Option.some.injEq] at hv
      exact hv.2.symm

theorem url_of_insert (h : discoveryTask cfg rs = some d) :
    ∀ ip url, .insert ip url ∈ d.changes → url = cfg.serviceUrl ip := by
  rw [discoveryTask] at h
  split at h
  · cases h
  · exact Run.run_preserves (fun d => ∀ ip url, .insert ip url ∈ d.changes → url = cfg.serviceUrl ip)
      (by intro ip url hm; cases hm) url_of_insert_step h

/-- After any calls, whoever replays what was sent holds the addresses of the latest successful
lookup; nothing was sent that was not due, and a failed lookup sends its error and nothing else. -/
theorem replay_latest_lookup (h : discoveryTask cfg rs = some d) :
    (∀ ip url, (OrderedMap.replay d.changes).lookup ip = some url ↔
      ip ∈ latestAddresses (rs.map (·.lookup)) ∧ url = cfg.serviceUrl ip) ∧
    (∀ pre post ip url, d.changes = pre ++ .insert ip url :: post →
      (OrderedMap.replay pre).lookup ip = none) ∧
    (∀ pre post ip, d.changes = pre ++ .remove ip :: post → ((OrderedMap.replay pre).lookup ip).isSome) ∧
    ∀ r e, r.lookup = .error e → ∃ d', d.step cfg r = some d' ∧ d'.changes = d.changes ∧
      d'.sent = d.sent ++ [.error (cfg.lookupFailed e)] ∧ d'.currentServices = d.currentServices := by
  have hsync := synced_discoveryTask h
  refine ⟨fun ip url => ?_, fun pre post ip url hc => ?_, fun pre post ip hc => ?_, fun r e hr => ?_⟩
  · rw [hsync.replay, hsync.latest, Option.ite_none_right_eq_some, Option.some.injEq]
    exact and_congr_right fun _ => eq_comm
  · have hapt := hsync.apt
    rw [hc] at hapt
    exact OrderedMap.lookup_eq_none_iff.2 hapt.apt
  · have hapt := hsync.apt
    rw [hc] at hapt
    exact (OrderedMap.mem_keys _ ip).1 hapt.apt
  · exact ⟨_, step_error hr, changes_sent_error .., rfl, rfl⟩

/-- An address that goes, a failure, and the address that comes back. -/
theorem replay_latest_lookup_back :
    let cfg : DnsDiscoveryConfig := { hostname := "svc".toList, port := 80 }
    let a : IpAddr := .V4 ⟨(10, 0, 0, 1)⟩
    let b : IpAddr := .V4 ⟨(10, 0, 0, 2)⟩
    let url := "http://10.0.0.1:80".toList
    let url' := "http://10.0.0.2:80".toList
    ∃ d, discoveryTask cfg [⟨.ok [a, b, a], [], [(b, url'), (a, url)]⟩, ⟨.ok [b], [b, a], [(b, url')]⟩,
        ⟨.error "timeout".toList, [], []⟩, ⟨.ok [b, a], [b], [(a, url), (b, url')]⟩] = some d ∧
      d.changes = [.insert b url', .insert a url, .remove a, .insert a url] ∧
      ∀ ip url, (OrderedMap.replay d.changes).lookup ip = some url ↔ ip ∈ [b, a] ∧
        url = cfg.serviceUrl ip := by
  intro cfg a b url url'
  have hrun : (discoveryTask cfg [⟨.ok [a, b, a], [], [(b, url'), (a, url)]⟩,
    ⟨.ok [b], [b, a], [(b, url')]⟩,
      ⟨.error "timeout".toList, [], []⟩, ⟨.ok [b, a], [b], [(a, url), (b, url')]⟩]).map (·.changes) =
      some [.insert b url', .insert a url, .remove a, .insert a url] := by decide
  obtain ⟨d, hd, hc⟩ := Option.map_eq_some_iff.1 hrun
  exact ⟨d, hd, hc, (replay_latest_lookup hd).1⟩

end DnsDiscovery

end AxumReverseProxy
