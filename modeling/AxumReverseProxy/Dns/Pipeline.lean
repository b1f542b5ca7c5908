import AxumReverseProxy.Balanced.Discovery
import AxumReverseProxy.Dns.Discovery

/-!
# From the lookups to the snapshot

`DnsDiscovery` and `DiscoverableBalancedProxy` put together: the task that resolves, the unbounded
channel between them, and the task that polls. The first sends one change after the other, and the
second may be woken between any two of them. What it has received by then is a part of what was sent
(`Piped`), so that the endpoints published are those of the latest lookup once it has caught up
(`caught_up_serves_latest`). It can catch up as long as no unusable address came before
(`catches_up_iff`), and an address keeps its endpoint for as long as the lookups have it
(`endpoint_kept_iff`).
-/

namespace AxumReverseProxy

open OrderedMap

/-! ### The registry of a stream with one target for each key -/

section

variable {κ : Type} [DecidableEq κ] {cfg : BalancerConfig} {items items' : List (Discovered κ)}
  {item : Discovered κ} {k : κ} {e : Endpoint} {url : κ → Str}

def Discovered.change? : Discovered κ → Option (Change κ Str)
  | .change c => some c
  | .error => none

/-- Every insert under a key names the target `url` gives it. -/
def Named (url : κ → Str) (items : List (Discovered κ)) : Prop :=
  ∀ k target, .change (.insert k target) ∈ items → target = url k

omit [DecidableEq κ] in
theorem Named.subset (h : Named url items') (hs : items ⊆ items') :
    Named url items := fun k target hm => h k target (hs hm)

theorem replay_concat (items : List (Discovered κ)) (item : Discovered κ) :
    replay ((items ++ [item]).filterMap Discovered.change?) =
      (item.change?.toList).foldl apply (replay (items.filterMap Discovered.change?)) := by
  rw [List.filterMap_append, replay, List.foldl_append]
  cases item <;> rfl

theorem mem_keys_registry_named (h : Named url items) : k ∈ (registry cfg items).services.keys ↔
    usableTarget cfg.lib (url k) = true ∧ k ∈ (replay (items.filterMap Discovered.change?)).keys := by
  induction items using List.reverseRecOn with
  | nil => exact iff_of_false List.not_mem_nil fun h => List.not_mem_nil h.2
  | append_singleton items item ih =>
    have ih := ih (h.subset (List.subset_append_left ..))
    rw [registry_concat, replay_concat]
    rcases (registry cfg items).apply_cases cfg item with
      ⟨key, target, e, rfl, he, hr⟩ | ⟨key, rfl, hr⟩ | ⟨rfl | ⟨key, target, rfl, hu⟩, hr⟩
    · have hu : usableTarget cfg.lib (url key) = true := by
        rw [← h key target (by simp), ← endpoint_isSome, he]; rfl
      rw [hr, mem_keys_insert, ih]
      show _ ↔ _ ∧ k ∈ (OrderedMap.insert _ key target).keys
      rw [mem_keys_insert]
      constructor
      · rintro (rfl | ⟨hk, hm⟩)
        · exact ⟨hu, .inl rfl⟩
        · exact ⟨hk, .inr hm⟩
      · rintro ⟨hk, rfl | hm⟩
        · exact .inl rfl
        · exact .inr ⟨hk, hm⟩
    · rw [hr, mem_keys_remove, ih]
      show _ ↔ _ ∧ k ∈ (OrderedMap.remove _ key).keys
      rw [mem_keys_remove]
      tauto
    · rw [hr, ih]; rfl
    · rw [hr, ih]
      show _ ↔ _ ∧ k ∈ (OrderedMap.insert _ key target).keys
      rw [mem_keys_insert]
      rw [h key target (by simp)] at hu
      constructor
      · rintro ⟨hk, hm⟩; exact ⟨hk, .inr hm⟩
      · rintro ⟨hk, rfl | hm⟩
        · rw [hu] at hk; cases hk
        · exact ⟨hk, hm⟩

/-- Nothing comes behind an unusable target. -/
theorem polled_of_last (h : ∀ item ∈ items.dropLast, ¬ item.Unusable cfg.lib) :
    (polled cfg items).snapshot = (registry cfg items).services.values := by
  rcases List.eq_nil_or_concat' items with rfl | ⟨items, item, rfl⟩
  · rfl
  · rw [List.dropLast_concat] at h
    by_cases hu : item.Unusable cfg.lib
    · rw [polled_concat, (polled_refines h).poll_unusable hu, registry_concat_of_idle (.inr (.inl hu))]
      exact (polled_refines h).snapshot
    · rw [polled_concat, registry_concat]
      exact ((polled_refines h).poll hu).snapshot

theorem Seen.endpoint_eq (h : Named url items) (hs : Seen cfg items k e) :
    cfg.endpoint (url k) e.metrics = some e := by
  induction items using List.reverseRecOn with
  | nil => exact absurd hs not_seen_nil
  | append_singleton items item ih =>
    rcases seen_concat hs with hs | ⟨target, rfl, he⟩
    · exact ih (h.subset (List.subset_append_left ..)) hs
    · rw [← h k target (by simp), endpoint_metrics he]
      exact he

theorem nextMetrics_le_append (items' : List (Discovered κ)) :
    (registry cfg items).nextMetrics ≤ (registry cfg (items ++ items')).nextMetrics := by
  induction items' using List.reverseRecOn with
  | nil => rw [List.append_nil]
  | append_singleton items' item ih =>
    rw [← List.append_assoc]
    exact ih.trans (nextMetrics_le_concat item)

/-- An endpoint that comes under a key that had none is a new one. -/
theorem nextMetrics_le_of_lookup (h : (registry cfg items).services.lookup k = none)
    (hl : (registry cfg (items ++ items')).services.lookup k = some e) :
    (registry cfg items).nextMetrics ≤ e.metrics := by
  induction items' using List.reverseRecOn with
  | nil => rw [List.append_nil, h] at hl; cases hl
  | append_singleton items' item ih =>
    rw [← List.append_assoc, registry_concat] at hl
    rcases (registry cfg (items ++ items')).apply_cases cfg item with
      ⟨key, target, e', rfl, he, hr⟩ | ⟨key, rfl, hr⟩ | ⟨-, hr⟩
    · rw [hr] at hl
      by_cases hk : k = key
      · rw [hk, lookup_insert_self, Option.some.injEq] at hl
        rw [← hl, endpoint_metrics he]
        exact nextMetrics_le_append items'
      · exact ih ((lookup_insert_ne hk).symm.trans hl)
    · rw [hr] at hl
      by_cases hk : k = key
      · rw [hk, lookup_remove_self] at hl; cases hl
      · exact ih ((lookup_remove_ne hk).symm.trans hl)
    · exact ih (hr ▸ hl)

end

/-! ### The pipeline -/

structure PipelineConfig where
  dns : DnsDiscoveryConfig
  balancer : BalancerConfig

/-- The state of the resolving task, the changes of its current call that it has yet to send, what
is in the channel, and the proxy at the other end. -/
structure Pipeline where
  dns : DnsDiscovery
  outbox : List DiscoveryResult
  channel : List DiscoveryResult
  balancer : Balancer IpAddr

def discovered : DiscoveryResult → Discovered IpAddr
  | .ok c => .change c
  | .error _ => .error

namespace Pipeline

/-- A lookup is answered, one change is sent, the discovery task of the proxy is woken by a change or
by the end of the stream, or anything else happens to the proxy. -/
inductive Event
  | resolve (r : Resolution)
  | send
  | receive
  | streamEnded
  | proxy (e : Balancer.Event IpAddr)

def new : Pipeline := ⟨.new, [], [], .new⟩

def step (cfg : PipelineConfig) (p : Pipeline) : Event → Option Pipeline
  | .resolve r =>
    if p.outbox = [] ∧ cfg.dns.refreshInterval.nanos ≠ 0 then
      (p.dns.step cfg.dns r).map fun d => { p with dns := d, outbox := d.sent.drop p.dns.sent.length }
    else none
  | .send =>
    match p.outbox with
    | item :: outbox => some { p with outbox, channel := p.channel ++ [item] }
    | [] => none
  | .receive =>
    match p.balancer.discovery.task, p.channel with
    | .running _, item :: channel =>
      (p.balancer.step cfg.balancer (.discovered (discovered item))).map fun b =>
        { p with channel, balancer := b }
    | _, _ => none
  | .streamEnded =>
    -- only the panic of `interval` at a zero period drops the sender
    if cfg.dns.refreshInterval.nanos = 0 then
      (p.balancer.step cfg.balancer .streamEnded).map fun b => { p with balancer := b }
    else none
  | .proxy e =>
    match e with
    | .discovered _ | .streamEnded => none
    | e => (p.balancer.step cfg.balancer e).map fun b => { p with balancer := b }

def Event.resolution? : Event → Option Resolution
  | .resolve r => some r
  | _ => none

def lookupsOf (events : List Event) : List Lookup := (events.filterMap Event.resolution?).map (·.lookup)

/-- What the proxy has received of what was sent. -/
def received (p : Pipeline) : List DiscoveryResult :=
  p.dns.sent.take (p.dns.sent.length - (p.channel ++ p.outbox).length)

/-- The endpoints by address that the changes received stand for. -/
def services (cfg : PipelineConfig) (p : Pipeline) : OrderedMap IpAddr Endpoint :=
  (registry cfg.balancer (p.received.map discovered)).services

def CaughtUp (p : Pipeline) : Prop := p.channel = [] ∧ p.outbox = []

variable {cfg : PipelineConfig} {p p' : Pipeline} {e : Event} {events events' : List Event} {ip : IpAddr}

theorem received_eq {a : List DiscoveryResult} (h : p.dns.sent = a ++ (p.channel ++ p.outbox)) :
    p.received = a := by
  rw [received, h, List.length_append, Nat.add_sub_cancel]
  exact List.take_left

theorem sent_of_step {d d' : DnsDiscovery} {c : DnsDiscoveryConfig} {r : Resolution}
    (h : d.step c r = some d') :
    ∃ items, d'.sent = d.sent ++ items := by
  rw [DnsDiscovery.step, Option.map_eq_some_iff] at h
  obtain ⟨res, -, rfl⟩ := h
  cases res with
  | ok res => exact ⟨_, rfl⟩
  | error e => exact ⟨_, rfl⟩

theorem sent_append_drop {d d' : DnsDiscovery} {c : DnsDiscoveryConfig} {r : Resolution}
    (h : d.step c r = some d') :
    d.sent ++ d'.sent.drop d.sent.length = d'.sent := by
  obtain ⟨items, hitems⟩ := sent_of_step h
  rw [hitems, List.drop_left]

/-- What a step can do. The end of the stream comes only over a resolving task that could not start. -/
theorem step_cases (h : p.step cfg e = some p') :
    (∃ r d, e = .resolve r ∧ p.outbox = [] ∧ cfg.dns.refreshInterval.nanos ≠ 0 ∧
      p.dns.step cfg.dns r = some d ∧
      p' = { p with dns := d, outbox := d.sent.drop p.dns.sent.length }) ∨
    (∃ item outbox, e = .send ∧ p.outbox = item :: outbox ∧
      p' = { p with outbox, channel := p.channel ++ [item] }) ∨
    (∃ endpoints item channel b, e = .receive ∧ p.balancer.discovery.task = .running endpoints ∧
      p.channel = item :: channel ∧ p.balancer.step cfg.balancer (.discovered (discovered item)) = some b ∧
      p' = { p with channel, balancer := b }) ∨
    ∃ pe b, e.resolution? = none ∧ pe.item? = none ∧
      (pe = .streamEnded → cfg.dns.refreshInterval.nanos = 0) ∧
      p.balancer.step cfg.balancer pe = some b ∧ p' = { p with balancer := b } := by
  cases e with
  | resolve r =>
    simp only [step] at h
    split at h
    · next hout =>
      obtain ⟨d, hd, rfl⟩ := Option.map_eq_some_iff.1 h
      exact .inl ⟨r, d, rfl, hout.1, hout.2, hd, rfl⟩
    · cases h
  | send =>
    simp only [step] at h
    split at h
    · next item outbox hout =>
      cases h
      exact .inr (.inl ⟨item, outbox, rfl, hout, rfl⟩)
    · cases h
  | receive =>
    simp only [step] at h
    split at h
    · next endpoints item channel ht hch =>
      obtain ⟨b, hb, rfl⟩ := Option.map_eq_some_iff.1 h
      exact .inr (.inr (.inl ⟨endpoints, item, channel, b, rfl, ht, hch, hb, rfl⟩))
    · cases h
  | streamEnded =>
    simp only [step] at h
    split at h
    · next hz =>
      obtain ⟨b, hb, rfl⟩ := Option.map_eq_some_iff.1 h
      exact .inr (.inr (.inr ⟨.streamEnded, b, rfl, rfl, fun _ => hz, hb, rfl⟩))
    · cases h
  | proxy pe =>
    have hpe : pe.item? = none ∧ pe ≠ .streamEnded ∧ ∃ b, p.balancer.step cfg.balancer pe = some b ∧
        p' = { p with balancer := b } := by
      cases pe with
      | discovered item => cases h
      | streamEnded => cases h
      | _ =>
        obtain ⟨b, hb, rfl⟩ := Option.map_eq_some_iff.1 h
        exact ⟨rfl, nofun, b, hb, rfl⟩
    obtain ⟨hi, hne, b, hb, rfl⟩ := hpe
    exact .inr (.inr (.inr ⟨pe, b, rfl, hi, fun h => absurd h hne, hb, rfl⟩))

/-- What lies between the two ends: nothing is lost, doubled or overtaken, and nothing is received
behind an unusable target. -/
structure Piped (cfg : PipelineConfig) (events : List Event) (p : Pipeline) : Prop where
  resolved : Run.run (DnsDiscovery.step cfg.dns) .new (events.filterMap Event.resolution?) = some p.dns
  sent : p.dns.sent = p.received ++ (p.channel ++ p.outbox)
  polled : ∃ es, Run.run (Balancer.step cfg.balancer) .new es = some p.balancer ∧
    Balancer.itemsOf es = p.received.map discovered
  usable : ∀ item ∈ (p.received.map discovered).dropLast, ¬ item.Unusable cfg.balancer.lib

theorem piped_new : Piped cfg [] new :=
  ⟨rfl, rfl, ⟨[], rfl, rfl⟩, by simp [received, new, DnsDiscovery.new]⟩

theorem Piped.resolved_of (h : Piped cfg events p) {e' : Event} (hr : e'.resolution? = none) :
    Run.run (DnsDiscovery.step cfg.dns) .new ((events ++ [e']).filterMap Event.resolution?) =
      some p.dns := by
  rw [List.filterMap_append, List.filterMap_cons_none hr, List.filterMap_nil, List.append_nil]
  exact h.resolved

/-- The proxy at the end of the pipeline takes a step that is not one of its discovery task. -/
theorem Piped.proxy (h : Piped cfg events p) {e' : Event} {pe : Balancer.Event IpAddr} {b : Balancer IpAddr}
    (hr : e'.resolution? = none) (hi : pe.item? = none) (hs : p.balancer.step cfg.balancer pe = some b) :
    Piped cfg (events ++ [e']) { p with balancer := b } := by
  obtain ⟨es, hes, hitems⟩ := h.polled
  refine ⟨h.resolved_of hr, h.sent, ⟨es ++ [pe], ?_, ?_⟩, h.usable⟩
  · rw [Run.run_concat, hes]; exact hs
  · rw [Balancer.itemsOf_concat_of_none hi]; exact hitems

theorem Piped.all_usable (h : Piped cfg events p) {endpoints : List (IpAddr × Endpoint)}
    (ht : p.balancer.discovery.task = .running endpoints) :
    ∀ item ∈ p.received.map discovered, ¬ item.Unusable cfg.balancer.lib := by
  intro item hm hu
  obtain ⟨es, hes, hitems⟩ := h.polled
  rw [← hitems] at hm
  rcases Balancer.follows hes with ⟨hd, -, -⟩ | ⟨-, hd | ⟨he, -⟩⟩
  · rw [hd] at ht; cases ht
  · have hp := @panicked_of_mem _ _ cfg.balancer _ _ hm hu
    rw [← hd, ht] at hp; cases hp
  · rw [he] at ht; cases ht

theorem piped_step (h : Piped cfg events p) (hs : p.step cfg e = some p') :
    Piped cfg (events ++ [e]) p' := by
  rcases step_cases hs with ⟨r, d, rfl, hout, -, hd, rfl⟩ | ⟨item, outbox, rfl, hout, rfl⟩ |
    ⟨endpoints, item, channel, b, rfl, ht, hch, hb, rfl⟩ | ⟨pe, b, hr, hi, -, hb, rfl⟩
  · have hsent := h.sent
    rw [hout, List.append_nil] at hsent
    have hsplit : d.sent = p.received ++ (p.channel ++ d.sent.drop p.dns.sent.length) := by
      rw [← List.append_assoc, ← hsent]
      exact (sent_append_drop hd).symm
    have hrec := received_eq (p := ⟨d, d.sent.drop p.dns.sent.length, p.channel, p.balancer⟩) hsplit
    refine ⟨?_, ?_, ?_, ?_⟩
    · rw [List.filterMap_append]
      show Run.run _ _ (_ ++ [r]) = _
      rw [Run.run_concat, h.resolved]
      exact hd
    · rw [hrec]; exact hsplit
    · rw [hrec]; exact h.polled
    · rw [hrec]; exact h.usable
  · have hsent := h.sent
    rw [hout, List.append_cons p.channel] at hsent
    have hrec := received_eq (p := ⟨p.dns, outbox, p.channel ++ [item], p.balancer⟩) hsent
    exact ⟨h.resolved_of rfl, by rw [hrec]; exact hsent, by rw [hrec]; exact h.polled,
      by rw [hrec]; exact h.usable⟩
  · obtain ⟨es, hes, hitems⟩ := h.polled
    have hsent := h.sent
    rw [hch, List.cons_append, List.append_cons] at hsent
    have hrec := received_eq (p := ⟨p.dns, p.outbox, channel, b⟩) hsent
    refine ⟨h.resolved_of rfl, by rw [hrec]; exact hsent, ⟨es ++ [.discovered (discovered item)], ?_,
      ?_⟩, ?_⟩
    · rw [Run.run_concat, hes]; exact hb
    · rw [hrec, List.map_append, ← hitems]
      exact List.filterMap_append ..
    · rw [hrec, List.map_append, List.map_singleton, List.dropLast_concat]
      exact h.all_usable ht
  · exact h.proxy hr hi hb

theorem piped (h : Run.run (step cfg) new events = some p) : Piped cfg events p :=
  Run.run_invariant (Piped cfg) piped_new piped_step h

theorem Piped.snapshot (h : Piped cfg events p) :
    p.balancer.discovery.snapshot = (p.services cfg).values := by
  obtain ⟨es, hes, hitems⟩ := h.polled
  rw [Balancer.snapshot_eq_polled hes, hitems]
  exact polled_of_last h.usable

theorem Piped.synced (h : Piped cfg events p) :
    DnsDiscovery.Synced cfg.dns (events.filterMap Event.resolution?) p.dns :=
  Run.run_invariant (DnsDiscovery.Synced cfg.dns) DnsDiscovery.synced_new
    DnsDiscovery.synced_step h.resolved

/-! ### What the changes received stand for -/

theorem filterMap_change? (items : List DiscoveryResult) :
    (items.map discovered).filterMap Discovered.change? = items.filterMap Except.toOption := by
  rw [List.filterMap_map]
  refine List.filterMap_congr fun item _ => ?_
  cases item <;> rfl

/-- An insert names an address that was looked up, and its service. -/
theorem insert_of_run {c : DnsDiscoveryConfig} {rs : List Resolution} {d : DnsDiscovery}
    (h : Run.run (DnsDiscovery.step c) .new rs = some d) :
    ∀ ip url, .insert ip url ∈ d.changes → url = c.serviceUrl ip ∧ ∃ ips, .ok ips ∈ rs.map (·.lookup) ∧
      ip ∈ ips := by
  refine Run.run_invariant (fun rs d => ∀ ip url, .insert ip url ∈ DnsDiscovery.changes d →
    url = c.serviceUrl ip ∧ ∃ ips, .ok ips ∈ rs.map (·.lookup) ∧ ip ∈ ips)
      (by intro ip url hm; cases hm) ?_ h
  intro rs d r d' ih hs ip url hm
  have hold : .insert ip url ∈ d.changes →
      url = c.serviceUrl ip ∧ ∃ ips, .ok ips ∈ (rs ++ [r]).map (·.lookup) ∧ ip ∈ ips := by
    intro hm
    obtain ⟨hurl, ips, hips, hip⟩ := ih ip url hm
    exact ⟨hurl, ips, by rw [List.map_append]; exact List.mem_append_left _ hips, hip⟩
  cases hl : r.lookup with
  | error e =>
    rw [DnsDiscovery.step_error hl, Option.some.injEq] at hs
    rw [← hs, DnsDiscovery.changes_sent_error] at hm
    exact hold hm
  | ok ips =>
    obtain ⟨-, he, rfl⟩ := DnsDiscovery.step_ok hl hs
    rw [DnsDiscovery.changes_sent_ok, List.mem_append] at hm
    rcases hm with hm | hm
    · exact hold hm
    · have hv := mem_entries.1 (he.subset (mem_of_insert_mem_diff hm))
      rw [c.lookup_newServices, Option.ite_none_right_eq_some, Option.some.injEq] at hv
      exact ⟨hv.2.symm, ips, by rw [List.map_append, List.map_singleton, hl]; simp, hv.1⟩

theorem insert_mem_changes {d : DnsDiscovery} {url : Str}
    (hm : .change (.insert ip url) ∈ d.sent.map discovered) :
    .insert ip url ∈ d.changes := by
  obtain ⟨item, hitem, heq⟩ := List.mem_map.1 hm
  cases item with
  | error e => cases heq
  | ok c => cases heq; exact List.mem_filterMap.2 ⟨_, hitem, rfl⟩

theorem named_of_run {c : DnsDiscoveryConfig} {rs : List Resolution} {d : DnsDiscovery}
    (h : Run.run (DnsDiscovery.step c) .new rs = some d) : Named c.serviceUrl (d.sent.map discovered) :=
  fun ip url hm => (insert_of_run h ip url (insert_mem_changes hm)).1

theorem mem_keys_registry_sent {c : DnsDiscoveryConfig} {bc : BalancerConfig} {rs : List Resolution}
    {d : DnsDiscovery}
    (h : Run.run (DnsDiscovery.step c) .new rs = some d) :
    ip ∈ (registry bc (d.sent.map discovered)).services.keys ↔
      ip ∈ d.currentServices.keys ∧ usableTarget bc.lib (c.serviceUrl ip) = true := by
  have hsync : DnsDiscovery.Synced c rs d :=
    Run.run_invariant (DnsDiscovery.Synced c) DnsDiscovery.synced_new DnsDiscovery.synced_step h
  rw [mem_keys_registry_named (named_of_run h), filterMap_change?, and_comm, mem_keys d.currentServices,
    ← hsync.replay, ← mem_keys]
  rfl

theorem Piped.received_subset (h : Piped cfg events p) :
    p.received.map discovered ⊆ p.dns.sent.map discovered := by
  rw [h.sent, List.map_append]
  exact List.subset_append_left ..

theorem Piped.received_of_caughtUp (h : Piped cfg events p) (hc : p.CaughtUp) :
    p.received = p.dns.sent := by
  rw [h.sent, hc.1, hc.2, List.append_nil, List.append_nil]

theorem Piped.mem_services (h : Piped cfg events p) (hc : p.CaughtUp) : ip ∈ (p.services cfg).keys ↔
    ip ∈ latestAddresses (lookupsOf events) ∧
      usableTarget cfg.balancer.lib (cfg.dns.serviceUrl ip) = true := by
  rw [services, h.received_of_caughtUp hc, mem_keys_registry_sent h.resolved]
  refine and_congr_left fun _ => ?_
  rw [mem_keys, h.synced.latest]
  simp [lookupsOf]

/-- At every moment the proxy serves what the changes received so far stand for, each endpoint an
address that was looked up. Once it has caught up these are the usable addresses of the latest lookup
that succeeded, with one endpoint each. -/
theorem caught_up_serves_latest (h : Run.run (step cfg) new events = some p) :
    p.dns.sent = p.received ++ (p.channel ++ p.outbox) ∧
    p.balancer.discovery.snapshot = (p.services cfg).values ∧
    (∀ ip e, (p.services cfg).lookup ip = some e → (∃ ips, .ok ips ∈ lookupsOf events ∧ ip ∈ ips) ∧
      cfg.balancer.endpoint (cfg.dns.serviceUrl ip) e.metrics = some e) ∧
    (p.CaughtUp → ∀ ip, ip ∈ (p.services cfg).keys ↔
      ip ∈ latestAddresses (lookupsOf events) ∧
        usableTarget cfg.balancer.lib (cfg.dns.serviceUrl ip) = true) := by
  have hp := piped h
  refine ⟨hp.sent, hp.snapshot, fun ip e he => ⟨?_, ?_⟩, fun hc ip => hp.mem_services hc⟩
  · have hmem : ip ∈ (p.services cfg).keys := by rw [mem_keys, he]; rfl
    obtain ⟨pre, url, post, hitems, -⟩ := (mem_keys_registry cfg.balancer).1 hmem
    have hin : .change (.insert ip url) ∈ p.received.map discovered := by rw [hitems]; simp
    exact (insert_of_run hp.resolved ip url (insert_mem_changes (hp.received_subset hin))).2
  · exact Seen.endpoint_eq ((named_of_run hp.resolved).subset hp.received_subset) (.now he)

def plainPipeline : PipelineConfig := ⟨{ hostname := "svc".toList, port := 80 },
    Balancer.plainConfig .roundRobin⟩

/-- One of two addresses has been received. -/
theorem caught_up_serves_latest_one :
    let a : IpAddr := .V4 ⟨(10, 0, 0, 1)⟩
    let b : IpAddr := .V4 ⟨(10, 0, 0, 2)⟩
    let url := "http://10.0.0.1:80".toList
    let url' := "http://10.0.0.2:80".toList
    ∃ p, Run.run (step plainPipeline) new [.proxy .startDiscovery,
      .resolve ⟨.ok [a, b], [], [(a, url), (b, url')]⟩, .send,
        .send, .receive] = some p ∧
      p.dns.sent = [.ok (.insert a url)] ++ ([.ok (.insert b url')] ++ []) ∧
      p.balancer.discovery.snapshot = (p.services plainPipeline).values := by
  intro a b url url'
  obtain ⟨p, hp, hrec, hch, hout⟩ : ∃ p, Run.run (step plainPipeline) new [.proxy .startDiscovery,
        .resolve ⟨.ok [a, b], [], [(a, url), (b, url')]⟩, .send, .send, .receive] = some p ∧
      p.received = [.ok (.insert a url)] ∧ p.channel = [.ok (.insert b url')] ∧ p.outbox = [] :=
    ⟨_, rfl, rfl, rfl, rfl⟩
  obtain ⟨hsent, hsnapshot, -⟩ := caught_up_serves_latest hp
  rw [hrec, hch, hout] at hsent
  exact ⟨p, hp, hsent, hsnapshot⟩

/-! ### Catching up -/

theorem poll_running {c : BalancerConfig} {d : Discovery IpAddr} {item : Discovered IpAddr}
    {endpoints : List (IpAddr × Endpoint)} (ht : d.task = .running endpoints) (hu : ¬ item.Unusable c.lib) :
    ∃ endpoints', (d.poll c item).task = .running endpoints' := by
  rcases item with (⟨key, target⟩ | key) | -
  · cases hus : usableTarget c.lib target with
    | true =>
      obtain ⟨e, he, -⟩ := endpoint_of_usable hus d.nextMetrics
      exact ⟨insertEndpoint endpoints key e, by simp only [Discovery.poll, ht, he]; rfl⟩
    | false => exact absurd ⟨key, target, rfl, hus⟩ hu
  · exact ⟨endpoints.filter fun e => e.1 ≠ key, by simp only [Discovery.poll, ht]; rfl⟩
  · exact ⟨endpoints, by simp only [Discovery.poll, ht]⟩

/-- The discovery task has not begun, is at work, met an unusable target, or had nothing to do. -/
theorem Piped.task_cases (h : Piped cfg events p) :
    p.balancer.discoveryStarted = false ∨ (∃ endpoints, p.balancer.discovery.task = .running endpoints) ∨
      (∃ item ∈ p.received.map discovered, item.Unusable cfg.balancer.lib) ∨
        p.balancer.discovery.task = .ended := by
  obtain ⟨es, hes, hitems⟩ := h.polled
  rcases Balancer.follows hes with ⟨-, -, hs⟩ | ⟨-, hd | ⟨he, -⟩⟩
  · exact .inl hs
  · rcases polled_cases cfg.balancer (Balancer.itemsOf es) with hall | ⟨pre, bad, post, hi, hbad, -⟩
    · exact .inr (.inl ⟨_, by rw [hd]; exact (polled_refines hall).task⟩)
    · exact .inr (.inr (.inl ⟨bad, by rw [← hitems, hi]; simp, hbad⟩))
  · exact .inr (.inr (.inr he))

theorem send_all (p : Pipeline) : ∃ events', lookupsOf events' = [] ∧
    Run.run (step cfg) p events' = some { p with outbox := [], channel := p.channel ++ p.outbox } := by
  obtain ⟨dns, outbox, channel, balancer⟩ := p
  induction outbox generalizing channel with
  | nil => exact ⟨[], rfl, by rw [List.append_nil]; rfl⟩
  | cons item outbox ih =>
    obtain ⟨events', hl, hr⟩ := ih (channel ++ [item])
    refine ⟨.send :: events', hl, ?_⟩
    rw [Run.run_cons]
    show Run.run (step cfg) ⟨dns, outbox, channel ++ [item], balancer⟩ events' = _
    rw [hr, List.append_assoc]; rfl

theorem receive_all (h : Piped cfg events p) (hout : p.outbox = [])
    (hu : ∀ item ∈ p.dns.sent.dropLast, ¬ (discovered item).Unusable cfg.balancer.lib)
    {endpoints : List (IpAddr × Endpoint)} (ht : p.balancer.discovery.task = .running endpoints) :
    ∃ events' p', lookupsOf events' = [] ∧ Run.run (step cfg) p events' = some p' ∧ p'.CaughtUp := by
  obtain ⟨dns, outbox, channel, balancer⟩ := p
  obtain rfl := hout
  induction channel generalizing balancer events endpoints with
  | nil => exact ⟨[], _, rfl, rfl, rfl, rfl⟩
  | cons item channel ih =>
    replace ht : balancer.discovery.task = .running endpoints := ht
    have hs : step cfg ⟨dns, [], item :: channel, balancer⟩ .receive =
        some ⟨dns, [], channel,
          { balancer with discovery := balancer.discovery.poll cfg.balancer (discovered item) }⟩ := by
      simp only [step, ht, Balancer.step]; rfl
    cases channel with
    | nil => exact ⟨[.receive], _, rfl, by rw [Run.run_cons, hs]; rfl, rfl, rfl⟩
    | cons next channel =>
      have hitem : item ∈ dns.sent.dropLast := by
        have hsent := h.sent
        simp only [List.append_nil] at hsent
        rw [hsent, List.dropLast_append_of_ne_nil (by simp), List.dropLast_cons_of_ne_nil (by simp)]
        simp
      obtain ⟨endpoints', ht'⟩ := poll_running ht (hu item hitem)
      obtain ⟨events', p', hl, hr, hc⟩ := ih _ (piped_step h hs) hu ht'
      exact ⟨.receive :: events', p', hl, by rw [Run.run_cons, hs]; exact hr, hc⟩

theorem poll_ne_ended {c : BalancerConfig} {d : Discovery IpAddr} {item : Discovered IpAddr}
    (h : d.task ≠ .ended) :
    (d.poll c item).task ≠ .ended := by
  unfold Discovery.poll
  split
  · split
    · split <;> exact nofun
    · exact nofun
    · exact h
  · exact h

theorem step_ne_ended {c : BalancerConfig} {b b' : Balancer IpAddr} {pe : Balancer.Event IpAddr}
    (h : b.discovery.task ≠ .ended) (hs : b.step c pe = some b') (hne : pe ≠ .streamEnded) :
    b'.discovery.task ≠ .ended := by
  cases Balancer.steps_of_step hs with
  | start => exact nofun
  | discovered => exact poll_ne_ended h
  | streamEnded => exact absurd rfl hne
  | _ => exact h

/-- Only where the resolving task could not start does the stream end. -/
theorem caughtUp_of_ended (h : Run.run (step cfg) new events = some p)
    (ht : p.balancer.discovery.task = .ended) :
    p.CaughtUp := by
  have hinv : cfg.dns.refreshInterval.nanos = 0 ∧ p.CaughtUp ∨
      cfg.dns.refreshInterval.nanos ≠ 0 ∧ p.balancer.discovery.task ≠ .ended := by
    refine Run.run_preserves (fun p => cfg.dns.refreshInterval.nanos = 0 ∧ p.CaughtUp ∨
      cfg.dns.refreshInterval.nanos ≠ 0 ∧ p.balancer.discovery.task ≠ .ended) ?_ ?_ h
    · by_cases hz : cfg.dns.refreshInterval.nanos = 0
      · exact .inl ⟨hz, rfl, rfl⟩
      · exact .inr ⟨hz, nofun⟩
    · intro p e p' hinv hs
      rcases step_cases hs with ⟨r, d, -, -, hz, -, rfl⟩ | ⟨item, outbox, -, hout, rfl⟩ |
        ⟨endpoints, item, channel, b, -, -, hch, hb, rfl⟩ | ⟨pe, b, -, -, hend, hb, rfl⟩
      · exact .inr (hinv.resolve_left fun h => hz h.1)
      · rcases hinv with ⟨-, -, hc⟩ | hinv
        · rw [hout] at hc; cases hc
        · exact .inr hinv
      · rcases hinv with ⟨-, hc, -⟩ | ⟨hz, ht⟩
        · rw [hch] at hc; cases hc
        · exact .inr ⟨hz, step_ne_ended ht hb nofun⟩
      · rcases hinv with hinv | ⟨hz, ht⟩
        · exact .inl hinv
        · exact .inr ⟨hz, step_ne_ended ht hb fun h => hz (hend h)⟩
  rcases hinv with ⟨-, hc⟩ | ⟨-, hne⟩
  · exact hc
  · exact absurd ht hne

theorem catch_up_of_running (h : Run.run (step cfg) new events = some p)
    (hu : ∀ item ∈ p.dns.sent.dropLast, ¬ (discovered item).Unusable cfg.balancer.lib)
    {endpoints : List (IpAddr × Endpoint)} (ht : p.balancer.discovery.task = .running endpoints) :
    ∃ events' p', lookupsOf events' = [] ∧ Run.run (step cfg) p events' = some p' ∧ p'.CaughtUp := by
  obtain ⟨es, hl, hr⟩ := @send_all cfg p
  have hsent : Piped cfg (events ++ es) { p with outbox := [], channel := p.channel ++ p.outbox } :=
    piped (by rw [Run.run_append, h]; exact hr)
  obtain ⟨es', p', hl', hr', hc⟩ := receive_all hsent rfl hu ht
  refine ⟨es ++ es', p', ?_, by rw [Run.run_append, hr]; exact hr', hc⟩
  rw [lookupsOf, List.filterMap_append, List.map_append]
  exact List.append_eq_nil_iff.2 ⟨hl, hl'⟩

theorem Piped.dns_run (h : Piped cfg events p) (h' : Piped cfg (events ++ events') p') :
    Run.run (DnsDiscovery.step cfg.dns) p.dns (events'.filterMap Event.resolution?) = some p'.dns := by
  have hr := h'.resolved
  rw [List.filterMap_append, Run.run_append, h.resolved] at hr
  exact hr

theorem sent_prefix {c : DnsDiscoveryConfig} {d d' : DnsDiscovery} {rs : List Resolution}
    (h : Run.run (DnsDiscovery.step c) d rs = some d') : d.sent <+: d'.sent := by
  refine Run.run_preserves (fun d' => d.sent <+: DnsDiscovery.sent d') List.prefix_rfl ?_ h
  intro d₁ r d₂ hp hs
  obtain ⟨items, hitems⟩ := sent_of_step hs
  rw [hitems]
  exact hp.trans (List.prefix_append ..)

/-- Without another lookup the proxy can come to serve all that was sent, exactly when no change but
the last names an unusable target. Otherwise it never catches up again, whatever is looked up. -/
theorem catches_up_iff (h : Run.run (step cfg) new events = some p) :
    ((∃ events' p', lookupsOf events' = [] ∧ Run.run (step cfg) p events' = some p' ∧ p'.CaughtUp) ↔
      ∀ item ∈ p.dns.sent.dropLast, ¬ (discovered item).Unusable cfg.balancer.lib) ∧
    ∀ events' p', Run.run (step cfg) p events' = some p' → p'.CaughtUp →
      ∀ item ∈ p.dns.sent.dropLast, ¬ (discovered item).Unusable cfg.balancer.lib := by
  have hp := piped h
  have hnever : ∀ events' p', Run.run (step cfg) p events' = some p' → p'.CaughtUp →
      ∀ item ∈ p.dns.sent.dropLast, ¬ (discovered item).Unusable cfg.balancer.lib := by
    intro events' p' hr hc item hm
    have hp' : Piped cfg (events ++ events') p' := piped (by rw [Run.run_append, h]; exact hr)
    have hall := hp'.usable
    rw [hp'.received_of_caughtUp hc, ← List.map_dropLast] at hall
    refine hall _ (List.mem_map_of_mem ?_)
    obtain ⟨items, hitems⟩ := sent_prefix (hp.dns_run hp')
    rw [← hitems]
    by_cases hne : items = []
    · rw [hne, List.append_nil]; exact hm
    · rw [List.dropLast_append_of_ne_nil hne]
      exact List.mem_append_left _ (List.dropLast_subset _ hm)
  refine ⟨⟨?_, ?_⟩, hnever⟩
  · rintro ⟨events', p', -, hr, hc⟩
    exact hnever events' p' hr hc
  · intro hu
    rcases hp.task_cases with hs | ⟨endpoints, ht⟩ | ⟨item, hm, hbad⟩ | ht
    · have hstart : step cfg p (.proxy .startDiscovery) = some { p with balancer := { p.balancer with
          discoveryStarted := true, discovery := { p.balancer.discovery with task := .running [] } } } := by
        simp only [step, Balancer.step, hs]; rfl
      have hrun : Run.run (step cfg) new (events ++ [.proxy .startDiscovery]) =
        some { p with balancer := { p.balancer with
          discoveryStarted := true, discovery := { p.balancer.discovery with task := .running [] } } } := by
        rw [Run.run_concat, h]; exact hstart
      obtain ⟨events', p', hl, hr, hc⟩ := catch_up_of_running hrun hu rfl
      exact ⟨.proxy .startDiscovery :: events', p', hl, by rw [Run.run_cons, hstart]; exact hr, hc⟩
    · exact catch_up_of_running h hu ht
    · -- nothing is left behind the unusable target
      refine ⟨[], p, rfl, rfl, ?_⟩
      obtain ⟨x, hx, rfl⟩ := List.mem_map.1 hm
      by_contra hc
      have hne : p.channel ++ p.outbox ≠ [] := fun h => hc (List.append_eq_nil_iff.1 h)
      refine hu x ?_ hbad
      rw [hp.sent, List.dropLast_append_of_ne_nil hne]
      exact List.mem_append_left _ hx
    · exact ⟨[], p, rfl, rfl, caughtUp_of_ended h ht⟩

/-- An IPv6 address among the answers, which the proxy does not get past. -/
theorem catches_up_iff_loopback :
    let a : IpAddr := .V4 ⟨(10, 0, 0, 1)⟩
    let loopback : IpAddr := .V6 ⟨[0, 0, 0, 0, 0, 0, 0, 1], rfl⟩
    let url := "http://10.0.0.1:80".toList
    let url' := "http://::1:80".toList
    ∃ p, Run.run (step plainPipeline) new [.proxy .startDiscovery,
        .resolve ⟨.ok [a, loopback], [], [(loopback, url'), (a, url)]⟩] = some p ∧
      ∀ events' p', Run.run (step plainPipeline) p events' = some p' → ¬ p'.CaughtUp := by
  intro a loopback url url'
  obtain ⟨p, hp, hsent⟩ : ∃ p, Run.run (step plainPipeline) new [.proxy .startDiscovery,
        .resolve ⟨.ok [a, loopback], [], [(loopback, url'), (a, url)]⟩] = some p ∧
      p.dns.sent = [.ok (.insert loopback url'), .ok (.insert a url)] := ⟨_, rfl, rfl⟩
  refine ⟨p, hp, fun events' p' hr hc => ?_⟩
  refine (catches_up_iff hp).2 events' p' hr hc (.ok (.insert loopback url')) ?_
    ⟨loopback, url', rfl, by decide⟩
  rw [hsent]
  exact List.mem_singleton_self _

/-! ### An address that stays -/

/-- A lookup that has an address the task knows sends nothing about it; one that has it not leaves it
unknown. -/
theorem step_of_known {c : DnsDiscoveryConfig} {d d' : DnsDiscovery} {r : Resolution}
    (hk : ip ∈ d.currentServices.keys) (hs : d.step c r = some d') :
    (∀ ips, r.lookup = .ok ips → ip ∈ ips) ∧ ip ∈ d'.currentServices.keys ∧
        (∃ items, d'.sent = d.sent ++ items ∧ ∀ item ∈ items, ¬ (discovered item).Touches ip) ∨
      (∃ ips, r.lookup = .ok ips ∧ ip ∉ ips) ∧ ip ∉ d'.currentServices.keys := by
  cases hl : r.lookup with
  | error err =>
    rw [DnsDiscovery.step_error hl, Option.some.injEq] at hs
    subst hs
    refine .inl ⟨nofun, hk, _, rfl, ?_⟩
    intro item hm
    rw [List.mem_singleton.1 hm]
    rintro ⟨_, ht, -⟩
    cases ht
  | ok ips =>
    obtain ⟨-, he, rfl⟩ := DnsDiscovery.step_ok hl hs
    have hkeys : ip ∈ (c.newServices ips).keys ↔ ip ∈ ips := by
      rw [mem_keys, c.lookup_newServices]
      split <;> simp_all
    by_cases hip : ip ∈ ips
    · refine .inl ⟨fun ips' h => by cases h; exact hip, hkeys.2 hip, _, rfl, ?_⟩
      intro item hm
      obtain ⟨change, hch, rfl⟩ := List.mem_map.1 hm
      rintro ⟨_, ht, hkey⟩
      cases ht
      rcases List.mem_append.1 hch with hch | hch
      · obtain ⟨j, hj, rfl⟩ := List.mem_map.1 hch
        have hnot := (List.mem_filter.1 hj).2
        rw [show j = ip from hkey] at hnot
        simp [hkeys.2 hip] at hnot
      · obtain ⟨x, hx, rfl⟩ := List.mem_map.1 hch
        have hnot := (List.mem_filter.1 hx).2
        rw [show x.1 = ip from hkey] at hnot
        simp [hk] at hnot
    · exact .inr ⟨⟨ips, rfl, hip⟩, fun h => hip (hkeys.1 h)⟩

/-- An address the task knows is not spoken of for as long as the lookups have it. When one has it
not, there is a moment at which the changes sent stand for no such address. -/
theorem run_of_known {c : DnsDiscoveryConfig} {d d' : DnsDiscovery} {rs : List Resolution}
    (hk : ip ∈ d.currentServices.keys) (hr : Run.run (DnsDiscovery.step c) d rs = some d') :
    (∀ ips, .ok ips ∈ rs.map (·.lookup) → ip ∈ ips) ∧ ip ∈ d'.currentServices.keys ∧
        (∃ items, d'.sent = d.sent ++ items ∧ ∀ item ∈ items, ¬ (discovered item).Touches ip) ∨
      (∃ ips, .ok ips ∈ rs.map (·.lookup) ∧ ip ∉ ips) ∧
        ∃ rs₁ rs₂ d₁, rs = rs₁ ++ rs₂ ∧ Run.run (DnsDiscovery.step c) d rs₁ = some d₁ ∧
          ip ∉ d₁.currentServices.keys := by
  induction rs using List.reverseRecOn generalizing d' with
  | nil =>
    cases hr
    exact .inl ⟨nofun, hk, [], by simp, nofun⟩
  | append_singleton rs r ih =>
    rw [Run.run_concat, Option.bind_eq_some_iff] at hr
    obtain ⟨d₀, hr₀, hs⟩ := hr
    rw [List.map_append]
    rcases ih hr₀ with ⟨hall, hk₀, items, hitems, hnot⟩ | ⟨⟨ips, hips, hip⟩, rs₁, rs₂, d₁, rfl, hr₁, hd₁⟩
    · rcases step_of_known hk₀ hs with ⟨hlast, hk', items', hitems', hnot'⟩ | ⟨⟨ips, hl, hip⟩, hk'⟩
      · refine .inl ⟨?_, hk', items ++ items', by rw [hitems', hitems, List.append_assoc], ?_⟩
        · intro ips hm
          rcases List.mem_append.1 hm with hm | hm
          · exact hall ips hm
          · exact hlast ips (List.mem_singleton.1 hm).symm
        · exact List.forall_mem_append.2 ⟨hnot, hnot'⟩
      · refine .inr ⟨⟨ips, List.mem_append_right _ (by rw [← hl]; simp), hip⟩, rs ++ [r], [],
          d', by simp, ?_, hk'⟩
        rw [Run.run_concat, hr₀]
        exact hs
    · exact .inr ⟨⟨ips, List.mem_append_left _ hips, hip⟩, rs₁, rs₂ ++ [r], d₁, by simp, hr₁, hd₁⟩

/-- Between two moments at which nothing is on its way, an address keeps its endpoint and with it the
load measured, exactly when every lookup in between that succeeded had it. -/
theorem endpoint_kept_iff (h : Run.run (step cfg) new events = some p)
    (h' : Run.run (step cfg) p events' = some p') (hc : p.CaughtUp) (hc' : p'.CaughtUp)
    {endpoint : Endpoint} (hl : (p.services cfg).lookup ip = some endpoint) :
    (p'.services cfg).lookup ip = some endpoint ↔ ∀ ips, .ok ips ∈ lookupsOf events' → ip ∈ ips := by
  have hp := piped h
  have hp' : Piped cfg (events ++ events') p' := piped (by rw [Run.run_append, h]; exact h')
  have hrun := hp.dns_run hp'
  rw [services, hp.received_of_caughtUp hc] at hl
  rw [services, hp'.received_of_caughtUp hc']
  have hk : ip ∈ p.dns.currentServices.keys := by
    have hmem : ip ∈ (registry cfg.balancer (p.dns.sent.map discovered)).services.keys := by
      rw [mem_keys, hl]; rfl
    exact ((mem_keys_registry_sent hp.resolved).1 hmem).1
  rcases run_of_known hk hrun with ⟨hall, -, items, hitems, hnot⟩ |
    ⟨⟨ips, hips, hip⟩, rs₁, rs₂, d₁, hrs, hr₁, hd₁⟩
  · refine iff_of_true ?_ hall
    rw [hitems, List.map_append, lookup_registry_append]
    · exact hl
    · intro item hm
      obtain ⟨x, hx, rfl⟩ := List.mem_map.1 hm
      exact hnot x hx
  · refine iff_of_false (fun hl' => ?_) fun hall => hip (hall ips hips)
    rw [hrs, Run.run_append, hr₁] at hrun
    obtain ⟨before, hbefore⟩ := sent_prefix hr₁
    obtain ⟨after, hafter⟩ := sent_prefix hrun
    have hr : Run.run (DnsDiscovery.step cfg.dns) .new (events.filterMap Event.resolution? ++ rs₁) =
      some d₁ := by
      rw [Run.run_append, hp.resolved]; exact hr₁
    -- the endpoint that came back later is a new one
    have hnone : (registry cfg.balancer (d₁.sent.map discovered)).services.lookup ip = none :=
      lookup_eq_none_iff.2 fun hm => hd₁ ((mem_keys_registry_sent hr).1 hm).1
    rw [← hafter, List.map_append] at hl'
    have hnew := nextMetrics_le_of_lookup hnone hl'
    have hold := (Seen.now hl).metrics_lt
    have hle : (registry cfg.balancer (p.dns.sent.map discovered)).nextMetrics ≤ _ :=
      nextMetrics_le_append (before.map discovered)
    rw [← List.map_append, hbefore] at hle
    exact absurd (Nat.lt_of_lt_of_le hold hle) (Nat.not_lt.2 hnew)

/-- An address that is in both lookups. -/
theorem endpoint_kept_iff_other_gone :
    let a : IpAddr := .V4 ⟨(10, 0, 0, 1)⟩
    let b : IpAddr := .V4 ⟨(10, 0, 0, 2)⟩
    let url := "http://10.0.0.1:80".toList
    let url' := "http://10.0.0.2:80".toList
    ∃ p p' endpoint, Run.run (step plainPipeline) new [.proxy .startDiscovery,
        .resolve ⟨.ok [b, a], [], [(b, url'), (a, url)]⟩, .send, .send, .receive, .receive] = some p ∧
      Run.run (step plainPipeline) p [.resolve ⟨.ok [a], [b, a], [(a, url)]⟩, .send, .receive] = some p' ∧
      (p.services plainPipeline).lookup a = some endpoint ∧ (p'.services plainPipeline).lookup a =
        some endpoint := by
  intro a b url url'
  obtain ⟨p, hp, hc, endpoint, hl⟩ : ∃ p, Run.run (step plainPipeline) new [.proxy .startDiscovery,
        .resolve ⟨.ok [b, a], [], [(b, url'), (a, url)]⟩, .send, .send, .receive, .receive] = some p ∧
      p.CaughtUp ∧ ∃ endpoint, (p.services plainPipeline).lookup a = some endpoint :=
        ⟨_, rfl, ⟨rfl, rfl⟩, _, rfl⟩
  obtain ⟨p', hp', hc'⟩ : ∃ p', Run.run (step plainPipeline) p
      [.resolve ⟨.ok [a], [b, a], [(a, url)]⟩, .send, .receive] = some p' ∧ p'.CaughtUp := by
    cases hp
    exact ⟨_, rfl, rfl, rfl⟩
  refine ⟨p, p', endpoint, hp, hp', hl, (endpoint_kept_iff hp hp' hc hc' hl).2 ?_⟩
  intro ips hm
  cases List.mem_singleton.1 hm
  exact List.mem_singleton_self a

end Pipeline

end AxumReverseProxy
