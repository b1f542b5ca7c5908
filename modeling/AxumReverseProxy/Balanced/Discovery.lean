import AxumReverseProxy.Balanced.Registry

/-!
# Discovery over whole runs

What a run has published depends on the items that came and on nothing the requests did
(`Balancer.Follows`). Up to the first item with an unusable target it is the registry of the items,
and after it nothing is applied any more; `discovery_survives_iff` and `snapshot_refines_registry`
are read off that.
-/

namespace AxumReverseProxy

open OrderedMap

variable {κ : Type} [DecidableEq κ] {cfg : BalancerConfig} {items items' : List (Discovered κ)}
  {item : Discovered κ} {k : κ}

/-! ### The discovery task alone -/

def polled (cfg : BalancerConfig) (items : List (Discovered κ)) : Discovery κ :=
  items.foldl (Discovery.poll cfg) ⟨.running [], [], 0⟩

@[simp] theorem polled_nil : polled cfg ([] : List (Discovered κ)) = ⟨.running [], [], 0⟩ := rfl

theorem polled_concat (item : Discovered κ) :
    polled cfg (items ++ [item]) = (polled cfg items).poll cfg item := by
  rw [polled, List.foldl_append]; rfl

theorem polled_refines (h : ∀ item ∈ items, ¬ item.Unusable cfg.lib) :
    (polled cfg items).Refines (registry cfg items) := by
  induction items using List.reverseRecOn with
  | nil => exact ⟨rfl, rfl, rfl⟩
  | append_singleton items item ih =>
    rw [List.forall_mem_append] at h
    rw [polled_concat, registry_concat]
    exact (ih h.1).poll (h.2 item (List.mem_singleton_self _))

/-- Once an unusable target has come the task is gone, and what it had published stays. -/
theorem polled_append_of_panicked (h : (polled cfg items).task = .panicked) (items' : List (Discovered κ)) :
    polled cfg (items ++ items') = polled cfg items := by
  induction items' using List.reverseRecOn with
  | nil => rw [List.append_nil]
  | append_singleton items' item ih =>
    rw [← List.append_assoc, polled_concat, ih, Discovery.poll_panicked h]

theorem polled_cases (cfg : BalancerConfig) (items : List (Discovered κ)) :
    (∀ item ∈ items, ¬ item.Unusable cfg.lib) ∨
      ∃ pre bad post, items = pre ++ bad :: post ∧ bad.Unusable cfg.lib ∧
        (∀ item ∈ pre, ¬ item.Unusable cfg.lib) ∧
        (polled cfg items).task = .panicked ∧ (polled cfg items).snapshot =
          (registry cfg pre).services.values := by
  induction items using List.reverseRecOn with
  | nil => exact .inl (by simp)
  | append_singleton items item ih =>
    rcases ih with h | ⟨pre, bad, post, rfl, hbad, hpre, ht, hs⟩
    · by_cases hu : item.Unusable cfg.lib
      · have hp := (polled_refines h).poll_unusable hu
        rw [← polled_concat] at hp
        refine .inr ⟨items, item, [], rfl, hu, h, ?_, ?_⟩
        · rw [hp]
        · rw [hp]; exact (polled_refines h).snapshot
      · refine .inl (List.forall_mem_append.2 ⟨h, fun x hx => ?_⟩)
        rwa [List.mem_singleton.1 hx]
    · refine .inr ⟨pre, bad, post ++ [item], by simp, hbad, hpre, ?_⟩
      rw [polled_append_of_panicked ht]
      exact ⟨ht, hs⟩

theorem seen_of_mem_polled {e : Endpoint} (h : e ∈ (polled cfg items).snapshot) :
    ∃ k, Seen cfg items k e := by
  rcases polled_cases cfg items with hall | ⟨pre, bad, post, rfl, -, -, -, hs⟩
  · rw [(polled_refines hall).snapshot] at h
    obtain ⟨k, hk⟩ := mem_values.1 h
    exact ⟨k, .now hk⟩
  · rw [hs] at h
    obtain ⟨k, hk⟩ := mem_values.1 h
    exact ⟨k, pre, List.prefix_append .., hk⟩

/-- An item that leaves the registry as it is. -/
def Discovered.Idle (lib : UriLib) (before : List (Discovered κ)) (item : Discovered κ) : Prop :=
  item = .error ∨ item.Unusable lib ∨ ∃ k, item = .change (.remove k) ∧ ¬ Live lib before k

/-- Behind an unusable target only idle items come. -/
def Unharmed (lib : UriLib) (items : List (Discovered κ)) : Prop :=
  ∀ pre bad mid item post, items = pre ++ bad :: (mid ++ item :: post) → bad.Unusable lib →
    item.Idle lib (pre ++ bad :: mid)

omit [DecidableEq κ] in
theorem Unharmed.concat {lib : UriLib} (h : Unharmed lib items) (hi : item.Idle lib items) :
    Unharmed lib (items ++ [item]) := by
  intro pre bad mid last post he hbad
  rcases List.eq_nil_or_concat post with rfl | ⟨post, x, rfl⟩
  · rw [← List.cons_append, ← List.append_assoc] at he
    obtain ⟨rfl, hlast⟩ := List.append_inj' he rfl
    cases hlast
    exact hi
  · refine h pre bad mid last post ?_ hbad
    have : items ++ [item] = (pre ++ bad :: (mid ++ last :: post)) ++ [x] := by rw [he]; simp
    exact (List.append_inj' this rfl).1

theorem registry_concat_of_idle (h : item.Idle cfg.lib items) :
    registry cfg (items ++ [item]) = registry cfg items := by
  rw [registry_concat]
  rcases h with rfl | ⟨key, target, rfl, hu⟩ | ⟨key, rfl, hl⟩
  · rfl
  · simp only [Registry.apply, endpoint_of_unusable hu]
  · rw [← mem_keys_registry cfg] at hl
    simp only [Registry.apply, remove_of_not_mem hl]

theorem idle_of_values_eq
    (h : (registry cfg (items ++ [item])).services.values = (registry cfg items).services.values) :
    item.Idle cfg.lib items := by
  rw [registry_concat] at h
  rcases (registry cfg items).apply_cases cfg item with ⟨key, target, e, rfl, he, hr⟩ |
    ⟨key, rfl, hr⟩ | ⟨hi, -⟩
  · have hmem : e ∈ (registry cfg items).services.values := by
      rw [← h, hr]
      exact mem_values.2 ⟨key, lookup_insert_self⟩
    obtain ⟨k, hk⟩ := mem_values.1 hmem
    have hlt := (Seen.now hk).metrics_lt
    rw [endpoint_metrics he] at hlt
    exact absurd hlt (Nat.lt_irrefl _)
  · refine .inr (.inr ⟨key, rfl, fun hl => ?_⟩)
    rw [← mem_keys_registry cfg] at hl
    have hlt := length_values_remove_lt hl
    rw [hr] at h
    rw [h] at hlt
    exact absurd hlt (Nat.lt_irrefl _)
  · exact hi.elim .inl fun h => .inr (.inl h)

theorem panicked_of_mem {bad : Discovered κ} (h : bad ∈ items) (hbad : bad.Unusable cfg.lib) :
    (polled cfg items).task = .panicked := by
  rcases polled_cases cfg items with hall | ⟨-, -, -, -, -, -, ht, -⟩
  · exact absurd hbad (hall bad h)
  · exact ht

/-- At every point of the stream the registry is published, exactly when nothing is lost behind an
unusable target. -/
theorem published_iff :
    (∀ pre, pre <+: items → (polled cfg pre).snapshot = (registry cfg pre).services.values) ↔
      Unharmed cfg.lib items := by
  constructor
  · intro h pre bad mid item post he hbad
    have ht : (polled cfg (pre ++ bad :: mid)).task = .panicked := panicked_of_mem (by simp) hbad
    have h1 := h (pre ++ bad :: mid) ⟨item :: post, by rw [he]; simp⟩
    have h2 := h (pre ++ bad :: mid ++ [item]) ⟨post, by rw [he]; simp⟩
    rw [polled_append_of_panicked ht, h1] at h2
    exact idle_of_values_eq h2.symm
  · intro h pre hpre
    induction pre using List.reverseRecOn with
    | nil => rfl
    | append_singleton pre item ih =>
      rcases polled_cases cfg pre with hall | ⟨a, bad, mid, rfl, hbad, -, ht, -⟩
      · by_cases hu : item.Unusable cfg.lib
        · rw [registry_concat_of_idle (.inr (.inl hu)), polled_concat,
            (polled_refines hall).poll_unusable hu]
          exact (polled_refines hall).snapshot
        · rw [polled_concat, registry_concat]
          exact ((polled_refines hall).poll hu).snapshot
      · obtain ⟨post, rfl⟩ := hpre
        have hidle := h a bad mid item post (by simp) hbad
        rw [polled_append_of_panicked ht, registry_concat_of_idle hidle]
        exact ih ⟨item :: post, by simp⟩

/-! ### Runs -/

namespace Balancer

open Run

def Event.item? : Event κ → Option (Discovered κ)
  | .discovered item => some item
  | _ => none

def itemsOf (events : List (Event κ)) : List (Discovered κ) := events.filterMap Event.item?

/-- What discovery has come to after a run. -/
def Follows (cfg : BalancerConfig) (events : List (Event κ)) (b : Balancer κ) : Prop :=
  b.discovery = .new ∧ itemsOf events = [] ∧ b.discoveryStarted = false ∨
    b.discoveryStarted = true ∧ (b.discovery = polled cfg (itemsOf events) ∨
      b.discovery.task = .ended ∧ b.discovery.snapshot = (polled cfg (itemsOf events)).snapshot)

variable {b b' : Balancer κ} {e : Event κ} {events : List (Event κ)}

omit [DecidableEq κ] in
theorem itemsOf_concat_of_none (h : e.item? = none) : itemsOf (events ++ [e]) = itemsOf events := by
  rw [itemsOf, List.filterMap_append, List.filterMap_cons_none h, List.filterMap_nil,
    List.append_nil, itemsOf]

theorem follows_step (h : Follows cfg events b) (hs : Steps cfg b e b') :
    Follows cfg (events ++ [e]) b' := by
  cases hs with
  | start hn =>
    rcases h with ⟨hd, hi, -⟩ | ⟨hs, -⟩
    · refine .inr ⟨rfl, .inl ?_⟩
      rw [itemsOf_concat_of_none rfl, hi, hd]; rfl
    · rw [hn] at hs; cases hs
  | startAgain => unfold Follows; rw [itemsOf_concat_of_none rfl]; exact h
  | @discovered item hidle hended =>
    have hi : itemsOf (events ++ [.discovered item]) = itemsOf events ++ [item] := List.filterMap_append ..
    rcases h with ⟨hd, -, -⟩ | ⟨hs, hd | ⟨ht, -⟩⟩
    · rw [hd] at hidle
      exact absurd rfl hidle
    · refine .inr ⟨hs, .inl ?_⟩
      rw [hi, polled_concat, ← hd]
    · exact absurd ht hended
  | streamEnded ht =>
    rcases h with ⟨hd, -, -⟩ | ⟨hs, hd | ⟨ht', -⟩⟩
    · rw [hd] at ht; cases ht
    · refine .inr ⟨hs, .inr ⟨rfl, ?_⟩⟩
      rw [itemsOf_concat_of_none rfl, ← hd]
    · rw [ht'] at ht; cases ht
  | _ => unfold Follows; rw [itemsOf_concat_of_none rfl]; exact h

theorem follows (h : run (step cfg) new events = some b) : Follows cfg events b :=
  run_invariant (Follows cfg) (.inl ⟨rfl, rfl, rfl⟩) (fun h hs => follows_step h (steps_of_step hs)) h

theorem snapshot_eq_polled (h : run (step cfg) new events = some b) :
    b.discovery.snapshot = (polled cfg (itemsOf events)).snapshot := by
  rcases follows h with ⟨hd, hi, -⟩ | ⟨-, hd | ⟨-, hd⟩⟩
  · rw [hd, hi]; rfl
  · rw [hd]
  · exact hd

theorem run_of_isPrefix {pre : List (Event κ)} (h : run (step cfg) new events = some b)
    (hp : pre <+: events) :
    ∃ v, run (step cfg) new pre = some v := by
  obtain ⟨post, rfl⟩ := hp
  rw [run_append, Option.bind_eq_some_iff] at h
  exact ⟨_, h.choose_spec.1⟩

/-- In every state of a run the published endpoints are those of the items so far, unusable targets
and errors left out, exactly when only idle items come behind an unusable target. -/
theorem discovery_survives_iff (h : run (step cfg) new events = some b) :
    (∀ pre v, pre <+: events → run (step cfg) new pre = some v →
        v.discovery.snapshot = (registry cfg (itemsOf pre)).services.values) ↔
      Unharmed cfg.lib (itemsOf events) := by
  rw [← published_iff]
  constructor
  · rintro hall pre ⟨post, hpre⟩
    obtain ⟨pre, post, rfl, rfl, -⟩ := List.filterMap_eq_append_iff.1 hpre.symm
    obtain ⟨v, hv⟩ := run_of_isPrefix h (List.prefix_append pre post)
    rw [← itemsOf, ← snapshot_eq_polled hv]
    exact hall pre v (List.prefix_append ..) hv
  · intro hall pre v hp hv
    rw [snapshot_eq_polled hv]
    exact hall _ (hp.filterMap _)

def plainConfig (strategy : LoadBalancingStrategy) : BalancerConfig := ⟨.plain, 64, ['/'], strategy, {}⟩

/-- An error and the removal of an absent key behind a target without a host. -/
theorem discovery_survives_iff_idle :
    let events : List (Event Nat) := [.startDiscovery, .discovered (.change (.insert 0 "http://up".toList)),
      .discovered (.change (.insert 1 "/v1".toList)), .discovered .error, .discovered (.change (.remove 1))]
    ∃ b : Balancer Nat, run (step (plainConfig .roundRobin)) new events = some b ∧
      b.discovery.task = .panicked ∧
      ∀ pre v, pre <+: events → run (step (plainConfig .roundRobin)) new pre = some v →
        v.discovery.snapshot = (registry (plainConfig .roundRobin) (itemsOf pre)).services.values := by
  intro events
  refine ⟨_, rfl, rfl, (discovery_survives_iff rfl).2 ?_⟩
  have hlive : ¬ Live (plainConfig .roundRobin).lib
      [.change (.insert 0 "http://up".toList), .change (.insert 1 "/v1".toList), .error] 1 := by
    rw [← mem_keys_registry (plainConfig .roundRobin)]
    decide
  have hfirst : Unharmed UriLib.plain [Discovered.change (.insert 0 "http://up".toList)] := by
    intro pre bad mid item post he
    have := congrArg List.length he
    simp only [List.length_append, List.length_cons, List.length_nil] at this
    omega
  exact ((hfirst.concat (.inr (.inl ⟨1, "/v1".toList, rfl, by decide⟩))).concat (.inl rfl)).concat
    (.inr (.inr ⟨1, rfl, hlive⟩))

/-- A target without a host ends discovery: the endpoint that comes behind it is never published. -/
theorem discovery_dies_of_bad_target :
    ∃ b : Balancer Nat, run (step (plainConfig .roundRobin)) new
        [.startDiscovery, .discovered (.change (.insert 0 "/v1".toList)),
          .discovered (.change (.insert 1 "http://up".toList)), .startDiscovery] = some b ∧
      b.discovery.snapshot = [] ∧
      ((registry (plainConfig .roundRobin) [.change (.insert 0 "/v1".toList),
        .change (.insert 1 "http://up".toList)]).services.values.map fun e => e.proxy.target) =
          ["http://up".toList] :=
  ⟨_, rfl, rfl, by decide⟩

/-! ### Requests and their snapshots -/

theorem requests_of_step (hs : Steps cfg b e b') :
    e = .call ∧ b'.requests = b.requests ++ [⟨b.discovery.snapshot, .created⟩] ∨
      ∀ (i : Nat) (r' : InFlight), b'.requests[i]? = some r' →
        ∃ r, b.requests[i]? = some r ∧ r'.snapshot = r.snapshot := by
  have hset : ∀ {i : Nat} {r : InFlight} (phase : InFlight.Phase), b.requests[i]? = some r →
      ∀ (j : Nat) (r' : InFlight), (b.requests.set i ⟨r.snapshot, phase⟩)[j]? = some r' →
        ∃ r, b.requests[j]? = some r ∧ r'.snapshot = r.snapshot := by
    intro i r phase hr j r' hj
    by_cases hij : i = j
    · subst hij
      rw [List.getElem?_set_self (List.getElem?_eq_some_iff.1 hr).1] at hj
      cases hj
      exact ⟨r, hr, rfl⟩
    · rw [List.getElem?_set_ne hij] at hj
      exact ⟨r', hj, rfl⟩
  cases hs with
  | call => exact .inl ⟨rfl, rfl⟩
  | refused hr => exact .inr (hset _ hr)
  | dispatched hr => exact .inr (hset _ hr)
  | completed hr => exact .inr (hset _ hr)
  | cancelled hr => exact .inr (hset _ hr)
  | discarded hr => exact .inr (hset _ hr)
  | _ => exact .inr fun i r' hr => ⟨r', hr, rfl⟩

/-- Request `i` was made by a `call`, and holds the snapshot of that moment. -/
def CalledAt (cfg : BalancerConfig) (events : List (Event κ)) (i : Nat) (snapshot : Snapshot) : Prop :=
  ∃ pre post v, events = pre ++ .call :: post ∧ run (step cfg) new pre = some v ∧ v.requests.length = i ∧
    snapshot = v.discovery.snapshot

theorem CalledAt.concat {i : Nat} {snapshot : Snapshot} (h : CalledAt cfg events i snapshot) (e : Event κ) :
    CalledAt cfg (events ++ [e]) i snapshot := by
  obtain ⟨pre, post, v, rfl, hv⟩ := h
  exact ⟨pre, post ++ [e], v, by simp, hv⟩

theorem calledAt (h : run (step cfg) new events = some b) {i : Nat} {r : InFlight}
    (hr : b.requests[i]? = some r) :
    CalledAt cfg events i r.snapshot := by
  have hinv : run (step cfg) new events = some b ∧
      ∀ (i : Nat) (r : InFlight), b.requests[i]? = some r → CalledAt cfg events i r.snapshot := by
    refine run_invariant (fun events b => run (step cfg) new events = some b ∧
      ∀ (i : Nat) (r : InFlight), b.requests[i]? = some r → CalledAt cfg events i r.snapshot)
        ⟨rfl, by simp [new]⟩ ?_ h
    rintro events b e b' ⟨hrun, hc⟩ hs
    refine ⟨by rw [run_concat, hrun]; exact hs, fun i r' hr' => ?_⟩
    rcases requests_of_step (steps_of_step hs) with ⟨rfl, hreq⟩ | hreq
    · rw [hreq] at hr'
      by_cases hi : i < b.requests.length
      · rw [List.getElem?_append_left hi] at hr'
        exact (hc i r' hr').concat _
      · have hlen := (List.getElem?_eq_some_iff.1 hr').1
        rw [List.length_append, List.length_singleton] at hlen
        obtain rfl : i = b.requests.length := by omega
        rw [List.getElem?_concat_length] at hr'
        cases hr'
        exact ⟨events, [], b, rfl, hrun, rfl, rfl⟩
    · obtain ⟨r, hr, hsn⟩ := hreq i r' hr'
      rw [hsn]
      exact (hc i r hr).concat e
  exact hinv.2 i r hr

theorem CalledAt.seen {i : Nat} {snapshot : Snapshot} {endpoint : Endpoint}
    (h : CalledAt cfg events i snapshot)
    (he : endpoint ∈ snapshot) : ∃ k, Seen cfg (itemsOf events) k endpoint := by
  obtain ⟨pre, post, v, rfl, hv, -, rfl⟩ := h
  rw [snapshot_eq_polled hv] at he
  obtain ⟨k, hk⟩ := seen_of_mem_polled he
  exact ⟨k, hk.mono ((List.prefix_append pre _).filterMap _)⟩

/-! ### The snapshot as a map -/

/-- What an item does to the entries of the registry: an insert brings an endpoint of its target with
metrics nothing had before, in the place of the key's entry or at the end. -/
def ItemLaw (cfg : BalancerConfig) (items : List (Discovered κ)) (item : Discovered κ) : Prop :=
  let m := (registry cfg items).services
  let m' := (registry cfg (items ++ [item])).services
  match item with
  | .change (.insert key target) => ∃ e, cfg.endpoint target e.metrics = some e ∧
      (∀ k old, Seen cfg items k old → old.metrics ≠ e.metrics) ∧
      (key ∈ m.keys → ∃ a old b, m.entries = a ++ (key, old) :: b ∧ m'.entries = a ++ (key, e) :: b) ∧
      (key ∉ m.keys → m'.entries = m.entries ++ [(key, e)])
  | .change (.remove key) => m'.entries = m.entries.filter fun e => e.1 ≠ key
  | .error => m'.entries = m.entries

theorem itemLaw (h : ∀ key target, item = .change (.insert key target) →
    usableTarget cfg.lib target = true) :
    ItemLaw cfg items item := by
  unfold ItemLaw
  simp only [registry_concat]
  rcases item with (⟨key, target⟩ | key) | -
  · obtain ⟨e, he, hm⟩ := endpoint_of_usable (h key target rfl) (registry cfg items).nextMetrics
    have hr : (registry cfg items).apply cfg (.change (.insert key target)) =
        ⟨(registry cfg items).services.insert key e, (registry cfg items).nextMetrics + 1⟩ := by
      simp only [Registry.apply, he]
    rw [hr]
    refine ⟨e, by rw [hm]; exact he, fun k old hs => ?_, fun hk => ?_,
      fun hk => entries_insert_of_not_mem hk⟩
    · rw [hm]; exact Nat.ne_of_lt hs.metrics_lt
    · obtain ⟨a, old, b, h1, h2, -⟩ := entries_insert_of_mem (v := e) hk
      exact ⟨a, old, b, h1, h2⟩
  · exact entries_remove
  · rfl

/-- When every target is usable, what is published after any part of a run is the list of values of
the insertion-ordered map the items fold into, with one endpoint for each live key. A request holds
the snapshot of its call, and an endpoint no item has touched since is still the current one; a
metrics object belongs to one endpoint in all snapshots there have been. -/
theorem snapshot_refines_registry (h : run (step cfg) new events = some b)
    (hu : ∀ key target, .change (.insert key target) ∈ itemsOf events →
      usableTarget cfg.lib target = true) :
    (∀ pre v, pre <+: events → run (step cfg) new pre = some v →
      v.discovery.snapshot = (registry cfg (itemsOf pre)).services.values) ∧
    (∀ k, k ∈ (registry cfg (itemsOf events)).services.keys ↔ Live cfg.lib (itemsOf events) k) ∧
    (∀ items item, items ++ [item] <+: itemsOf events → ItemLaw cfg items item) ∧
    (∀ (i : Nat) r, b.requests[i]? = some r → CalledAt cfg events i r.snapshot) ∧
    (∀ items later k, itemsOf events = items ++ later → (∀ item ∈ later, ¬ item.Touches k) →
      (registry cfg (itemsOf events)).services.lookup k = (registry cfg items).services.lookup k) ∧
    ∀ k e k' e', Seen cfg (itemsOf events) k e → Seen cfg (itemsOf events) k' e' → e.metrics = e'.metrics →
      k = k' ∧ e = e' := by
  have hall : ∀ item ∈ itemsOf events, ¬ item.Unusable cfg.lib := by
    rintro item hi ⟨key, target, rfl, hbad⟩
    rw [hu key target hi] at hbad
    cases hbad
  refine ⟨fun pre v hp hv => ?_, fun k => mem_keys_registry cfg,
    fun items item hp => itemLaw fun key target hi => ?_,
    fun i r hr => calledAt h hr, fun items later k he ht => ?_,
      fun k e k' e' hs hs' => hs.eq_of_metrics hs'⟩
  · rw [snapshot_eq_polled hv]
    exact (polled_refines fun item hi => hall item ((hp.filterMap Event.item?).subset hi)).snapshot
  · exact hu key target (hp.subset (by simp [hi]))
  · rw [he]; exact lookup_registry_append ht

/-- A service replaced while a request of the first endpoint is in flight. -/
theorem snapshot_refines_registry_replaced :
    ∃ b : Balancer Nat, run (step (plainConfig .roundRobin)) new
        [.startDiscovery, .discovered (.change (.insert 0 "http://a".toList)), .call,
          .discovered (.change (.insert 0 "http://b".toList))] = some b ∧
      b.discovery.snapshot = (registry (plainConfig .roundRobin) (itemsOf
        [.startDiscovery, .discovered (.change (.insert 0 "http://a".toList)), .call,
          .discovered (.change (.insert 0 "http://b".toList))])).services.values := by
  obtain ⟨b, hb⟩ : ∃ b : Balancer Nat, run (step (plainConfig .roundRobin)) new
      [.startDiscovery, .discovered (.change (.insert 0 "http://a".toList)), .call,
        .discovered (.change (.insert 0 "http://b".toList))] = some b := ⟨_, rfl⟩
  refine ⟨b, hb, (snapshot_refines_registry hb ?_).1 _ b List.prefix_rfl hb⟩
  intro key target hm
  simp only [itemsOf, List.filterMap_cons, Event.item?, List.filterMap_nil, List.mem_cons,
    List.not_mem_nil, or_false, Discovered.change.injEq, Change.insert.injEq] at hm
  rcases hm with ⟨-, rfl⟩ | ⟨-, rfl⟩ <;> decide

end Balancer

end AxumReverseProxy
