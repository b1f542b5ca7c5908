import AxumReverseProxy.Balanced.Discovery
import AxumReverseProxy.Lib.Turns

/-!
# Round robin

`BalancedProxy` and `DiscoverableBalancedProxy` both draw a ticket from a shared counter for each
request. The counter is the number of tickets drawn, up to the width of `usize`, whichever clone
draws them; so consecutive tickets on one list of upstreams take turns (`round_robin_fair`).
-/

namespace AxumReverseProxy

open Run (run run_invariant)
open Turns (Fair turns fair_turns)

structure BalancedProxy where
  path : Str
  proxies : List ReverseProxy
deriving DecidableEq

namespace BalancedProxy

/-- `new_with_client`; `none` is the panic on an invalid target. -/
def new (lib : UriLib) (path : Str) (targets : List Str) : Option BalancedProxy :=
  (targets.mapM (ReverseProxy.new lib path)).map (⟨path, ·⟩)

def withPolicy (self : BalancedProxy) (policy : ProxyPolicy) : BalancedProxy :=
  { self with proxies := self.proxies.map (·.withPolicy policy) }

/-- `next_proxy`: the upstream selected, with its index, and the counter behind the `fetch_add`. The
outer `none` is the panic on an index out of range. -/
def nextProxy (usizeBits : Nat) (self : BalancedProxy) (counter : Nat) :
    Option (Option (Nat × ReverseProxy) × Nat) :=
  if self.proxies = [] then some (none, counter)
  else
    let idx := counter % self.proxies.length
    self.proxies[idx]?.map fun proxy => (some (idx, proxy), (counter + 1) % 2 ^ usizeBits)

end BalancedProxy

/-- The clones of a proxy with the counter they share, and the upstreams their requests went to in
the order of the tickets. -/
structure SharedProxy where
  clones : List BalancedProxy
  counter : Nat
  dispatched : List Nat

def BalancedProxy.share (self : BalancedProxy) : SharedProxy := ⟨[self], 0, []⟩

namespace SharedProxy

inductive Event
  | clone (i : Nat)
  | withPolicy (i : Nat) (policy : ProxyPolicy)
  | call (i : Nat)

def Event.isCall : Event → Bool
  | .call _ => true
  | .clone _ | .withPolicy _ _ => false

def step (usizeBits : Nat) (s : SharedProxy) : Event → Option SharedProxy
  | .clone i => s.clones[i]?.map fun proxy => { s with clones := s.clones ++ [proxy] }
  | .withPolicy i policy =>
    s.clones[i]?.map fun proxy => { s with clones := s.clones.set i (proxy.withPolicy policy) }
  | .call i => do
    let proxy ← s.clones[i]?
    let (next, counter) ← proxy.nextProxy usizeBits s.counter
    some { s with counter, dispatched := s.dispatched ++ next.toList.map (·.1) }

end SharedProxy

/-! ### Tickets of a `BalancedProxy` -/

section

variable {usizeBits n : Nat} {p : BalancedProxy} {s s' : SharedProxy} {events : List SharedProxy.Event}
  {e : SharedProxy.Event}

theorem BalancedProxy.nextProxy_eq (usizeBits : Nat) (hn : 0 < p.proxies.length) (counter : Nat) :
    ∃ proxy, p.proxies[counter % p.proxies.length]? = some proxy ∧ p.nextProxy usizeBits counter =
      some (some (counter % p.proxies.length, proxy), (counter + 1) % 2 ^ usizeBits) := by
  have hlt : counter % p.proxies.length < p.proxies.length := Nat.mod_lt _ hn
  refine ⟨p.proxies[counter % p.proxies.length], List.getElem?_eq_getElem hlt, ?_⟩
  rw [nextProxy, if_neg (List.ne_nil_of_length_pos hn)]
  simp only [List.getElem?_eq_getElem hlt, Option.map_some]

/-- The place of ticket `t`, whose number the counter has only up to the width of `usize`. -/
def placeOf (usizeBits n t : Nat) : Nat := t % 2 ^ usizeBits % n

/-- Every clone has `n` upstreams, and the counter and the requests sent are those of the tickets
drawn so far. -/
structure SharedProxy.Ticketed (usizeBits n : Nat) (s : SharedProxy) : Prop where
  clones : ∀ p ∈ s.clones, p.proxies.length = n
  counter : s.counter = s.dispatched.length % 2 ^ usizeBits
  dispatched : s.dispatched = (List.range s.dispatched.length).map (placeOf usizeBits n)

/-- A call through a clone goes to the proxy that the ticket selects, and is the one request added. -/
theorem SharedProxy.step_call (hn : 0 < n) (h : s.Ticketed usizeBits n) {i : Nat}
    (hp : s.clones[i]? = some p) :
    ∃ proxy, p.proxies[s.counter % n]? = some proxy ∧
      p.nextProxy usizeBits s.counter =
        some (some (s.counter % n, proxy), (s.counter + 1) % 2 ^ usizeBits) ∧
      s.step usizeBits (.call i) = some { s with
        counter := (s.counter + 1) % 2 ^ usizeBits
        dispatched := s.dispatched ++ [s.counter % n] } := by
  have hlen : p.proxies.length = n := h.clones p (List.mem_of_getElem? hp)
  obtain ⟨proxy, hproxy, hnext⟩ := p.nextProxy_eq usizeBits (by rwa [hlen]) s.counter
  rw [hlen] at hproxy hnext
  refine ⟨proxy, hproxy, hnext, ?_⟩
  simp only [step, hp, Option.bind_eq_bind, Option.bind_some, hnext]
  rfl

theorem SharedProxy.ticketed_step (hn : 0 < n) (h : s.Ticketed usizeBits n)
    (hs : s.step usizeBits e = some s') :
    s'.Ticketed usizeBits n := by
  cases e with
  | clone i =>
    obtain ⟨p, hp, rfl⟩ := Option.map_eq_some_iff.1 hs
    refine ⟨fun q hq => ?_, h.counter, h.dispatched⟩
    rcases List.mem_append.1 hq with hq | hq
    · exact h.clones q hq
    · rw [List.mem_singleton.1 hq]
      exact h.clones p (List.mem_of_getElem? hp)
  | withPolicy i policy =>
    obtain ⟨p, hp, rfl⟩ := Option.map_eq_some_iff.1 hs
    refine ⟨fun q hq => ?_, h.counter, h.dispatched⟩
    rcases List.mem_or_eq_of_mem_set hq with hq | rfl
    · exact h.clones q hq
    · rw [BalancedProxy.withPolicy, List.length_map]
      exact h.clones p (List.mem_of_getElem? hp)
  | call i =>
    obtain ⟨p, hp, -⟩ := Option.bind_eq_some_iff.1 hs
    obtain ⟨proxy, -, -, hcall⟩ := step_call hn h hp
    rw [hcall] at hs
    cases hs
    refine ⟨h.clones, ?_, ?_⟩
    · rw [h.counter, List.length_append, List.length_singleton, Nat.mod_add_mod]
    · rw [List.length_append, List.length_singleton, List.range_succ, List.map_append,
        ← h.dispatched, h.counter]
      rfl

theorem SharedProxy.ticketed_share (p : BalancedProxy) : p.share.Ticketed usizeBits p.proxies.length :=
  ⟨by simp [BalancedProxy.share], (Nat.zero_mod _).symm, rfl⟩

theorem SharedProxy.ticketed_run (hp : p.proxies ≠ []) (h : run (step usizeBits) p.share events = some s) :
    s.Ticketed usizeBits p.proxies.length :=
  Run.run_preserves (Ticketed usizeBits p.proxies.length) (ticketed_share p)
    (fun h hs => ticketed_step (List.length_pos_of_ne_nil hp) h hs) h

theorem SharedProxy.length_dispatched (hp : p.proxies ≠ [])
    (h : run (step usizeBits) p.share events = some s) :
    s.dispatched.length = events.countP Event.isCall := by
  have hn := List.length_pos_of_ne_nil hp
  refine (run_invariant (fun events s => s.Ticketed usizeBits p.proxies.length ∧
    s.dispatched.length = events.countP Event.isCall) ⟨ticketed_share p, rfl⟩ ?_ h).2
  rintro events s e s' ⟨ht, hlen⟩ hs
  refine ⟨ticketed_step hn ht hs, ?_⟩
  rw [List.countP_append, ← hlen]
  cases e with
  | clone i => obtain ⟨q, -, rfl⟩ := Option.map_eq_some_iff.1 hs; rfl
  | withPolicy i policy => obtain ⟨q, -, rfl⟩ := Option.map_eq_some_iff.1 hs; rfl
  | call i =>
    obtain ⟨q, hq, -⟩ := Option.bind_eq_some_iff.1 hs
    obtain ⟨proxy, -, -, hcall⟩ := step_call hn ht hq
    rw [hcall] at hs
    cases hs
    exact List.length_append

theorem map_placeOf_eq_turns (n start : Nat) {len : Nat} (h : start + len ≤ 2 ^ usizeBits) :
    (List.range' start len).map (placeOf usizeBits n) = turns n start len := by
  refine List.map_congr_left fun t ht => ?_
  rw [List.mem_range'_1] at ht
  rw [placeOf, Nat.mod_eq_of_lt (show t < 2 ^ usizeBits by omega)]

end

/-! ### Tickets of a `DiscoverableBalancedProxy` -/

namespace Balancer

/-- A ticket drawn, with the snapshot it is drawn on and the index it selects. -/
structure Ticket where
  snapshot : Snapshot
  index : Nat
deriving DecidableEq

variable {κ : Type} [DecidableEq κ]

omit [DecidableEq κ] in
/-- The ticket that an event draws: one for each request that is polled and finds an upstream. -/
def ticket (cfg : BalancerConfig) (b : Balancer κ) : Event κ → Option Ticket
  | .firstPoll i draws decayedEwma =>
    match b.requests[i]? with
    | some ⟨[], .created⟩ => none
    | some ⟨snapshot, .created⟩ => (b.select cfg snapshot draws decayedEwma).map (⟨snapshot, ·⟩)
    | _ => none
  | _ => none

/-- The tickets drawn in a run, in order. -/
def tickets (cfg : BalancerConfig) (b : Balancer κ) : List (Event κ) → List Ticket
  | [] => []
  | e :: events => (b.ticket cfg e).toList ++ ((b.step cfg e).map fun b' => b'.tickets cfg events).getD []

variable {cfg : BalancerConfig} {b b' b₀ : Balancer κ} {e : Event κ} {events : List (Event κ)}

theorem tickets_concat (h : run (step cfg) b₀ events = some b) (e : Event κ) :
    b₀.tickets cfg (events ++ [e]) = b₀.tickets cfg events ++ (b.ticket cfg e).toList := by
  induction events generalizing b₀ with
  | nil =>
    cases h
    cases hs : b.step cfg e <;> simp [tickets, hs]
  | cons a events ih =>
    rw [Run.run_cons, Option.bind_eq_some_iff] at h
    obtain ⟨b₁, hb₁, h⟩ := h
    simp only [List.cons_append, tickets, hb₁, Option.map_some, Option.getD_some, ih h, List.append_assoc]

/-- A step under round robin draws no ticket, or takes the next one and sends a request to the endpoint
at its place. -/
inductive Drawn (cfg : BalancerConfig) (b : Balancer κ) (e : Event κ) (b' : Balancer κ) : Prop
  | idle : b.ticket cfg e = none → b'.counter = b.counter → Drawn cfg b e b'
  | drawn {i : Nat} {snapshot : Snapshot} {endpoint : Endpoint} : snapshot ≠ [] →
      b.ticket cfg e = some ⟨snapshot, b.counter % snapshot.length⟩ →
      snapshot[b.counter % snapshot.length]? = some endpoint → b'.counter = fetchAdd cfg b.counter →
      b'.requests[i]? = some (InFlight.mk snapshot (.started endpoint)) → Drawn cfg b e b'

omit [DecidableEq κ] in
theorem dispatch_roundRobin (hr : cfg.strategy = .roundRobin) {snapshot : Snapshot}
    (hne : snapshot ≠ []) (i : Nat)
    (draws : List Nat) (ewma : MetricsId → Nat) :
    ∃ endpoint, snapshot[b.counter % snapshot.length]? = some endpoint ∧
      b.dispatch cfg i snapshot draws ewma = some { b with
        counter := fetchAdd cfg b.counter
        requests := b.requests.set i ⟨snapshot, .started endpoint⟩ } := by
  have hlt : b.counter % snapshot.length < snapshot.length := Nat.mod_lt _ (List.length_pos_of_ne_nil hne)
  refine ⟨snapshot[b.counter % snapshot.length], List.getElem?_eq_getElem hlt, ?_⟩
  simp [dispatch, select, hr, List.getElem?_eq_getElem hlt]

theorem drawn_of_step (hr : cfg.strategy = .roundRobin) (hs : b.step cfg e = some b') :
    Drawn cfg b e b' := by
  cases e with
  | firstPoll i draws ewma =>
    simp only [step] at hs
    split at hs
    · next hq =>
      cases hs
      exact .idle (by simp only [ticket, hq]) rfl
    · next snapshot hne hq =>
      have hne' : snapshot ≠ [] := fun h => hne (h ▸ rfl)
      obtain ⟨endpoint, he, hd⟩ := dispatch_roundRobin (b := b) hr hne' i draws ewma
      have hi : i < b.requests.length := (List.getElem?_eq_some_iff.1 hq).1
      rw [hd] at hs
      cases hs
      refine .drawn hne' ?_ he rfl (List.getElem?_set_self hi)
      simp only [ticket, hq, select, hr, Option.map_some]
    · cases hs
  | startDiscovery | discovered item | streamEnded | call | completed i | dropped i =>
    cases steps_of_step hs <;> exact .idle rfl rfl

/-- The counter is the number of tickets drawn, and each ticket selects its place in its snapshot. -/
structure Ticketed (cfg : BalancerConfig) (events : List (Event κ)) (b : Balancer κ) : Prop where
  run : run (step cfg) new events = some b
  counter : b.counter = ((new : Balancer κ).tickets cfg events).length % 2 ^ cfg.usizeBits
  place : ∀ k t, ((new : Balancer κ).tickets cfg events)[k]? = some t →
    t.snapshot ≠ [] ∧ t.index = placeOf cfg.usizeBits t.snapshot.length k

theorem ticketed_step (hr : cfg.strategy = .roundRobin) (h : Ticketed cfg events b)
    (hs : b.step cfg e = some b') :
    Ticketed cfg (events ++ [e]) b' := by
  have hrun : Run.run (step cfg) new (events ++ [e]) = some b' := by
    rw [Run.run_concat, h.run, Option.bind_some, hs]
  have htickets := tickets_concat h.run e
  rcases drawn_of_step hr hs with ⟨ht, hc⟩ | ⟨hne, ht, -, hc, -⟩
  · rw [ht, Option.toList_none, List.append_nil] at htickets
    exact ⟨hrun, by rw [htickets, hc, h.counter], by rw [htickets]; exact h.place⟩
  · rw [ht, Option.toList_some] at htickets
    refine ⟨hrun, ?_, fun k t hk => ?_⟩
    · rw [hc, fetchAdd, h.counter, Nat.mod_add_mod, htickets, List.length_append, List.length_singleton]
    · rw [htickets] at hk
      rcases Nat.lt_trichotomy k ((new : Balancer κ).tickets cfg events).length with hlt | rfl | hgt
      · rw [List.getElem?_append_left hlt] at hk
        exact h.place k t hk
      · rw [List.getElem?_concat_length] at hk
        cases hk
        exact ⟨hne, by rw [placeOf, ← h.counter]⟩
      · rw [List.getElem?_eq_none (by rw [List.length_append, List.length_singleton]; omega)] at hk
        cases hk

theorem ticketed_run (hr : cfg.strategy = .roundRobin) (h : Run.run (step cfg) new events = some b) :
    Ticketed cfg events b :=
  Run.run_invariant (Ticketed cfg) ⟨rfl, (Nat.zero_mod _).symm,
    fun _ _ h => (by cases h)⟩ (ticketed_step hr) h

theorem Ticketed.turns {snapshot : Snapshot} {part : List Ticket} (h : Ticketed cfg events b)
    (hlt : ((new : Balancer κ).tickets cfg events).length < 2 ^ cfg.usizeBits)
    (hpart : part <:+: (new : Balancer κ).tickets cfg events) (hs : ∀ t ∈ part, t.snapshot = snapshot) :
    ∃ k, part.map (·.index) = Turns.turns snapshot.length k part.length := by
  obtain ⟨pre, post, heq⟩ := hpart
  have hlen : pre.length + part.length ≤ 2 ^ cfg.usizeBits := by
    rw [← heq, List.length_append, List.length_append] at hlt
    omega
  refine ⟨pre.length, ?_⟩
  rw [← map_placeOf_eq_turns snapshot.length pre.length hlen]
  refine List.ext_getElem (by simp) fun j hj _ => ?_
  have hj' : j < part.length := by simpa using hj
  have hget : ((new : Balancer κ).tickets cfg events)[pre.length + j]? = some part[j] := by
    rw [← heq, List.append_assoc, List.getElem?_append_right (by omega), Nat.add_sub_cancel_left,
      List.getElem?_append_left hj', List.getElem?_eq_getElem hj']
  rw [List.getElem_map, List.getElem_map, List.getElem_range', Nat.one_mul, (h.place _ _ hget).2,
    hs _ (List.getElem_mem hj')]

end Balancer

/-! ### Fairness -/

/-- Whatever clones make the calls and however they interleave, each call is one request to the upstream at
the index its ticket selects, which is in range; and while the counter has not wrapped the requests take
turns: of any `n` consecutive tickets on the same `n` upstreams each upstream gets one, so that no upstream
is ever ahead of another by two. -/
theorem round_robin_fair :
    (∀ (usizeBits : Nat) (p : BalancedProxy) (events : List SharedProxy.Event) (s : SharedProxy),
      p.proxies ≠ [] → run (SharedProxy.step usizeBits) p.share events = some s →
        (∀ (i : Nat) (q : BalancedProxy), s.clones[i]? = some q → ∃ idx proxy counter,
          q.proxies[idx]? = some proxy ∧ q.nextProxy usizeBits s.counter =
            some (some (idx, proxy), counter) ∧
          s.step usizeBits (.call i) = some { s with counter, dispatched := s.dispatched ++ [idx] }) ∧
        s.dispatched.length = events.countP SharedProxy.Event.isCall ∧
        (∀ i ∈ s.dispatched, i < p.proxies.length) ∧
        (s.dispatched.length < 2 ^ usizeBits → Fair p.proxies.length s.dispatched)) ∧
    ∀ (κ : Type) [DecidableEq κ] (cfg : BalancerConfig) (events : List (Balancer.Event κ)) (b : Balancer κ),
      cfg.strategy = .roundRobin → run (Balancer.step cfg) .new events = some b →
        (∀ i snapshot draws ewma, b.requests[i]? = some (InFlight.mk snapshot .created) →
          (b.step cfg (.firstPoll i draws ewma)).isSome = true) ∧
        (∀ e b', b.step cfg e = some b' → ∀ t ∈ b.ticket cfg e, ∃ (i : Nat) (endpoint : Endpoint),
          t.snapshot[t.index]? = some endpoint ∧
            b'.requests[i]? = some (InFlight.mk t.snapshot (.started endpoint))) ∧
        (((.new : Balancer κ).tickets cfg events).length < 2 ^ cfg.usizeBits → ∀ snapshot part,
          part <:+: (.new : Balancer κ).tickets cfg events → (∀ t ∈ part, t.snapshot = snapshot) →
            Fair snapshot.length (part.map (·.index))) := by
  refine ⟨fun usizeBits p events s hp h => ?_, fun κ _ cfg events b hr h => ?_⟩
  · have hn : 0 < p.proxies.length := List.length_pos_of_ne_nil hp
    have ht := SharedProxy.ticketed_run hp h
    refine ⟨fun i q hq => ?_, SharedProxy.length_dispatched hp h, fun i hi => ?_, fun hlt => ?_⟩
    · obtain ⟨proxy, hproxy, hnext, hstep⟩ := SharedProxy.step_call hn ht hq
      exact ⟨_, proxy, _, hproxy, hnext, hstep⟩
    · rw [ht.dispatched] at hi
      obtain ⟨t, -, rfl⟩ := List.mem_map.1 hi
      exact Nat.mod_lt _ hn
    · rw [ht.dispatched, List.range_eq_range', map_placeOf_eq_turns _ 0 (by omega)]
      exact fair_turns ..
  · have ht := Balancer.ticketed_run hr h
    refine ⟨fun i snapshot draws ewma hq => ?_, fun e b' hs t he => ?_,
      fun hlt snapshot part hpart hs => ?_⟩
    · cases snapshot with
      | nil => simp only [Balancer.step, hq, Option.isSome_some]
      | cons endpoint snapshot =>
        obtain ⟨e, -, hd⟩ := Balancer.dispatch_roundRobin (b := b) hr
          (List.cons_ne_nil endpoint snapshot) i draws ewma
        simp only [Balancer.step, hq, hd, Option.isSome_some]
    · rcases Balancer.drawn_of_step hr hs with ⟨hn, -⟩ | ⟨-, htk, hget, -, hq⟩
      · rw [hn] at he; cases he
      · rw [htk] at he
        cases he
        exact ⟨_, _, hget, hq⟩
    · obtain ⟨k, hk⟩ := ht.turns hlt hpart hs
      rw [hk]
      exact fair_turns ..

/-- A proxy that balances over two upstreams. -/
def twoUpstreams : BalancedProxy :=
  ⟨['/'], List.replicate 2 ⟨['/'], "http://up".toList, "http".toList, "up".toList, [], false, {}⟩⟩

/-- Three calls of two clones on two upstreams, and two requests on one discovered upstream. -/
theorem round_robin_fair_two :
    let events : List (Balancer.Event Nat) :=
      [.startDiscovery, .discovered (.change (.insert 0 "http://a".toList)),
      .call, .call, .firstPoll 0 [] fun _ => 0, .firstPoll 1 [] fun _ => 0]
    Fair 2 [0, 1, 0] ∧
      ∃ snapshot, Fair 1 ((Balancer.new.tickets (Balancer.plainConfig .roundRobin) events).map (·.index)) ∧
        (Balancer.new.tickets (Balancer.plainConfig .roundRobin) events).map (·.snapshot) =
          [snapshot, snapshot] := by
  intro events
  obtain ⟨b, snapshot, hb, hlen, hs⟩ : ∃ b : Balancer Nat, ∃ snapshot : Snapshot,
      run (Balancer.step (Balancer.plainConfig .roundRobin)) .new events = some b ∧ snapshot.length = 1 ∧
        (Balancer.new.tickets (Balancer.plainConfig .roundRobin) events).map (·.snapshot) =
          [snapshot, snapshot] :=
    ⟨_, _, rfl, rfl, rfl⟩
  refine ⟨(round_robin_fair.1 64 twoUpstreams [.clone 0, .call 0, .call 1, .call 0]
    ⟨[twoUpstreams, twoUpstreams], 3, [0, 1, 0]⟩ (by decide) rfl).2.2.2 (by decide), snapshot, ?_, hs⟩
  have h := (round_robin_fair.2 Nat (Balancer.plainConfig .roundRobin) events b rfl hb).2.2
    (by decide) snapshot _
    List.infix_rfl fun t ht => ?_
  · rwa [hlen] at h
  · have hm := List.mem_map_of_mem (f := (·.snapshot)) ht
    rw [hs] at hm
    simpa using hm

end AxumReverseProxy
