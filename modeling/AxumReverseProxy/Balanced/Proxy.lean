import AxumReverseProxy.Lib.OrderedMap
import AxumReverseProxy.Lib.Run
import AxumReverseProxy.Proxy.Reverse
import Mathlib.Algebra.Order.Ring.Nat

/-!
# `DiscoverableBalancedProxy`

The proxy, its clones, the discovery task and the request futures share their state through `Arc`s;
`Balancer` is that shared state and `Balancer.step` what one of them does to it between two awaits.
A `ServiceMetrics` object is known by its identity, since endpoints, snapshots and guards hold it
through an `Arc`.
-/

namespace AxumReverseProxy

inductive LoadBalancingStrategy
  | roundRobin
  | p2cPendingRequests
  | p2cPeakEwma
deriving DecidableEq

abbrev MetricsId := Nat

structure Endpoint where
  proxy : ReverseProxy
  metrics : MetricsId
deriving DecidableEq

abbrev Snapshot := List Endpoint

def ReverseProxy.withPolicy (proxy : ReverseProxy) (policy : ProxyPolicy) : ReverseProxy :=
  { proxy with policy }

/-- What a `DiscoverableBalancedProxy` is made with, and the width of `usize`. -/
structure BalancerConfig where
  lib : UriLib
  usizeBits : Nat
  path : Str
  strategy : LoadBalancingStrategy
  policy : ProxyPolicy

/-! ### Discovery -/

/-- What `poll_discover` yields: `Ok(change)` or `Err`. -/
inductive Discovered (κ : Type)
  | change (c : Change κ Str)
  | error
deriving DecidableEq

inductive DiscoveryTask (κ : Type)
  | idle
  | running (endpoints : List (κ × Endpoint))
  | ended
  | panicked

structure Discovery (κ : Type) where
  task : DiscoveryTask κ
  snapshot : Snapshot
  nextMetrics : MetricsId

variable {κ : Type} [DecidableEq κ]

/-- Replaces the first endpoint under `key`, or pushes one. -/
def insertEndpoint (endpoints : List (κ × Endpoint)) (key : κ) (endpoint : Endpoint) :
    List (κ × Endpoint) :=
  match endpoints.findIdx? fun e => e.1 = key with
  | some i => endpoints.modify i fun existing => (existing.1, endpoint)
  | none => endpoints ++ [(key, endpoint)]

/-- The endpoint of a target; `none` is the panic of `ReverseProxy::new_with_client`. -/
def BalancerConfig.endpoint (cfg : BalancerConfig) (target : Str) (metrics : MetricsId) : Option Endpoint :=
  (ReverseProxy.new cfg.lib cfg.path target).map fun proxy => ⟨proxy.withPolicy cfg.policy, metrics⟩

namespace Discovery

def new : Discovery κ := ⟨.idle, [], 0⟩

def publish (d : Discovery κ) (endpoints : List (κ × Endpoint)) : Discovery κ :=
  { d with task := .running endpoints, snapshot := endpoints.map (·.2) }

/-- One turn of the loop of the discovery task. -/
def poll (cfg : BalancerConfig) (d : Discovery κ) (item : Discovered κ) : Discovery κ :=
  match d.task with
  | .running endpoints =>
    match item with
    | .change (.insert key target) =>
      match cfg.endpoint target d.nextMetrics with
      | some endpoint =>
        { d with nextMetrics := d.nextMetrics + 1 }.publish (insertEndpoint endpoints key endpoint)
      | none => { d with task := .panicked }
    | .change (.remove key) => d.publish (endpoints.filter fun e => e.1 ≠ key)
    | .error => d
  | _ => d

end Discovery

/-! ### Selection -/

/-- `ServiceMetrics::load`; the decayed latency average is given. `none` is the `unreachable!`. -/
def load (strategy : LoadBalancingStrategy) (pendingRequests decayedEwma : Nat) : Option Nat :=
  match strategy with
  | .p2cPendingRequests => some (pendingRequests % 2 ^ 64)
  | .p2cPeakEwma => some decayedEwma
  | .roundRobin => none

/-- `p2c_select` with the numbers drawn at random. `none` when they do not suffice: the second is
drawn until it differs from the first. -/
def p2cSelect (snapshot : Snapshot) (load : Endpoint → Option Nat) (draws : List Nat) : Option Nat :=
  if snapshot.length = 1 then some 0
  else do
    let idx1 ← draws.head?
    let idx2 ← draws.tail.find? fun i => i ≠ idx1
    let load1 ← snapshot[idx1]?.bind load
    let load2 ← snapshot[idx2]?.bind load
    some (if load1 ≤ load2 then idx1 else idx2)

/-! ### Requests -/

/-- Where the future of a request stands, and the endpoint it was dispatched to. -/
inductive InFlight.Phase
  | created
  | started (endpoint : Endpoint)
  | finished (endpoint : Option Endpoint)
deriving DecidableEq

/-- The future made by `call`, with the snapshot it captured. -/
structure InFlight where
  snapshot : Snapshot
  phase : InFlight.Phase
deriving DecidableEq

structure Balancer (κ : Type) where
  discoveryStarted : Bool
  discovery : Discovery κ
  counter : Nat
  pendingRequests : MetricsId → Nat
  requests : List InFlight

/-- What can happen: `start_discovery` is called, the discovery task is woken, `call` is invoked, or
a request future is polled for the first time, completes, or is dropped. -/
inductive Balancer.Event (κ : Type)
  | startDiscovery
  | discovered (item : Discovered κ)
  | streamEnded
  | call
  | firstPoll (i : Nat) (draws : List Nat) (decayedEwma : MetricsId → Nat)
  | completed (i : Nat)
  | dropped (i : Nat)

namespace InFlight

def isFinished (r : InFlight) : Bool :=
  match r.phase with
  | .finished _ => true
  | _ => false

end InFlight

namespace Balancer

def new : Balancer κ := ⟨false, .new, 0, fun _ => 0, []⟩

def fetchAdd (cfg : BalancerConfig) (n : Nat) : Nat := (n + 1) % 2 ^ cfg.usizeBits

def fetchSub (cfg : BalancerConfig) (n : Nat) : Nat := (n + (2 ^ cfg.usizeBits - 1)) % 2 ^ cfg.usizeBits

/-- The index a request selects. -/
def select (cfg : BalancerConfig) (b : Balancer κ) (snapshot : Snapshot) (draws : List Nat)
    (decayedEwma : MetricsId → Nat) : Option Nat :=
  match cfg.strategy with
  | .roundRobin => some (b.counter % snapshot.length)
  | strategy =>
    p2cSelect snapshot (fun e => load strategy (b.pendingRequests e.metrics) (decayedEwma e.metrics)) draws

/-- The first poll of a request future: it selects an endpoint and counts itself. -/
def dispatch (cfg : BalancerConfig) (b : Balancer κ) (i : Nat) (snapshot : Snapshot) (draws : List Nat)
    (decayedEwma : MetricsId → Nat) : Option (Balancer κ) := do
  let idx ← b.select cfg snapshot draws decayedEwma
  let endpoint ← snapshot[idx]?
  some { b with
    counter := if cfg.strategy = .roundRobin then fetchAdd cfg b.counter else b.counter
    pendingRequests :=
      if cfg.strategy = .p2cPendingRequests then
        Function.update b.pendingRequests endpoint.metrics
          (fetchAdd cfg (b.pendingRequests endpoint.metrics))
      else b.pendingRequests
    requests := b.requests.set i ⟨snapshot, .started endpoint⟩ }

def release (cfg : BalancerConfig) (b : Balancer κ) (i : Nat) (snapshot : Snapshot) (endpoint : Endpoint) :
    Balancer κ :=
  { b with
    pendingRequests :=
      if cfg.strategy = .p2cPendingRequests then
        Function.update b.pendingRequests endpoint.metrics
          (fetchSub cfg (b.pendingRequests endpoint.metrics))
      else b.pendingRequests
    requests := b.requests.set i ⟨snapshot, .finished (some endpoint)⟩ }

/-- The futures alive. Each has an address of its own, and the address 0 is not used. -/
def alive (b : Balancer κ) : Nat := b.requests.countP fun r => !r.isFinished

def step (cfg : BalancerConfig) (b : Balancer κ) : Event κ → Option (Balancer κ)
  | .startDiscovery =>
    if b.discoveryStarted then some b
    else some { b with discoveryStarted := true, discovery := { b.discovery with task := .running [] } }
  | .discovered item =>
    match b.discovery.task with
    -- an item that comes when the task is gone is never polled
    | .running _ | .panicked => some { b with discovery := b.discovery.poll cfg item }
    | .idle | .ended => none
  | .streamEnded =>
    match b.discovery.task with
    | .running _ => some { b with discovery := { b.discovery with task := .ended } }
    | _ => none
  | .call =>
    -- `Box::pin` aborts when it finds no memory
    if b.alive + 1 < 2 ^ cfg.usizeBits then
      some { b with requests := b.requests ++ [⟨b.discovery.snapshot, .created⟩] }
    else none
  | .firstPoll i draws decayedEwma =>
    match b.requests[i]? with
    | some ⟨[], .created⟩ => some { b with requests := b.requests.set i ⟨[], .finished none⟩ }
    | some ⟨snapshot, .created⟩ => b.dispatch cfg i snapshot draws decayedEwma
    | _ => none
  | .completed i =>
    match b.requests[i]? with
    | some ⟨snapshot, .started endpoint⟩ => some (b.release cfg i snapshot endpoint)
    | _ => none
  | .dropped i =>
    match b.requests[i]? with
    | some ⟨snapshot, .created⟩ => some { b with requests := b.requests.set i ⟨snapshot, .finished none⟩ }
    | some ⟨snapshot, .started endpoint⟩ => some (b.release cfg i snapshot endpoint)
    | _ => none

/-! ### What a step does -/

/-- The steps there are, one constructor for each way through `step`. -/
inductive Steps (cfg : BalancerConfig) (b : Balancer κ) : Event κ → Balancer κ → Prop
  | start : b.discoveryStarted = false →
      Steps cfg b .startDiscovery
        { b with discoveryStarted := true, discovery := { b.discovery with task := .running [] } }
  | startAgain : b.discoveryStarted = true → Steps cfg b .startDiscovery b
  | discovered {item} : b.discovery.task ≠ .idle → b.discovery.task ≠ .ended →
      Steps cfg b (.discovered item) { b with discovery := b.discovery.poll cfg item }
  | streamEnded {endpoints} : b.discovery.task = .running endpoints →
      Steps cfg b .streamEnded { b with discovery := { b.discovery with task := .ended } }
  | call : b.alive + 1 < 2 ^ cfg.usizeBits →
      Steps cfg b .call { b with requests := b.requests ++ [⟨b.discovery.snapshot, .created⟩] }
  | refused {i draws ewma} : b.requests[i]? = some ⟨[], .created⟩ →
      Steps cfg b (.firstPoll i draws ewma) { b with requests := b.requests.set i ⟨[], .finished none⟩ }
  | dispatched {i draws ewma snapshot endpoint counter} : b.requests[i]? = some ⟨snapshot, .created⟩ →
      endpoint ∈ snapshot →
      Steps cfg b (.firstPoll i draws ewma) { b with
        counter
        pendingRequests :=
          if cfg.strategy = .p2cPendingRequests then
            Function.update b.pendingRequests endpoint.metrics
              (fetchAdd cfg (b.pendingRequests endpoint.metrics))
          else b.pendingRequests
        requests := b.requests.set i ⟨snapshot, .started endpoint⟩ }
  | completed {i snapshot endpoint} : b.requests[i]? = some ⟨snapshot, .started endpoint⟩ →
      Steps cfg b (.completed i) (b.release cfg i snapshot endpoint)
  | cancelled {i snapshot endpoint} : b.requests[i]? = some ⟨snapshot, .started endpoint⟩ →
      Steps cfg b (.dropped i) (b.release cfg i snapshot endpoint)
  | discarded {i snapshot} : b.requests[i]? = some ⟨snapshot, .created⟩ →
      Steps cfg b (.dropped i) { b with requests := b.requests.set i ⟨snapshot, .finished none⟩ }

variable {cfg : BalancerConfig} {b b' : Balancer κ} {e : Event κ}

omit [DecidableEq κ] in
theorem dispatch_eq_some {i : Nat} {snapshot : Snapshot} {draws : List Nat} {ewma : MetricsId → Nat}
    (h : b.dispatch cfg i snapshot draws ewma = some b') :
    ∃ endpoint ∈ snapshot, ∃ counter, b' = { b with
      counter
      pendingRequests :=
        if cfg.strategy = .p2cPendingRequests then
          Function.update b.pendingRequests endpoint.metrics
            (fetchAdd cfg (b.pendingRequests endpoint.metrics))
        else b.pendingRequests
      requests := b.requests.set i ⟨snapshot, .started endpoint⟩ } := by
  simp only [dispatch, Option.bind_eq_bind, Option.bind_eq_some_iff, Option.some.injEq] at h
  obtain ⟨idx, -, endpoint, he, rfl⟩ := h
  exact ⟨endpoint, List.mem_of_getElem? he, _, rfl⟩

theorem steps_of_step (h : b.step cfg e = some b') : Steps cfg b e b' := by
  cases e with
  | startDiscovery =>
    simp only [step] at h
    split at h
    · next hs => cases h; exact .startAgain hs
    · next hs => cases h; exact .start (by simpa using hs)
  | discovered item =>
    simp only [step] at h
    split at h
    · next ht => cases h; exact .discovered (by rw [ht]; simp) (by rw [ht]; simp)
    · next ht => cases h; exact .discovered (by rw [ht]; simp) (by rw [ht]; simp)
    · cases h
    · cases h
  | streamEnded =>
    simp only [step] at h
    split at h
    · next ht => cases h; exact .streamEnded ht
    · cases h
  | call =>
    simp only [step] at h
    split at h
    · next ha => cases h; exact .call ha
    · cases h
  | firstPoll i draws ewma =>
    simp only [step] at h
    split at h
    · next hr => cases h; exact .refused hr
    · next hr =>
      obtain ⟨endpoint, he, counter, rfl⟩ := dispatch_eq_some h
      exact .dispatched hr he
    · cases h
  | completed i =>
    simp only [step] at h
    split at h
    · next hr => cases h; exact .completed hr
    · cases h
  | dropped i =>
    simp only [step] at h
    split at h
    · next hr => cases h; exact .discarded hr
    · next hr => cases h; exact .cancelled hr
    · cases h

end Balancer

end AxumReverseProxy
