import AxumReverseProxy.Dns.Pipeline
import AxumReverseProxy.Lib.Journal
import AxumReverseProxy.Lib.Mailbox

/-!
# Clones of a `DnsDiscovery`

A clone shares the receiving end of the channel, so that several proxies may be built over one
background task. Their discovery tasks poll side by side: `try_lock`, then `poll_recv`, and what one of
them receives the others do not see. `Clones` is that system with the tasks interleaved between any two
of these calls.
-/

namespace AxumReverseProxy

open OrderedMap

def Discovery.isPanicked {κ : Type} (d : Discovery κ) : Bool :=
  match d.task with
  | .panicked => true
  | _ => false

/-- The proxies built over the clones. The resolving task has got past `interval`, which panics at a
zero period. -/
structure ClonesConfig (ι : Type) where
  dns : DnsDiscoveryConfig
  interval : dns.refreshInterval.nanos ≠ 0
  lib : UriLib
  balancer : ι → BalancerConfig
  lib_eq : ∀ i, (balancer i).lib = lib

structure Clones (ι : Type) where
  dns : DnsDiscovery
  outbox : List DiscoveryResult
  receiver : Mailbox.State ι DiscoveryResult
  proxies : ι → Discovery IpAddr

namespace Clones

inductive Event (ι : Type)
  | resolve (r : Resolution)
  | send
  | startDiscovery (i : ι)
  | tryLock (i : ι)
  | pollRecv (i : ι)
  | spurious (i : ι)

variable {ι : Type} [DecidableEq ι]

def new : Clones ι := ⟨.new, [], .new, fun _ => .new⟩

def step (cfg : ClonesConfig ι) (p : Clones ι) : Event ι → Option (Clones ι)
  | .resolve r =>
    if p.outbox = [] then
      (p.dns.step cfg.dns r).map fun d => { p with dns := d, outbox := d.sent.drop p.dns.sent.length }
    else none
  | .send =>
    match p.outbox with
    | item :: outbox => (p.receiver.step (.send item)).map fun receiver => { p with outbox, receiver }
    | [] => none
  | .startDiscovery i =>
    match (p.proxies i).task with
    | .idle => (p.receiver.step (.join i)).map fun receiver =>
      { p with receiver, proxies := Function.update p.proxies i { p.proxies i with task := .running [] } }
    | _ => some p
  | .tryLock i => (p.receiver.step (.tryLock i)).map fun receiver => { p with receiver }
  | .pollRecv i =>
    match p.receiver.queue with
    | item :: _ =>
      let d := (p.proxies i).poll (cfg.balancer i) (discovered item)
      -- the clone goes with the task that panics
      (p.receiver.step (.receive i d.isPanicked)).map fun receiver =>
        { p with receiver, proxies := Function.update p.proxies i d }
    | [] => (p.receiver.step (.park i)).map fun receiver => { p with receiver }
  | .spurious i => (p.receiver.step (.spurious i)).map fun receiver => { p with receiver }

def Event.resolution? : Event ι → Option Resolution
  | .resolve r => some r
  | _ => none

def lookupsOf (events : List (Event ι)) : List Lookup := (events.filterMap Event.resolution?).map (·.lookup)

/-- What the proxy over clone `i` has received. -/
def share (p : Clones ι) (i : ι) : List (Discovered IpAddr) :=
    (Journal.notesOf p.receiver.received i).map discovered

def services (cfg : ClonesConfig ι) (p : Clones ι) (i : ι) : OrderedMap IpAddr Endpoint :=
  (registry (cfg.balancer i) (p.share i)).services

def CaughtUp (p : Clones ι) : Prop := p.receiver.queue = [] ∧ p.outbox = []

/-- The change that waits takes the discovery task down that receives it. -/
def Fatal (cfg : ClonesConfig ι) (p : Clones ι) : Prop :=
  ∃ item queue, p.receiver.queue = item :: queue ∧ (discovered item).Unusable cfg.lib

variable {cfg : ClonesConfig ι} {p p' : Clones ι} {e : Event ι} {events events' : List (Event ι)} {i j : ι}
  {ip : IpAddr}

/-! ### A proxy and its share -/

/-- Where the discovery task of a proxy stands, and what it has published. -/
inductive Follows (bc : BalancerConfig) :
    Mailbox.Reader → Discovery IpAddr → List (Discovered IpAddr) → Prop
  | idle : Follows bc .idle .new []
  | awake {d : Discovery IpAddr} {items : List (Discovered IpAddr)} (h : d.Refines (registry bc items)) :
    Follows bc .awake d items
  | asleep {d : Discovery IpAddr} {items : List (Discovered IpAddr)} (h : d.Refines (registry bc items)) :
    Follows bc .asleep d items
  | gone {d : Discovery IpAddr} {items : List (Discovered IpAddr)} (ht : d.task = .panicked)
    (hs : d.snapshot = (registry bc items).services.values) : Follows bc .gone d items

namespace Follows

variable {bc : BalancerConfig} {d : Discovery IpAddr} {items : List (Discovered IpAddr)}
  {item : Discovered IpAddr} {r : Mailbox.Reader}

theorem snapshot (h : Follows bc r d items) : d.snapshot = (registry bc items).services.values := by
  cases h with
  | idle => rfl
  | awake h => exact h.snapshot
  | asleep h => exact h.snapshot
  | gone _ hs => exact hs

theorem eq_idle (h : Follows bc r d items) (ht : d.task = .idle) : r = .idle ∧ d = .new ∧ items = [] := by
  cases h with
  | idle => exact ⟨rfl, rfl, rfl⟩
  | awake h => cases h.task.symm.trans ht
  | asleep h => cases h.task.symm.trans ht
  | gone hp _ => cases hp.symm.trans ht

theorem refines (h : Follows bc .awake d items) : d.Refines (registry bc items) := by
  cases h with
  | awake h => exact h

theorem woken (h : Follows bc .asleep d items) : Follows bc .awake d items := by
  cases h with
  | asleep h => exact .awake h

/-- A change is applied, or takes the task down; what was published stays then. -/
theorem poll (h : Follows bc .awake d items) (item : Discovered IpAddr) :
    ¬ item.Unusable bc.lib ∧ (d.poll bc item).isPanicked = false ∧ Follows bc .awake (d.poll bc item)
      (items ++ [item]) ∨
      item.Unusable bc.lib ∧ (d.poll bc item).isPanicked = true ∧ Follows bc .gone (d.poll bc item)
        (items ++ [item]) := by
  have href := h.refines
  by_cases hu : item.Unusable bc.lib
  · have hp := href.poll_unusable hu
    refine .inr ⟨hu, by rw [hp]; rfl, .gone (by rw [hp]) ?_⟩
    rw [hp, registry_concat_of_idle (.inr (.inl hu))]
    exact href.snapshot
  · have hp := href.poll hu
    refine .inl ⟨hu, ?_, .awake ?_⟩
    · rw [Discovery.isPanicked, hp.task]
    · rw [registry_concat]; exact hp

theorem reader {ι : Type} [DecidableEq ι] {readers : ι → Mailbox.Reader} {i : ι}
    (h : Follows bc .awake d items)
    (hr : readers i = .awake) (item : Discovered IpAddr) :
    Follows bc ((if (d.poll bc item).isPanicked then Function.update readers i .gone else readers) i)
      (d.poll bc item)
      (items ++ [item]) := by
  rcases h.poll item with ⟨-, hp, hf⟩ | ⟨-, hp, hf⟩
  · rw [hp, if_neg Bool.false_ne_true, hr]
    exact hf
  · rw [hp, if_pos rfl, Function.update_self]
    exact hf

end Follows

theorem share_concat (item : DiscoveryResult) (received : List (ι × DiscoveryResult)) (j : ι) :
    (Journal.notesOf (received ++ [(i, item)]) j).map discovered =
      (Journal.notesOf received j).map discovered ++ if j = i then [discovered item] else [] := by
  rw [Journal.notesOf_append, List.map_append]
  refine congrArg _ ?_
  split
  · next hj =>
    subst hj
    have h : Journal.notesOf ([item].map (j, ·)) j = [item] := Journal.notesOf_map_self
    exact congrArg _ h
  · next hj =>
    have h : Journal.notesOf ([item].map (i, ·)) j = [] := Journal.notesOf_map_ne hj
    exact congrArg _ h

/-! ### What the tasks keep between them -/

/-- What was sent is with one of the proxies or on its way, and each proxy follows what it has. -/
structure Shared (cfg : ClonesConfig ι) (events : List (Event ι)) (p : Clones ι) : Prop where
  resolved : Run.run (DnsDiscovery.step cfg.dns) .new (events.filterMap Event.resolution?) = some p.dns
  sent : p.receiver.received.map (·.2) ++ (p.receiver.queue ++ p.outbox) = p.dns.sent
  sound : p.receiver.Sound
  follows : ∀ i, Follows (cfg.balancer i) (p.receiver.readers i) (p.proxies i) (p.share i)

theorem shared_new : Shared cfg [] (new : Clones ι) := ⟨rfl, rfl, Mailbox.State.sound_new, fun _ => .idle⟩

theorem Shared.resolved_of (h : Shared cfg events p) (hr : e.resolution? = none) :
    Run.run (DnsDiscovery.step cfg.dns) .new ((events ++ [e]).filterMap Event.resolution?) =
      some p.dns := by
  rw [List.filterMap_append, List.filterMap_cons_none hr, List.filterMap_nil, List.append_nil]
  exact h.resolved

/-- A step of the receiver that neither sends nor receives, and leaves the readers as they are. -/
theorem Shared.receiver (h : Shared cfg events p) (hr : e.resolution? = none)
    {me : Mailbox.Event ι DiscoveryResult} {receiver : Mailbox.State ι DiscoveryResult}
    (hs : p.receiver.step me = some receiver)
    (hsent : me.sent? = none) (hrec : receiver.received = p.receiver.received)
    (hf : ∀ i, Follows (cfg.balancer i) (receiver.readers i) (p.proxies i) (p.share i)) :
    Shared cfg (events ++ [e]) { p with receiver } := by
  have hq := Mailbox.State.received_append_queue hs
  rw [hsent, Option.toList_none, List.append_nil] at hq
  refine ⟨h.resolved_of hr, ?_, Mailbox.State.sound_step h.sound hs, fun i => ?_⟩
  · rw [← List.append_assoc, hq, List.append_assoc]
    exact h.sent
  · show Follows _ _ _ ((Journal.notesOf receiver.received i).map discovered)
    rw [hrec]
    exact hf i

theorem Shared.resolve (h : Shared cfg events p) (hout : p.outbox = []) {r : Resolution} {d : DnsDiscovery}
    (hd : p.dns.step cfg.dns r = some d) :
    Shared cfg (events ++ [.resolve r]) { p with dns := d, outbox := d.sent.drop p.dns.sent.length } := by
  refine ⟨?_, ?_, h.sound, h.follows⟩
  · rw [List.filterMap_append]
    show Run.run _ _ (_ ++ [r]) = _
    rw [Run.run_concat, h.resolved]
    exact hd
  · have hsent := h.sent
    rw [hout, List.append_nil] at hsent
    show p.receiver.received.map (·.2) ++ (p.receiver.queue ++ d.sent.drop p.dns.sent.length) = d.sent
    rw [← List.append_assoc, hsent]
    exact Pipeline.sent_append_drop hd

theorem Shared.send (h : Shared cfg events p) {item : DiscoveryResult} {outbox : List DiscoveryResult}
    {receiver : Mailbox.State ι DiscoveryResult} (hout : p.outbox = item :: outbox)
    (hr : p.receiver.step (.send item) = some receiver) :
    Shared cfg (events ++ [.send]) { p with outbox, receiver } := by
  have hsound := Mailbox.State.sound_step h.sound hr
  cases hr
  refine ⟨h.resolved_of rfl, ?_, hsound, fun i => ?_⟩
  · rw [← h.sent, hout]
    simp
  · show Follows _ (p.receiver.wake i) _ _
    have hf := h.follows i
    rcases p.receiver.wake_eq_or with hw | ⟨j, -, ha, hw⟩
    · rw [hw]; exact hf
    · by_cases hij : i = j
      · subst hij
        rw [hw, Function.update_self]
        rw [ha] at hf
        exact hf.woken
      · rw [hw, Function.update_of_ne hij]; exact hf

theorem Shared.start (h : Shared cfg events p) {receiver : Mailbox.State ι DiscoveryResult}
    (ht : (p.proxies i).task = .idle) (hr : p.receiver.step (.join i) = some receiver) :
    Shared cfg (events ++ [.startDiscovery i])
      { p with
        receiver, proxies := Function.update p.proxies i { p.proxies i with task := .running [] } } := by
  obtain ⟨-, rfl⟩ := Mailbox.State.join_cases hr
  obtain ⟨-, hnew, hitems⟩ := (h.follows i).eq_idle ht
  refine ⟨h.resolved_of rfl, h.sent, Mailbox.State.sound_step h.sound hr, fun j => ?_⟩
  by_cases hji : j = i
  · subst hji
    simp only [Function.update_self]
    show Follows _ _ _ (p.share j)
    rw [hnew, hitems]
    exact .awake ⟨rfl, rfl, rfl⟩
  · simp only [Function.update_of_ne hji]
    exact h.follows j

/-- A change goes to the share of the proxy that polled, and to no other. -/
theorem Shared.receive (h : Shared cfg events p) {item : DiscoveryResult} {queue : List DiscoveryResult}
    {receiver : Mailbox.State ι DiscoveryResult} (hq : p.receiver.queue = item :: queue)
    (hr : p.receiver.step (.receive i ((p.proxies i).poll (cfg.balancer i)
      (discovered item)).isPanicked) = some receiver) :
    Shared cfg (events ++ [.pollRecv i]) { p with
      receiver, proxies := Function.update p.proxies i
        ((p.proxies i).poll (cfg.balancer i) (discovered item)) } := by
  have hsound := Mailbox.State.sound_step h.sound hr
  obtain ⟨hl, item', queue', hq', rfl⟩ := Mailbox.State.receive_cases hr
  obtain ⟨rfl, rfl⟩ := List.cons_eq_cons.1 (hq.symm.trans hq')
  have hf := h.follows i
  rw [h.sound.awake i hl] at hf
  refine ⟨h.resolved_of rfl, ?_, hsound, fun j => ?_⟩
  · rw [← h.sent, hq]
    simp
  · rw [share, share_concat]
    dsimp only
    by_cases hji : j = i
    · subst hji
      rw [if_pos rfl, Function.update_self]
      exact hf.reader (h.sound.awake j hl) (discovered item)
    · rw [if_neg hji, List.append_nil, Function.update_of_ne hji]
      split
      · rw [Function.update_of_ne hji]; exact h.follows j
      · exact h.follows j

theorem Shared.park (h : Shared cfg events p) {receiver : Mailbox.State ι DiscoveryResult}
    (hr : p.receiver.step (.park i) = some receiver) :
    Shared cfg (events ++ [.pollRecv i]) { p with receiver } := by
  obtain ⟨hl, -, rfl⟩ := Mailbox.State.park_cases hr
  refine h.receiver rfl hr rfl rfl fun j => ?_
  have hf := h.follows j
  by_cases hji : j = i
  · subst hji
    simp only [Function.update_self]
    rw [h.sound.awake j hl] at hf
    exact .asleep hf.refines
  · simp only [Function.update_of_ne hji]
    exact hf

theorem shared_step (h : Shared cfg events p) (hs : p.step cfg e = some p') :
    Shared cfg (events ++ [e]) p' := by
  cases e with
  | resolve r =>
    simp only [step, Option.ite_none_right_eq_some] at hs
    obtain ⟨d, hd, rfl⟩ := Option.map_eq_some_iff.1 hs.2
    exact h.resolve hs.1 hd
  | send =>
    simp only [step] at hs
    split at hs
    · next item outbox hout =>
      obtain ⟨receiver, hr, rfl⟩ := Option.map_eq_some_iff.1 hs
      exact h.send hout hr
    · cases hs
  | startDiscovery i =>
    simp only [step] at hs
    split at hs
    · next ht =>
      obtain ⟨receiver, hr, rfl⟩ := Option.map_eq_some_iff.1 hs
      exact h.start ht hr
    · cases hs
      exact ⟨h.resolved_of rfl, h.sent, h.sound, h.follows⟩
  | tryLock i =>
    obtain ⟨receiver, hr, rfl⟩ := Option.map_eq_some_iff.1 hs
    refine h.receiver rfl hr rfl ?_ fun j => ?_
    · obtain ⟨-, ⟨-, rfl⟩ | ⟨-, rfl⟩⟩ := Mailbox.State.tryLock_cases hr <;> rfl
    · obtain ⟨-, ⟨-, rfl⟩ | ⟨-, rfl⟩⟩ := Mailbox.State.tryLock_cases hr <;> exact h.follows j
  | pollRecv i =>
    simp only [step] at hs
    split at hs
    · next item queue hq =>
      obtain ⟨receiver, hr, rfl⟩ := Option.map_eq_some_iff.1 hs
      exact h.receive hq hr
    · obtain ⟨receiver, hr, rfl⟩ := Option.map_eq_some_iff.1 hs
      exact h.park hr
  | spurious i =>
    obtain ⟨receiver, hr, rfl⟩ := Option.map_eq_some_iff.1 hs
    obtain ⟨-, rfl⟩ := Mailbox.State.spurious_cases hr
    exact h.receiver rfl hr rfl rfl h.follows

theorem shared (h : Run.run (step cfg) new events = some p) : Shared cfg events p :=
  Run.run_invariant (Shared cfg) shared_new shared_step h

/-- A change that was sent went to one of the proxies or is on its way, in the order of sending, and each
proxy serves what the changes it got itself stand for. -/
theorem each_change_once (h : Run.run (step cfg) new events = some p) :
    p.receiver.received.map (·.2) ++ (p.receiver.queue ++ p.outbox) = p.dns.sent ∧
      ∀ i, (p.proxies i).snapshot = (p.services cfg i).values :=
  ⟨(shared h).sent, fun i => ((shared h).follows i).snapshot⟩

def plainClones : ClonesConfig Bool :=
  ⟨{ hostname := "svc".toList, port := 80 }, by decide, .plain,
    fun _ => Balancer.plainConfig .roundRobin, fun _ => rfl⟩

/-- Two addresses, one for each of two proxies. -/
theorem each_change_once_two :
    let a : IpAddr := .V4 ⟨(10, 0, 0, 1)⟩
    let b : IpAddr := .V4 ⟨(10, 0, 0, 2)⟩
    let url := "http://10.0.0.1:80".toList
    let url' := "http://10.0.0.2:80".toList
    ∃ p, Run.run (step plainClones) new [.startDiscovery false, .startDiscovery true,
        .resolve ⟨.ok [a, b], [], [(a, url), (b, url')]⟩, .send, .tryLock false, .tryLock true,
          .pollRecv false, .send,
        .tryLock true, .pollRecv true] = some p ∧
      p.receiver.received = [(false, .ok (.insert a url)), (true, .ok (.insert b url'))] ∧
      p.receiver.received.map (·.2) ++ (p.receiver.queue ++ p.outbox) = p.dns.sent ∧
      ∀ i, (p.proxies i).snapshot = (p.services plainClones i).values := by
  intro a b url url'
  obtain ⟨p, hp, hrec⟩ : ∃ p, Run.run (step plainClones) new [.startDiscovery false, .startDiscovery true,
        .resolve ⟨.ok [a, b], [], [(a, url), (b, url')]⟩, .send, .tryLock false, .tryLock true,
          .pollRecv false, .send,
        .tryLock true, .pollRecv true] = some p ∧
      p.receiver.received = [(false, .ok (.insert a url)), (true, .ok (.insert b url'))] := ⟨_, rfl, rfl⟩
  exact ⟨p, hp, hrec, each_change_once hp⟩

/-! ### What the proxies serve between them -/

theorem exists_live_share {lib : UriLib} {received : List (ι × DiscoveryResult)}
    (h : Live lib ((received.map (·.2)).map discovered) ip) :
    ∃ i, Live lib ((Journal.notesOf received i).map discovered) ip := by
  induction received using List.reverseRecOn with
  | nil =>
    obtain ⟨pre, target, post, he, -⟩ := h
    simp at he
  | append_singleton received e ih =>
    obtain ⟨j, item⟩ := e
    simp only [List.map_append, List.map_singleton] at h
    rcases live_concat.1 h with ⟨target, hi, hu⟩ | ⟨hl, hne⟩
    · refine ⟨j, ?_⟩
      rw [share_concat, if_pos rfl]
      exact live_concat.2 (.inl ⟨target, hi, hu⟩)
    · obtain ⟨i, hi⟩ := ih hl
      refine ⟨i, ?_⟩
      rw [share_concat]
      split
      · exact live_concat.2 (.inr ⟨hi, hne⟩)
      · rw [List.append_nil]; exact hi

theorem discovered_eq_change {item : DiscoveryResult} {c : Change IpAddr Str} :
    discovered item = .change c ↔ item = .ok c := by
  cases item with
  | ok c' => exact ⟨fun h => by cases h; rfl, fun h => by cases h; rfl⟩
  | error e => exact ⟨nofun, nofun⟩

/-- Somebody else than `i` was told last that an address is gone. -/
def RemovedElsewhere (lib : UriLib) (received : List (ι × DiscoveryResult)) (i : ι) (ip : IpAddr) : Prop :=
  ∃ pre j post, received = pre ++ (j, .ok (.remove ip)) :: post ∧ j ≠ i ∧
    ∀ x target, (x, .ok (.insert ip target)) ∈ post → usableTarget lib target = false

omit [DecidableEq ι] in
theorem RemovedElsewhere.concat {lib : UriLib} {received : List (ι × DiscoveryResult)}
    {item : DiscoveryResult}
    (h : RemovedElsewhere lib received i ip)
    (hn : ∀ target, item = .ok (.insert ip target) → usableTarget lib target = false) :
    RemovedElsewhere lib (received ++ [(j, item)]) i ip := by
  obtain ⟨pre, k, post, rfl, hk, hpost⟩ := h
  refine ⟨pre, k, post ++ [(j, item)], by simp, hk, fun x target hm => ?_⟩
  rcases List.mem_append.1 hm with hm | hm
  · exact hpost x target hm
  · exact hn target (Prod.mk.inj (List.mem_singleton.1 hm)).2.symm

theorem live_or_removedElsewhere {lib : UriLib} {received : List (ι × DiscoveryResult)}
    (h : Live lib ((Journal.notesOf received i).map discovered) ip) :
    Live lib ((received.map (·.2)).map discovered) ip ∨ RemovedElsewhere lib received i ip := by
  induction received using List.reverseRecOn with
  | nil =>
    obtain ⟨pre, target, post, he, -⟩ := h
    simp at he
  | append_singleton received e ih =>
    obtain ⟨j, item⟩ := e
    rw [share_concat] at h
    simp only [List.map_append, List.map_singleton]
    by_cases hins : ∃ target, discovered item = .change (.insert ip target) ∧ usableTarget lib target = true
    · exact .inl (live_concat.2 (.inl hins))
    · have hold : Live lib ((Journal.notesOf received i).map discovered) ip ∧
          (i = j → discovered item ≠ .change (.remove ip)) := by
        split at h
        · exact ((live_concat.1 h).resolve_left hins).imp_right fun hne _ => hne
        · next hij => exact ⟨by rwa [List.append_nil] at h, fun h => absurd h hij⟩
      rcases ih hold.1 with hl | hr
      · by_cases hrem : discovered item = .change (.remove ip)
        · refine .inr ⟨received, j, [], ?_, fun hji => hold.2 hji.symm hrem, nofun⟩
          rw [discovered_eq_change.1 hrem]
        · exact .inl (live_concat.2 (.inr ⟨hl, hrem⟩))
      · refine .inr (hr.concat fun target hi => ?_)
        by_contra hu
        exact hins ⟨target, discovered_eq_change.2 hi, by simpa using hu⟩

omit [DecidableEq ι] in
theorem not_live_of_removedElsewhere {lib : UriLib} {received : List (ι × DiscoveryResult)}
    (h : RemovedElsewhere lib received i ip) : ¬ Live lib ((received.map (·.2)).map discovered) ip := by
  obtain ⟨pre, j, post, rfl, -, hpost⟩ := h
  induction post using List.reverseRecOn with
  | nil =>
    simp only [List.map_append, List.map_singleton]
    intro hl
    rcases live_concat.1 hl with ⟨_, hi, -⟩ | ⟨-, hne⟩
    · cases hi
    · exact hne rfl
  | append_singleton post e ih =>
    obtain ⟨x, item⟩ := e
    rw [← List.cons_append, ← List.append_assoc, List.map_append, List.map_append]
    intro hl
    rcases live_concat.1 hl with ⟨target, hi, hu⟩ | ⟨hl, -⟩
    · rw [hpost x target (by rw [← discovered_eq_change.1 hi]; simp)] at hu
      cases hu
    · exact ih (fun x target hm => hpost x target (List.mem_append_left _ hm)) hl

theorem Shared.live_sent (h : Shared cfg events p) : Live cfg.lib (p.dns.sent.map discovered) ip ↔
    ip ∈ latestAddresses (lookupsOf events) ∧ usableTarget cfg.lib (cfg.dns.serviceUrl ip) = true := by
  have hsync : DnsDiscovery.Synced cfg.dns (events.filterMap Event.resolution?) p.dns :=
    Run.run_invariant (DnsDiscovery.Synced cfg.dns) DnsDiscovery.synced_new
      DnsDiscovery.synced_step h.resolved
  have hlive := @mem_keys_registry _ _ (p.dns.sent.map discovered) ip
    { Balancer.plainConfig .roundRobin with lib := cfg.lib }
  rw [← hlive, Pipeline.mem_keys_registry_sent h.resolved]
  refine and_congr_left fun _ => ?_
  rw [mem_keys, hsync.latest]
  simp [lookupsOf]

theorem Shared.target_of_received (h : Shared cfg events p) {target : Str}
    (hm : (i, .ok (.insert ip target)) ∈ p.receiver.received) : target = cfg.dns.serviceUrl ip := by
  refine Pipeline.named_of_run h.resolved ip target (List.mem_map.2 ⟨.ok (.insert ip target), ?_, rfl⟩)
  rw [← h.sent]
  exact List.mem_append_left _ (List.mem_map.2 ⟨_, hm, rfl⟩)

theorem mem_services : ip ∈ (p.services cfg i).keys ↔ Live cfg.lib (p.share i) ip := by
  rw [services, mem_keys_registry, cfg.lib_eq]

/-- Once all changes have been received, every usable address of the latest lookup is served by one of
the proxies. One that is served and not of the latest lookup is one whose removal went to another
proxy. -/
theorem served_between_them (h : Run.run (step cfg) new events = some p) (hc : p.CaughtUp) :
    (∀ ip, ip ∈ latestAddresses (lookupsOf events) → usableTarget cfg.lib (cfg.dns.serviceUrl ip) = true →
      ∃ i, ip ∈ (p.services cfg i).keys) ∧
    ∀ i ip, ip ∈ (p.services cfg i).keys → (ip ∉ latestAddresses (lookupsOf events) ↔
      ∃ pre j post, p.receiver.received = pre ++ (j, .ok (.remove ip)) :: post ∧ j ≠ i ∧
        ∀ x target, (x, .ok (.insert ip target)) ∉ post) := by
  have hp := shared h
  have hsent : p.receiver.received.map (·.2) = p.dns.sent := by
    rw [← hp.sent, hc.1, hc.2, List.append_nil, List.append_nil]
  refine ⟨fun ip hip hu => ?_, fun i ip hi => ?_⟩
  · have hl := hp.live_sent.2 ⟨hip, hu⟩
    rw [← hsent] at hl
    obtain ⟨i, hi⟩ := exists_live_share hl
    exact ⟨i, mem_services.2 hi⟩
  · have hl := mem_services.1 hi
    -- what `i` serves is usable, and every insert of the address has the same target
    have hu : usableTarget cfg.lib (cfg.dns.serviceUrl ip) = true := by
      obtain ⟨pre, target, post, hs, hu, -⟩ := hl
      have hm : .change (.insert ip target) ∈ p.share i := by rw [hs]; simp
      obtain ⟨item, hitem, hd⟩ := List.mem_map.1 hm
      rw [discovered_eq_change.1 hd] at hitem
      rwa [← hp.target_of_received (Journal.mem_notesOf.1 hitem)]
    constructor
    · intro hip
      rcases live_or_removedElsewhere hl with hall | ⟨pre, j, post, he, hj, hpost⟩
      · rw [hsent] at hall
        exact absurd (hp.live_sent.1 hall).1 hip
      · refine ⟨pre, j, post, he, hj, fun x target hm => ?_⟩
        have hbad := hpost x target hm
        have hrec : (x, .ok (.insert ip target)) ∈ p.receiver.received := by rw [he]; simp [hm]
        rw [hp.target_of_received hrec, hu] at hbad
        cases hbad
    · rintro ⟨pre, j, post, he, hj, hpost⟩ hip
      have hall := hp.live_sent.2 ⟨hip, hu⟩
      rw [← hsent] at hall
      exact not_live_of_removedElsewhere ⟨pre, j, post, he, hj,
        fun x target hm => absurd hm (hpost x target)⟩ hall

/-- The first address goes, and the proxy that serves it is not told. -/
theorem served_between_them_gone :
    let a : IpAddr := .V4 ⟨(10, 0, 0, 1)⟩
    let b : IpAddr := .V4 ⟨(10, 0, 0, 2)⟩
    let url := "http://10.0.0.1:80".toList
    let url' := "http://10.0.0.2:80".toList
    ∃ p, Run.run (step plainClones) new [.startDiscovery false, .startDiscovery true,
        .resolve ⟨.ok [a, b], [], [(a, url), (b, url')]⟩, .send, .tryLock false, .pollRecv false, .send,
        .tryLock true, .pollRecv true, .resolve ⟨.ok [b], [a, b], [(b, url')]⟩, .send, .tryLock true,
        .pollRecv true] = some p ∧
      a ∈ (p.services plainClones false).keys ∧ (∃ i, b ∈ (p.services plainClones i).keys) ∧
      ∃ pre j post, p.receiver.received = pre ++ (j, .ok (.remove a)) :: post ∧ j ≠ false ∧
        ∀ x target, (x, .ok (.insert a target)) ∉ post := by
  intro a b url url'
  let events : List (Event Bool) := [.startDiscovery false, .startDiscovery true,
    .resolve ⟨.ok [a, b], [], [(a, url), (b, url')]⟩, .send, .tryLock false, .pollRecv false, .send,
    .tryLock true, .pollRecv true, .resolve ⟨.ok [b], [a, b], [(b, url')]⟩, .send, .tryLock true,
      .pollRecv true]
  obtain ⟨p, hp, hc, ha⟩ : ∃ p, Run.run (step plainClones) new events = some p ∧ p.CaughtUp ∧
      (p.services plainClones false).keys = [a] := ⟨_, rfl, ⟨rfl, rfl⟩, rfl⟩
  have hmem : a ∈ (p.services plainClones false).keys := by rw [ha]; exact List.mem_singleton_self a
  have hlatest : latestAddresses (lookupsOf events) = [b] := rfl
  obtain ⟨hlive, hgone⟩ := served_between_them hp hc
  refine ⟨p, hp, hmem, hlive b ?_ rfl, (hgone false a hmem).1 ?_⟩
  · rw [hlatest]; exact List.mem_singleton_self b
  · rw [hlatest]; exact by decide

/-! ### Wake-ups -/

/-- What a step does to the receiver when it starts no proxy. -/
theorem Shared.receiver_step (h : Shared cfg events p) (hs : p.step cfg e = some p')
    (hj : ∀ i, e ≠ .startDiscovery i) :
    p'.receiver = p.receiver ∧ (∀ i, e ≠ .pollRecv i) ∨
      ∃ me, p.receiver.step me = some p'.receiver ∧ (∀ i, me ≠ .join i) ∧
        ∀ i, me = .receive i true ↔ e = .pollRecv i ∧ p.Fatal cfg := by
  cases e with
  | resolve r =>
    simp only [step, Option.ite_none_right_eq_some] at hs
    obtain ⟨d, -, rfl⟩ := Option.map_eq_some_iff.1 hs.2
    exact .inl ⟨rfl, nofun⟩
  | send =>
    simp only [step] at hs
    split at hs
    · next item outbox hout =>
      obtain ⟨receiver, hr, rfl⟩ := Option.map_eq_some_iff.1 hs
      exact .inr ⟨_, hr, nofun, fun i => iff_of_false nofun nofun⟩
    · cases hs
  | startDiscovery i => exact absurd rfl (hj i)
  | tryLock i =>
    obtain ⟨receiver, hr, rfl⟩ := Option.map_eq_some_iff.1 hs
    exact .inr ⟨_, hr, nofun, fun j => iff_of_false nofun nofun⟩
  | pollRecv i =>
    simp only [step] at hs
    split at hs
    · next item queue hq =>
      obtain ⟨receiver, hr, rfl⟩ := Option.map_eq_some_iff.1 hs
      have hf := h.follows i
      rw [h.sound.awake i (Mailbox.State.receive_cases hr).1] at hf
      have hpanic : ((p.proxies i).poll (cfg.balancer i) (discovered item)).isPanicked = true ↔
        p.Fatal cfg := by
        rw [Fatal, ← cfg.lib_eq i]
        rcases hf.poll (discovered item) with ⟨hu, hp, -⟩ | ⟨hu, hp, -⟩
        · rw [hp]
          refine iff_of_false Bool.false_ne_true ?_
          rintro ⟨item', queue', hq', hu'⟩
          rw [hq] at hq'
          cases hq'
          exact hu hu'
        · exact iff_of_true hp ⟨item, queue, hq, hu⟩
      refine .inr ⟨_, hr, nofun, fun j => ?_⟩
      rw [Mailbox.Event.receive.injEq, Event.pollRecv.injEq, hpanic]
    · next hq =>
      obtain ⟨receiver, hr, rfl⟩ := Option.map_eq_some_iff.1 hs
      refine .inr ⟨_, hr, nofun, fun j => iff_of_false nofun ?_⟩
      rintro ⟨-, item, queue, hq', -⟩
      rw [hq] at hq'; cases hq'
  | spurious i =>
    obtain ⟨receiver, hr, rfl⟩ := Option.map_eq_some_iff.1 hs
    exact .inr ⟨_, hr, nofun, fun j => iff_of_false nofun nofun⟩

theorem Shared.attended_iff_of_step (h : Shared cfg events p) (hs : p.step cfg e = some p')
    (hj : ∀ i, e ≠ .startDiscovery i) : p'.receiver.Attended ↔
      p.receiver.Attended ∧ ∀ i, e = .pollRecv i → p.Fatal cfg → ∃ j, j ≠ i ∧
        p.receiver.readers j = .awake := by
  rcases h.receiver_step hs hj with ⟨hr, hne⟩ | ⟨me, hr, hjoin, hdies⟩
  · rw [hr]
    exact ⟨fun ha => ⟨ha, fun i he => absurd he (hne i)⟩, And.left⟩
  · rw [Mailbox.State.attended_iff_of_step h.sound hr hjoin]
    refine and_congr_right fun _ => forall_congr' fun i => ?_
    rw [hdies, and_imp]

/-- Nothing more is received by anybody once nobody looks after the receiver. -/
theorem Shared.received_of_unattended (h : Shared cfg events p) (ha : ¬ p.receiver.Attended)
    (hr : Run.run (step cfg) p events' = some p') (hj : ∀ i, .startDiscovery i ∉ events') :
    p'.receiver.received = p.receiver.received := by
  induction events' generalizing events p with
  | nil => cases hr; rfl
  | cons e events' ih =>
    rw [Run.run_cons, Option.bind_eq_some_iff] at hr
    obtain ⟨u, hu, hr⟩ := hr
    have hne : ∀ i, e ≠ .startDiscovery i := fun i he => hj i (he ▸ List.mem_cons_self)
    have hua : ¬ u.receiver.Attended := fun hua => ha ((h.attended_iff_of_step hu hne).1 hua).1
    rw [ih (shared_step h hu) hua hr fun i hm => hj i (List.mem_cons_of_mem _ hm)]
    rcases h.receiver_step hu hne with ⟨hrec, -⟩ | ⟨me, hrec, hjoin, -⟩
    · rw [hrec]
    · exact (Mailbox.State.unattended_step h.sound ha hrec hjoin).2

/-- The change that waits is received within two polls. -/
theorem receive_next (cfg : ClonesConfig ι) (ha : p.receiver.Attended) {item : DiscoveryResult}
    {queue : List DiscoveryResult}
    (hq : p.receiver.queue = item :: queue) : ∃ i polls p', (polls = [] ∨ polls = [.tryLock i]) ∧
      Run.run (step cfg) p (polls ++ [.pollRecv i]) = some p' ∧
      p'.receiver.received = p.receiver.received ++ [(i, item)] := by
  obtain ⟨i, hi⟩ := Mailbox.State.exists_reader ha (by rw [hq]; exact nofun)
  have hpoll : ∀ u : Clones ι, u.receiver.lock = some i → u.receiver.queue = item :: queue →
      ∃ p', u.step cfg (.pollRecv i) = some p' ∧ p'.receiver.received = u.receiver.received ++
        [(i, item)] := by
    intro u hl hq
    simp only [step, hq, Mailbox.State.step, hl, if_true]
    exact ⟨_, rfl, rfl⟩
  rcases hi with hl | hs
  · obtain ⟨p', hp', hrec⟩ := hpoll p hl hq
    exact ⟨i, [], p', .inl rfl, by rw [List.nil_append, Run.run_cons, hp']; rfl, hrec⟩
  · obtain ⟨p', hp', hrec⟩ := hpoll { p with receiver := { p.receiver with lock := some i } } rfl hq
    have ht : p.step cfg (.tryLock i) = some { p with receiver := { p.receiver with lock := some i } } := by
      simp only [step, hs]
      rfl
    refine ⟨i, [.tryLock i], p', .inr rfl, ?_, hrec⟩
    rw [List.singleton_append, Run.run_cons, ht, Option.bind_some, Run.run_cons, hp']
    rfl

/-- A change can always be made to wait, at the latest by a lookup that fails. -/
theorem Shared.exists_waiting (h : Shared cfg events p) (ha : p.receiver.Attended) : ∃ events' u,
    (∀ i, .startDiscovery i ∉ events') ∧ Run.run (step cfg) p events' = some u ∧ u.receiver.Attended ∧
      u.receiver.queue ≠ [] ∧ u.receiver.received = p.receiver.received := by
  have hsend : ∀ {events u item outbox}, Shared cfg events u → u.receiver.Attended →
    u.outbox = item :: outbox →
      ∃ v, u.step cfg .send = some v ∧ v.receiver.Attended ∧ v.receiver.queue ≠ [] ∧
        v.receiver.received = u.receiver.received := by
    intro events u item outbox hu hua hout
    obtain ⟨v, hv, hq, hrec⟩ : ∃ v, u.step cfg .send = some v ∧
      v.receiver.queue = u.receiver.queue ++ [item] ∧
        v.receiver.received = u.receiver.received := by
      simp only [step, hout]
      exact ⟨_, rfl, rfl, rfl⟩
    exact ⟨v, hv, (hu.attended_iff_of_step hv nofun).2 ⟨hua, nofun⟩, by rw [hq]; simp, hrec⟩
  by_cases hout : p.outbox = []
  · have hres : p.step cfg (.resolve ⟨.error [], [], []⟩) = some { p with
        dns := { p.dns with sent := p.dns.sent ++ [.error (cfg.dns.lookupFailed [])] }
        outbox := [.error (cfg.dns.lookupFailed [])] } := by
      have hd : p.dns.step cfg.dns ⟨.error [], [], []⟩ =
          some { p.dns with sent := p.dns.sent ++ [.error (cfg.dns.lookupFailed [])] } :=
            DnsDiscovery.step_error rfl
      simp only [step, if_pos hout, hd, Option.map_some, List.drop_left]
    obtain ⟨v, hv, hva, hq, hrec⟩ := hsend (shared_step h hres) ha rfl
    refine ⟨[.resolve ⟨.error [], [], []⟩, .send], v, by simp, ?_, hva, hq, hrec⟩
    rw [Run.run_cons, hres, Option.bind_some, Run.run_cons, hv]
    rfl
  · obtain ⟨item, outbox, hout⟩ := List.exists_cons_of_ne_nil hout
    obtain ⟨v, hv, hva, hq, hrec⟩ := hsend h ha hout
    exact ⟨[.send], v, by simp, by rw [Run.run_cons, hv]; rfl, hva, hq, hrec⟩

/-- As long as the receiver is attended a change that waits is received within two polls, and without
another proxy something can still be received only then. -/
theorem received_again_iff (h : Run.run (step cfg) new events = some p) :
    (p.receiver.Attended → ∀ item queue, p.receiver.queue = item :: queue → ∃ i polls p',
      (polls = [] ∨ polls = [.tryLock i]) ∧ Run.run (step cfg) p (polls ++ [.pollRecv i]) = some p' ∧
      p'.receiver.received = p.receiver.received ++ [(i, item)]) ∧
    ((∃ events' p', (∀ i, .startDiscovery i ∉ events') ∧ Run.run (step cfg) p events' = some p' ∧
      p'.receiver.received ≠ p.receiver.received) ↔ p.receiver.Attended) := by
  have hp := shared h
  refine ⟨fun ha item queue hq => receive_next cfg ha hq, ?_, fun ha => ?_⟩
  · rintro ⟨events', p', hj, hr, hne⟩
    by_contra ha
    exact hne (hp.received_of_unattended ha hr hj)
  · obtain ⟨events₁, u, hj, hr, hua, hq, hrec⟩ := hp.exists_waiting ha
    obtain ⟨item, queue, hq⟩ := List.exists_cons_of_ne_nil hq
    obtain ⟨i, polls, p', hpolls, hr', hrec'⟩ := receive_next cfg hua hq
    refine ⟨events₁ ++ (polls ++ [.pollRecv i]), p', fun k hm => ?_, ?_, ?_⟩
    · rcases List.mem_append.1 hm with hm | hm
      · exact hj k hm
      · rcases hpolls with rfl | rfl <;> simp at hm
    · rw [Run.run_append, hr]; exact hr'
    · rw [hrec', hrec]; simp

/-- Nobody has polled yet. -/
theorem received_again_iff_waiting :
    let a : IpAddr := .V4 ⟨(10, 0, 0, 1)⟩
    let url := "http://10.0.0.1:80".toList
    ∃ p, Run.run (step plainClones) new [.startDiscovery true, .resolve ⟨.ok [a], [], [(a, url)]⟩,
      .send] = some p ∧
      p.receiver.queue = [.ok (.insert a url)] ∧
      (∃ i polls p', (polls = [] ∨ polls = [.tryLock i]) ∧
        Run.run (step plainClones) p (polls ++ [.pollRecv i]) = some p' ∧
        p'.receiver.received = p.receiver.received ++ [(i, .ok (.insert a url))]) ∧
      ∃ events' p', (∀ i, .startDiscovery i ∉ events') ∧ Run.run (step plainClones) p events' = some p' ∧
        p'.receiver.received ≠ p.receiver.received := by
  intro a url
  obtain ⟨p, hp, hq, ha⟩ : ∃ p, Run.run (step plainClones) new [.startDiscovery true,
      .resolve ⟨.ok [a], [], [(a, url)]⟩, .send] = some p ∧ p.receiver.queue = [.ok (.insert a url)] ∧
      p.receiver.readers true = .awake := ⟨_, rfl, rfl, rfl⟩
  obtain ⟨hnext, hiff⟩ := received_again_iff hp
  exact ⟨p, hp, hq, hnext (.inl ⟨true, ha⟩) _ _ hq, hiff.2 (.inl ⟨true, ha⟩)⟩

/-- A receiver that is attended stays so exactly when at every panic of a discovery task that of another
proxy is awake. -/
theorem attended_iff (h : Run.run (step cfg) new events = some p) (ha : p.receiver.Attended)
    (h' : Run.run (step cfg) p events' = some p') (hj : ∀ i, .startDiscovery i ∉ events') :
    p'.receiver.Attended ↔ ∀ pre i post u, events' = pre ++ .pollRecv i :: post →
      Run.run (step cfg) p pre = some u →
      u.Fatal cfg → ∃ j, j ≠ i ∧ u.receiver.readers j = .awake := by
  rw [Run.run_iff_forall_of_invariant (I := fun u => ∃ events, Shared cfg events u)
    (Q := fun u => u.receiver.Attended)
    (P := fun u e => ∀ i, e = .pollRecv i → u.Fatal cfg → ∃ j, j ≠ i ∧
      u.receiver.readers j = .awake) ⟨_, shared h⟩
    ?_ ha ?_ h']
  · constructor
    · intro hall pre i post u he hu
      exact hall pre _ post u he hu i rfl
    · rintro hall pre _ post u he hu i rfl
      exact hall pre i post u he hu
  · rintro u e u' ⟨events, hu⟩ hs
    exact ⟨_, shared_step hu hs⟩
  · rintro e he u u' ⟨events, hu⟩ hs
    exact hu.attended_iff_of_step hs fun i hi => hj i (hi ▸ he)

/-- The woken proxy goes down with an IPv6 address, while the other sleeps. -/
theorem attended_iff_loopback :
    let a : IpAddr := .V4 ⟨(10, 0, 0, 1)⟩
    let loopback : IpAddr := .V6 ⟨[0, 0, 0, 0, 0, 0, 0, 1], rfl⟩
    let url := "http://10.0.0.1:80".toList
    let url' := "http://::1:80".toList
    ∃ p p', Run.run (step plainClones) new [.startDiscovery false, .startDiscovery true, .tryLock false,
        .pollRecv false, .tryLock true, .pollRecv true] = some p ∧ p.receiver.Attended ∧
      Run.run (step plainClones) p [.resolve ⟨.ok [a, loopback], [], [(loopback, url'), (a, url)]⟩, .send,
        .send, .tryLock true, .pollRecv true] = some p' ∧
      p'.receiver.queue = [.ok (.insert a url)] ∧ (p'.proxies false).isPanicked = false ∧
        ¬ p'.receiver.Attended := by
  intro a loopback url url'
  obtain ⟨p, hp, ha⟩ : ∃ p, Run.run (step plainClones) new [.startDiscovery false, .startDiscovery true,
      .tryLock false, .pollRecv false, .tryLock true, .pollRecv true] = some p ∧ p.receiver.Attended :=
    ⟨_, rfl, .inr ⟨rfl, true, rfl, rfl⟩⟩
  obtain ⟨u, hu, hq, hr⟩ : ∃ u, Run.run (step plainClones) p
    [.resolve ⟨.ok [a, loopback], [], [(loopback, url'), (a, url)]⟩,
      .send, .send, .tryLock true] = some u ∧
      u.receiver.queue = [.ok (.insert loopback url'), .ok (.insert a url)] ∧
        u.receiver.readers false = .asleep := by
    cases hp
    exact ⟨_, rfl, rfl, rfl⟩
  obtain ⟨p', hp', hq', hd⟩ : ∃ p', Run.run (step plainClones) p
    [.resolve ⟨.ok [a, loopback], [], [(loopback, url'), (a, url)]⟩,
      .send, .send, .tryLock true, .pollRecv true] = some p' ∧ p'.receiver.queue = [.ok (.insert a url)] ∧
      (p'.proxies false).isPanicked = false := by
    cases hp
    exact ⟨_, rfl, rfl, rfl⟩
  refine ⟨p, p', hp, ha, hp', hq', hd, fun ha' => ?_⟩
  obtain ⟨j, hj, hawake⟩ := (attended_iff hp ha hp' (by simp)).1 ha' _ true [] u rfl hu
    ⟨_, _, hq, loopback, url', rfl, by decide⟩
  rw [show j = false by simpa using hj, hr] at hawake
  cases hawake

end Clones

end AxumReverseProxy
