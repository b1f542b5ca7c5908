import AxumReverseProxy.Balanced.Discovery

/-!
# Pending requests

Under `P2cPendingRequests` a request counts itself on the metrics of the endpoint it selects, and its
guard uncounts it there when the future goes away. The counter of a metrics object is the number of
started requests on it, whatever discovery does in between (`pending_counts_started`). A future takes
memory, so that fewer than `2 ^ usizeBits` are alive and no counter wraps.
-/

namespace AxumReverseProxy

namespace InFlight

/-- The request is started, on an endpoint that owns `m`. -/
def owns (m : MetricsId) (r : InFlight) : Bool :=
  match r.phase with
  | .started endpoint => endpoint.metrics = m
  | _ => false

@[simp] theorem owns_created {m : MetricsId} {s : Snapshot} : owns m ⟨s, .created⟩ = false := rfl
@[simp] theorem owns_started {m : MetricsId} {s : Snapshot} {e : Endpoint} :
    owns m ⟨s, .started e⟩ = decide (e.metrics = m) := rfl
@[simp] theorem owns_finished {m : MetricsId} {s : Snapshot} {e : Option Endpoint} :
    owns m ⟨s, .finished e⟩ = false := rfl
@[simp] theorem isFinished_created {s : Snapshot} : isFinished ⟨s, .created⟩ = false := rfl
@[simp] theorem isFinished_started {s : Snapshot} {e : Endpoint} : isFinished ⟨s, .started e⟩ = false := rfl
@[simp] theorem isFinished_finished {s : Snapshot} {e : Option Endpoint} :
    isFinished ⟨s, .finished e⟩ = true := rfl

def DispatchedTo (r : InFlight) (endpoint : Endpoint) : Prop :=
  r.phase = .started endpoint ∨ r.phase = .finished (some endpoint)

end InFlight

namespace Balancer

open Run

variable {κ : Type} [DecidableEq κ] {cfg : BalancerConfig} {b b' : Balancer κ} {e : Event κ}
  {events : List (Event κ)} {m : MetricsId} {n : Nat}

theorem fetchAdd_of_lt (h : n + 1 < 2 ^ cfg.usizeBits) : fetchAdd cfg n = n + 1 := Nat.mod_eq_of_lt h

theorem fetchSub_of_lt (h : n + 1 < 2 ^ cfg.usizeBits) : fetchSub cfg (n + 1) = n := by
  unfold fetchSub
  rw [show n + 1 + (2 ^ cfg.usizeBits - 1) = n + 2 ^ cfg.usizeBits by omega, Nat.add_mod_right]
  exact Nat.mod_eq_of_lt (by omega)

/-- Every counter is the number of started requests on it, and the futures fit in memory. -/
structure Counted (cfg : BalancerConfig) (b : Balancer κ) : Prop where
  pending : ∀ m, b.pendingRequests m = b.requests.countP (·.owns m)
  alive : b.alive < 2 ^ cfg.usizeBits
  dispatched : ∀ r ∈ b.requests, ∀ endpoint, r.DispatchedTo endpoint → endpoint ∈ r.snapshot

theorem countP_set_add {α : Type*} {l : List α} {i : Nat} {a : α} (p : α → Bool)
    (h : l[i]? = some a) (a' : α) :
    (l.set i a').countP p + (if p a = true then 1 else 0) =
      l.countP p + (if p a' = true then 1 else 0) := by
  obtain ⟨hi, ha⟩ := List.getElem?_eq_some_iff.1 h
  have hpos : p a = true → 0 < l.countP p := fun hp => List.countP_pos_iff.2 ⟨a, List.mem_of_getElem? h, hp⟩
  rw [List.countP_set hi, ha]
  by_cases h1 : p a = true
  · have := hpos h1
    simp only [h1, if_true]
    omega
  · simp [h1]

omit [DecidableEq κ] in
theorem countP_owns_le_alive (l : List InFlight) (m : MetricsId) :
    l.countP (·.owns m) ≤ l.countP fun r => !r.isFinished := by
  refine List.countP_mono_left fun r _ h => ?_
  unfold InFlight.owns at h
  unfold InFlight.isFinished
  cases hr : r.phase <;> simp_all

omit [DecidableEq κ] in
theorem count_lt_alive {i : Nat} {snapshot : Snapshot} (h : b.requests[i]? = some ⟨snapshot, .created⟩)
    (m : MetricsId) :
    b.requests.countP (·.owns m) < b.alive := by
  have hle := countP_owns_le_alive (b.requests.set i ⟨snapshot, .finished none⟩) m
  have h1 := countP_set_add (·.owns m) h ⟨snapshot, .finished none⟩
  have h2 := countP_set_add (fun r => !r.isFinished) h ⟨snapshot, .finished none⟩
  simp at h1 h2
  unfold alive
  omega

omit [DecidableEq κ] in
/-- A live request goes on to another phase, and the counters with it. -/
theorem Counted.set (h : Counted cfg b) {i : Nat} {r r' : InFlight} {counter : Nat}
    {pending : MetricsId → Nat}
    (hr : b.requests[i]? = some r) (hlive : r.isFinished = false)
    (hpend : ∀ m, pending m + (if r.owns m = true then 1 else 0) =
      b.pendingRequests m + if r'.owns m = true then 1 else 0)
    (hdisp : ∀ endpoint, r'.DispatchedTo endpoint → endpoint ∈ r'.snapshot) :
    Counted cfg { b with counter, pendingRequests := pending, requests := b.requests.set i r' } where
  pending m := by
    have hcount := countP_set_add (·.owns m) hr r'
    have hm := hpend m
    rw [h.pending, ← hcount] at hm
    exact Nat.add_right_cancel hm
  alive := by
    have hcount := countP_set_add (fun r => !r.isFinished) hr r'
    have halive := h.alive
    simp only [hlive, Bool.not_false, if_true] at hcount
    unfold Balancer.alive at halive ⊢
    show List.countP _ (b.requests.set i r') < _
    split at hcount <;> omega
  dispatched r'' hm := by
    rcases List.mem_or_eq_of_mem_set hm with hm | rfl
    · exact h.dispatched r'' hm
    · exact hdisp

omit [DecidableEq κ] in
theorem Counted.finish (h : Counted cfg b) {i : Nat} {snapshot : Snapshot}
    (hr : b.requests[i]? = some ⟨snapshot, .created⟩) :
    Counted cfg { b with requests := b.requests.set i ⟨snapshot, .finished none⟩ } := by
  refine h.set hr rfl (fun m => by simp) fun endpoint hd => ?_
  rcases hd with hd | hd <;> cases hd

omit [DecidableEq κ] in
theorem Counted.dispatch (h : Counted cfg b) {i : Nat} {snapshot : Snapshot} {endpoint : Endpoint}
    (counter : Nat)
    (hr : b.requests[i]? = some ⟨snapshot, .created⟩) (he : endpoint ∈ snapshot) :
    Counted cfg { b with
      counter
      pendingRequests :=
        Function.update b.pendingRequests endpoint.metrics
          (fetchAdd cfg (b.pendingRequests endpoint.metrics))
      requests := b.requests.set i ⟨snapshot, .started endpoint⟩ } := by
  refine h.set hr rfl (fun m => ?_) fun endpoint' hd => ?_
  · by_cases hm : m = endpoint.metrics
    · subst hm
      have hlt := count_lt_alive hr endpoint.metrics
      rw [← h.pending] at hlt
      rw [Function.update_self, fetchAdd_of_lt (Nat.lt_of_le_of_lt hlt h.alive)]
      simp
    · rw [Function.update_of_ne hm]
      simp [Ne.symm hm]
  · rcases hd with hd | hd <;> cases hd
    exact he

omit [DecidableEq κ] in
theorem Counted.pos (h : Counted cfg b) {i : Nat} {snapshot : Snapshot} {endpoint : Endpoint}
    (hr : b.requests[i]? = some ⟨snapshot, .started endpoint⟩) :
    0 < b.pendingRequests endpoint.metrics := by
  rw [h.pending]
  exact List.countP_pos_iff.2 ⟨_, List.mem_of_getElem? hr, by simp [InFlight.owns]⟩

omit [DecidableEq κ] in
theorem Counted.fetchSub_add_one (h : Counted cfg b) {i : Nat} {snapshot : Snapshot} {endpoint : Endpoint}
    (hr : b.requests[i]? = some ⟨snapshot, .started endpoint⟩) :
    fetchSub cfg (b.pendingRequests endpoint.metrics) + 1 = b.pendingRequests endpoint.metrics := by
  have hpos := h.pos hr
  have hle := countP_owns_le_alive b.requests endpoint.metrics
  have halive := h.alive
  rw [Balancer.alive] at halive
  rw [← h.pending] at hle
  obtain ⟨n, hn⟩ := Nat.exists_eq_succ_of_ne_zero (Nat.ne_of_gt hpos)
  rw [hn] at hle ⊢
  rw [fetchSub_of_lt (by omega)]

omit [DecidableEq κ] in
theorem Counted.release (h : Counted cfg b) (hp : cfg.strategy = .p2cPendingRequests) {i : Nat}
    {snapshot : Snapshot}
    {endpoint : Endpoint} (hr : b.requests[i]? = some ⟨snapshot, .started endpoint⟩) :
    Counted cfg (b.release cfg i snapshot endpoint) := by
  have hsub := h.fetchSub_add_one hr
  unfold Balancer.release
  rw [if_pos hp]
  refine h.set hr rfl (fun m => ?_) fun endpoint' hd => ?_
  · by_cases hm : m = endpoint.metrics
    · subst hm
      rw [Function.update_self]
      simpa using hsub
    · rw [Function.update_of_ne hm]
      simp [Ne.symm hm]
  · rcases hd with hd | hd <;> cases hd
    exact h.dispatched _ (List.mem_of_getElem? hr) endpoint (.inl rfl)

theorem counted_step (h : Counted cfg b) (hp : cfg.strategy = .p2cPendingRequests) (hs : Steps cfg b e b') :
    Counted cfg b' := by
  cases hs with
  | call ha =>
    obtain ⟨hpend, -, hdisp⟩ := h
    refine ⟨fun m => ?_, ?_, ?_⟩
    · rw [List.countP_append, ← hpend]; rfl
    · rw [alive, List.countP_append]; exact ha
    · refine List.forall_mem_append.2 ⟨hdisp, fun r hr endpoint hd => ?_⟩
      rw [List.mem_singleton.1 hr] at hd
      rcases hd with hd | hd <;> cases hd
  | refused hr => exact h.finish hr
  | dispatched hr he => rw [if_pos hp]; exact h.dispatch _ hr he
  | completed hr => exact h.release hp hr
  | cancelled hr => exact h.release hp hr
  | discarded hr => exact h.finish hr
  | _ => exact ⟨h.pending, h.alive, h.dispatched⟩

theorem counted (h : run (step cfg) new events = some b) (hp : cfg.strategy = .p2cPendingRequests) :
    Counted cfg b := by
  refine run_preserves (Counted cfg) ⟨fun _ => rfl,
    ?_, by simp [new]⟩ (fun h hs => counted_step h hp (steps_of_step hs)) h
  exact Nat.two_pow_pos _

/-- In every state reached each counter is the number of started requests whose endpoint owns it. A
request goes to an endpoint of the snapshot of its call; when it ends its own counter, which is not
zero, goes down by one, and that of no other endpoint changes. -/
theorem pending_counts_started (h : run (step cfg) new events = some b)
    (hp : cfg.strategy = .p2cPendingRequests) :
    (∀ m, b.pendingRequests m = b.requests.countP (·.owns m)) ∧
    (∀ (i : Nat) r, b.requests[i]? = some r → CalledAt cfg events i r.snapshot ∧
      ∀ endpoint, r.DispatchedTo endpoint → endpoint ∈ r.snapshot) ∧
    ∀ i snapshot endpoint, b.requests[i]? = some ⟨snapshot, .started endpoint⟩ →
      ∀ e ∈ [.completed i, .dropped i], ∃ b', step cfg b e = some b' ∧
        b'.pendingRequests endpoint.metrics + 1 = b.pendingRequests endpoint.metrics ∧
        (∀ m ≠ endpoint.metrics, b'.pendingRequests m = b.pendingRequests m) ∧
        ∀ other ∈ b.discovery.snapshot, other ≠ endpoint → other.metrics ≠ endpoint.metrics := by
  have hc := counted h hp
  refine ⟨hc.pending, fun i r hr => ⟨calledAt h hr, hc.dispatched r (List.mem_of_getElem? hr)⟩, ?_⟩
  intro i snapshot endpoint hr e he
  have hstep : step cfg b e = some (b.release cfg i snapshot endpoint) := by
    rcases List.mem_pair.1 he with rfl | rfl <;> simp only [step, hr]
  refine ⟨_, hstep, ?_, fun m hm => ?_, fun other ho hne hm => hne ?_⟩
  · simp only [Balancer.release, if_pos hp, Function.update_self]
    exact hc.fetchSub_add_one hr
  · simp only [Balancer.release, if_pos hp, Function.update_of_ne hm]
  · have hmem := hc.dispatched _ (List.mem_of_getElem? hr) endpoint (.inl rfl)
    obtain ⟨k, hk⟩ := (calledAt h hr).seen hmem
    rw [snapshot_eq_polled h] at ho
    obtain ⟨k', hk'⟩ := seen_of_mem_polled ho
    exact (hk'.eq_of_metrics hk hm).2

/-- A request whose endpoint is replaced is counted on the old metrics object. -/
theorem pending_counts_started_replaced :
    ∃ b : Balancer Nat, run (step (plainConfig .p2cPendingRequests)) new
        [.startDiscovery, .discovered (.change (.insert 0 "http://a".toList)), .call,
          .firstPoll 0 [] (fun _ => 0), .discovered (.change (.insert 0 "http://b".toList))] = some b ∧
      b.pendingRequests 0 = 1 ∧ b.pendingRequests 1 = 0 := by
  obtain ⟨b, hb, hreq⟩ : ∃ b : Balancer Nat, run (step (plainConfig .p2cPendingRequests)) new
      [.startDiscovery, .discovered (.change (.insert 0 "http://a".toList)), .call,
        .firstPoll 0 [] (fun _ => 0), .discovered (.change (.insert 0 "http://b".toList))] = some b ∧
      b.requests.countP (·.owns 0) = 1 ∧ b.requests.countP (·.owns 1) = 0 := ⟨_, rfl, by decide, by decide⟩
  have h := pending_counts_started hb rfl
  exact ⟨b, hb, (h.1 0).trans hreq.1, (h.1 1).trans hreq.2⟩

end Balancer

end AxumReverseProxy
