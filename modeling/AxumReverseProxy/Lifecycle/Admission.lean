import AxumReverseProxy.Lifecycle.Ownership

/-!
# Admission

The layer that holds a semaphore permit and a count of the active requests in the guard of each
request it admits. A permit is out exactly as long as the resource of its guard is somewhere
(`admission_bounds`); so when the semaphore is closed and the count is back at zero, nothing is
forwarded under a guard any more (`shutdown_complete`).
-/

namespace AxumReverseProxy

open Journal

def World.released (w : World) : Nat := total w.journal .released

/-- A request that was admitted, as far as its guard goes. -/
structure Admitted where
  world : World
  /-- the count has been raised for it -/
  counted : Bool
  /-- and lowered again -/
  left : Bool

structure Admission where
  permits : Nat
  closed : Bool
  active : Nat
  requests : List Admitted

inductive AdmissionEvent
  /-- a request arrives: a permit is taken, or it is answered 503 -/
  | arrive
  | count (i : Nat)
  /-- something happens to the guard of a request -/
  | guarded (i : Nat) (e : Event)
  /-- the second part of the resource is dropped -/
  | leave (i : Nat)
  | close

/-- What happened to the guard of request `i`. -/
def guardedEvents (i : Nat) (events : List AdmissionEvent) : List Event :=
  events.filterMap fun
    | .guarded j e => if j = i then some e else none
    | _ => none

/-- A request carries the guard it was admitted with, or none. -/
def Event.Own (guard : TunnelGuard) : Event → Prop
  | .forward _ _ _ req => req.extensions.tunnelGuard = none ∨ req.extensions.tunnelGuard = some guard
  | _ => True

instance (guard : TunnelGuard) : DecidablePred (Event.Own guard)
  | .forward _ _ _ _ => inferInstanceAs (Decidable (_ ∨ _))
  | .clone | .drop | .start _ | .attempt _ _ => isTrue trivial

namespace Admission

def new (n : Nat) : Admission := ⟨n, false, 0, []⟩

def step (s : Admission) : AdmissionEvent → Option Admission
  | .arrive =>
    if s.closed ∨ s.permits = 0 then some s
    else some { s with permits := s.permits - 1, requests := s.requests ++ [⟨.new, false, false⟩] }
  | .count i => do
    let r ← s.requests[i]?
    if r.counted then none
    else some { s with active := s.active + 1, requests := s.requests.set i { r with counted := true } }
  | .guarded i e => do
    let r ← s.requests[i]?
    if r.counted ∧ e.Own ⟨i⟩ then do
      let world ← r.world.step ⟨i⟩ e
      -- the permit goes back when the resource is dropped
      some { s with permits := s.permits + (world.released - r.world.released),
                    requests := s.requests.set i { r with world } }
    else none
  | .leave i => do
    let r ← s.requests[i]?
    if r.counted ∧ ¬ r.left ∧ r.world.released = 1 then
      some { s with active := s.active - 1, requests := s.requests.set i { r with left := true } }
    else none
  | .close => some { s with closed := true }

end Admission

namespace Admitted

/-- The permit is out. -/
def live (r : Admitted) : Nat := 1 - r.world.released

def inCount (r : Admitted) : Nat := if r.counted ∧ ¬ r.left then 1 else 0

/-- A request that is not counted yet has its permit, and one that has left the count has none. -/
structure Sound (i : Nat) (events : List Event) (r : Admitted) : Prop where
  owned : r.world.Owned ⟨i⟩ (activities events)
  fresh : r.counted = false → r.world.released = 0
  gone : r.left = true → r.counted = true ∧ r.world.released = 1

end Admitted

namespace Admission

def live (s : Admission) : Nat := (s.requests.map Admitted.live).sum

def inCount (s : Admission) : Nat := (s.requests.map Admitted.inCount).sum

structure Sound (n : Nat) (events : List AdmissionEvent) (s : Admission) : Prop where
  requests : ∀ (i : Nat) (r : Admitted), s.requests[i]? = some r → r.Sound i (guardedEvents i events)
  untouched : ∀ i, s.requests.length ≤ i → guardedEvents i events = []
  permits : s.permits + s.live = n
  active : s.active = s.inCount

end Admission

variable {guard : TunnelGuard} {w w' : World} {e : Event} {acts : List Activity} {n i : Nat}
  {r r' : Admitted} {s s' t : Admission} {ev : AdmissionEvent} {events : List AdmissionEvent}

@[simp] theorem guardedEvents_append (more : List AdmissionEvent) :
    guardedEvents i (events ++ more) = guardedEvents i events ++ guardedEvents i more :=
      List.filterMap_append

@[simp] theorem guardedEvents_guarded {j : Nat} :
    guardedEvents i [.guarded j e] = if j = i then [e] else [] := by
  by_cases h : j = i <;> simp [guardedEvents, h]

/-! ### The resource of a request -/

theorem World.journal_act (h : w.act guard e = some w') : ∃ ns, w'.journal = w.journal ++ ns := by
  cases e with
  | clone =>
    simp only [act] at h
    split at h
    · cases h
    · cases h; exact ⟨[], (List.append_nil _).symm⟩
  | drop =>
    simp only [act] at h
    split at h
    · cases h
    · cases h; exact ⟨[], (List.append_nil _).symm⟩
  | forward env policy uri req =>
    simp only [act] at h
    split at h
    · split at h
      · cases h
      · cases h; exact ⟨[], (List.append_nil _).symm⟩
    · cases h; exact ⟨[], (List.append_nil _).symm⟩
  | start i =>
    simp only [act] at h
    obtain ⟨a, -, h⟩ := Option.bind_eq_some_iff.1 h
    split at h
    · obtain ⟨next, -, rfl⟩ := Option.map_eq_some_iff.1 h
      exact ⟨_, rfl⟩
    · cases h
  | attempt i e =>
    simp only [act] at h
    obtain ⟨a, -, h⟩ := Option.bind_eq_some_iff.1 h
    obtain ⟨next, -, rfl⟩ := Option.map_eq_some_iff.1 h
    exact ⟨_, rfl⟩

theorem World.released_le_of_step (h : w.step guard e = some w') : w.released ≤ w'.released := by
  obtain ⟨u, hu, rfl⟩ := Option.map_eq_some_iff.1 h
  obtain ⟨ns, hns⟩ := journal_act hu
  have hle : u.released ≤ (u.collect guard).released := by
    unfold collect
    split
    · rw [released, released, total_append]
      exact Nat.le_add_right ..
    · exact Nat.le_refl _
  refine Nat.le_trans ?_ hle
  rw [released, released, hns, total_append]
  exact Nat.le_add_right ..

theorem World.Owned.released_le (h : w.Owned guard acts) : w.released ≤ 1 := by
  have := h.token
  rw [released]
  omega

/-! ### Permits and the count -/

theorem Admitted.sound_new : Admitted.Sound i [] ⟨.new, false, false⟩ :=
  ⟨World.owned_new, fun _ => rfl, nofun⟩

namespace Admission

theorem sound_new : Sound n [] (new n) :=
  ⟨fun _ _ hr => by simp [new] at hr, fun _ _ => rfl, Nat.add_zero n, rfl⟩

theorem Sound.quiet (h : Sound n events s) (hev : ∀ i, guardedEvents i [ev] = []) :
    Sound n (events ++ [ev]) s := by
  refine ⟨fun i r hr => ?_, fun i hi => ?_, h.permits, h.active⟩
  · rw [guardedEvents_append, hev, List.append_nil]
    exact h.requests i r hr
  · rw [guardedEvents_append, hev, List.append_nil]
    exact h.untouched i hi

/-- A request changes, with the permits and the count as it is changed. -/
theorem Sound.set {permits active : Nat} (h : Sound n events s) (hr : s.requests[i]? = some r)
    (hr' : r'.Sound i (guardedEvents i (events ++ [ev]))) (hev : ∀ j, j ≠ i → guardedEvents j [ev] = [])
    (hp : permits + r'.live = s.permits + r.live) (ha : active + r.inCount = s.active + r'.inCount) :
    Sound n (events ++ [ev]) { s with permits, active, requests := s.requests.set i r' } := by
  have hi := (List.getElem?_eq_some_iff.1 hr).1
  have hlive := sum_map_set Admitted.live r' hr
  have hcount := sum_map_set Admitted.inCount r' hr
  have hpermits := h.permits
  have hactive := h.active
  unfold live at hpermits
  unfold inCount at hactive
  refine ⟨fun j q hq => ?_, fun j hj => ?_, ?_, ?_⟩
  · rcases eq_or_ne j i with rfl | hj
    · obtain rfl : r' = q := by simpa [List.getElem?_set_self hi] using hq
      exact hr'
    · rw [guardedEvents_append, hev j hj, List.append_nil]
      exact h.requests j q (by simpa [List.getElem?_set_ne hj.symm] using hq)
  · rw [List.length_set] at hj
    rw [guardedEvents_append, hev j (by omega), List.append_nil]
    exact h.untouched j hj
  · show permits + ((s.requests.set i r').map Admitted.live).sum = n
    omega
  · show active = ((s.requests.set i r').map Admitted.inCount).sum
    omega

theorem Sound.arrive (h : Sound n events s) (hp : s.permits ≠ 0) :
    Sound n (events ++ [.arrive])
      { s with permits := s.permits - 1, requests := s.requests ++ [⟨.new, false, false⟩] } := by
  have hpermits := h.permits
  unfold live at hpermits
  have hsame : ∀ i, guardedEvents i (events ++ [.arrive]) = guardedEvents i events := fun i =>
    (guardedEvents_append ..).trans (List.append_nil _)
  refine ⟨fun j q hq => ?_, fun j hj => ?_, ?_, ?_⟩
  · rw [hsame]
    rw [List.getElem?_append] at hq
    split at hq
    · exact h.requests j q hq
    · next hj =>
      obtain ⟨-, rfl⟩ : _ ∧ ⟨.new, false, false⟩ = q := by simpa using List.getElem?_eq_some_iff.1 hq
      rw [h.untouched j (by omega)]
      exact Admitted.sound_new
  · rw [List.length_append] at hj
    rw [hsame, h.untouched j (by omega)]
  · show s.permits - 1 + ((s.requests ++ [_]).map Admitted.live).sum = n
    rw [List.map_append, List.sum_append]
    show s.permits - 1 + (_ + 1) = n
    omega
  · rw [h.active]
    show (s.requests.map Admitted.inCount).sum = ((s.requests ++ [_]).map Admitted.inCount).sum
    rw [List.map_append, List.sum_append]
    rfl

theorem step_cases (hs : s.step ev = some s') :
    (ev = .arrive ∧ s' = s) ∨
    (ev = .arrive ∧ s.closed = false ∧ s.permits ≠ 0 ∧
      s' = { s with permits := s.permits - 1, requests := s.requests ++ [⟨.new, false, false⟩] }) ∨
    (∃ i r, ev = .count i ∧ s.requests[i]? = some r ∧ r.counted = false ∧
      s' = { s with active := s.active + 1, requests := s.requests.set i { r with counted := true } }) ∨
    (∃ i e r world, ev = .guarded i e ∧ s.requests[i]? = some r ∧ r.counted = true ∧
      r.world.step ⟨i⟩ e = some world ∧
      s' = { s with permits := s.permits + (world.released - r.world.released),
                    requests := s.requests.set i { r with world } }) ∨
    (∃ i r, ev = .leave i ∧ s.requests[i]? = some r ∧ r.counted = true ∧ ¬ r.left ∧ r.world.released = 1 ∧
      s' = { s with active := s.active - 1, requests := s.requests.set i { r with left := true } }) ∨
    (ev = .close ∧ s' = { s with closed := true }) := by
  cases ev with
  | arrive =>
    simp only [step] at hs
    split at hs
    · cases hs; exact .inl ⟨rfl, rfl⟩
    · next hopen =>
      cases hs
      rw [not_or, Bool.not_eq_true] at hopen
      exact .inr (.inl ⟨rfl, hopen.1, hopen.2, rfl⟩)
  | count i =>
    simp only [step] at hs
    obtain ⟨r, hr, hs⟩ := Option.bind_eq_some_iff.1 hs
    split at hs
    · cases hs
    · next hc =>
      cases hs
      exact .inr (.inr (.inl ⟨i, r, rfl, hr, by simpa using hc, rfl⟩))
  | guarded i e =>
    simp only [step] at hs
    obtain ⟨r, hr, hs⟩ := Option.bind_eq_some_iff.1 hs
    split at hs
    · next hc =>
      obtain ⟨world, hw, hs⟩ := Option.bind_eq_some_iff.1 hs
      cases hs
      exact .inr (.inr (.inr (.inl ⟨i, e, r, world, rfl, hr, hc.1, hw, rfl⟩)))
    · cases hs
  | leave i =>
    simp only [step] at hs
    obtain ⟨r, hr, hs⟩ := Option.bind_eq_some_iff.1 hs
    split at hs
    · next hc =>
      cases hs
      exact .inr (.inr (.inr (.inr (.inl ⟨i, r, rfl, hr, hc.1, hc.2.1, hc.2.2, rfl⟩))))
    · cases hs
  | close =>
    cases hs
    exact .inr (.inr (.inr (.inr (.inr ⟨rfl, rfl⟩))))

theorem Sound.step (h : Sound n events s) (hs : s.step ev = some s') : Sound n (events ++ [ev]) s' := by
  rcases step_cases hs with ⟨rfl, rfl⟩ | ⟨rfl, -, hp, rfl⟩ | ⟨i, r, rfl, hr, hc, rfl⟩ |
    ⟨i, e, r, world, rfl, hr, hc, hw, rfl⟩ |
    ⟨i, r, rfl, hr, hc, hleft, hrel, rfl⟩ | ⟨rfl, rfl⟩
  · exact h.quiet fun i => rfl
  · exact h.arrive hp
  · obtain ⟨howned, hfresh, hgone⟩ := h.requests i r hr
    have hleft : r.left = false := by
      by_contra hl
      rw [(hgone (by simpa using hl)).1] at hc
      cases hc
    refine h.set hr ?_ (fun j hj => rfl) rfl ?_
    · rw [guardedEvents_append]
      exact ⟨by simpa [guardedEvents] using howned, nofun, fun hl => by rw [hleft] at hl; cases hl⟩
    · simp [Admitted.inCount, hc, hleft]
  · obtain ⟨howned, hfresh, hgone⟩ := h.requests i r hr
    have howned' := World.owned_step howned hw
    rw [← activities_concat] at howned'
    have hle := World.released_le_of_step hw
    have hone := howned'.released_le
    refine h.set hr ?_ (fun j hj => by rw [guardedEvents_guarded, if_neg (Ne.symm hj)]) ?_ rfl
    · rw [guardedEvents_append, guardedEvents_guarded, if_pos rfl]
      refine ⟨howned', fun hn => ?_, fun hl => ⟨hc, ?_⟩⟩
      · rw [hc] at hn
        cases hn
      · have := (hgone hl).2
        show world.released = 1
        omega
    · simp only [Admitted.live]
      omega
  · obtain ⟨howned, hfresh, -⟩ := h.requests i r hr
    have hbefore : r.inCount = 1 := if_pos ⟨hc, hleft⟩
    have hafter : Admitted.inCount { r with left := true } = 0 := if_neg fun h => h.2 rfl
    have hsum := sum_map_set Admitted.inCount { r with left := true } hr
    have hactive := h.active
    unfold inCount at hactive
    refine h.set hr ?_ (fun j hj => rfl) rfl ?_
    · rw [guardedEvents_append]
      exact ⟨by simpa [guardedEvents] using howned, hfresh, fun _ => ⟨hc, hrel⟩⟩
    · omega
  · have hq := h.quiet fun i => (rfl : guardedEvents i [.close] = [])
    exact ⟨hq.requests, hq.untouched, hq.permits, hq.active⟩

theorem sound_run (h : Run.run Admission.step (new n) events = some s) : Sound n events s :=
  Run.run_invariant (Sound n) sound_new Sound.step h

/-! ### What holds a permit -/

theorem Sound.mem (h : Sound n events s) (hr : r ∈ s.requests) :
    ∃ i, s.requests[i]? = some r ∧ r.Sound i (guardedEvents i events) := by
  obtain ⟨i, hi⟩ := List.mem_iff_getElem?.1 hr
  exact ⟨i, hi, h.requests i r hi⟩

theorem Sound.permits_of_released (h : Sound n events s) (hall : ∀ r ∈ s.requests, r.world.released = 1) :
    s.permits = n := by
  have hlive : s.live = 0 := List.sum_eq_zero_iff_forall_eq_nat.2 fun k hk => by
    obtain ⟨r, hr, rfl⟩ := List.mem_map.1 hk
    rw [Admitted.live, hall r hr]
  have := h.permits
  omega

/-- Nothing is in count any more, and nothing comes in. -/
structure Over (s : Admission) : Prop where
  closed : s.closed = true
  left : ∀ r ∈ s.requests, r.counted = true ∧ r.left = true

theorem Sound.over (h : Sound n events s) (hclosed : s.closed = true) (hzero : s.active = 0)
    (hcounted : ∀ r ∈ s.requests, r.counted = true) : s.Over := by
  refine ⟨hclosed, fun r hr => ⟨hcounted r hr, ?_⟩⟩
  rw [h.active] at hzero
  have hr0 : r.inCount = 0 := List.sum_eq_zero_iff_forall_eq_nat.1 hzero _ (List.mem_map_of_mem hr)
  by_contra hl
  rw [Admitted.inCount, if_pos ⟨hcounted r hr, hl⟩] at hr0
  cases hr0

theorem Over.step (h : s.Over) (hs : s.step ev = some s') :
    s'.Over ∧ s'.requests.length = s.requests.length := by
  rcases step_cases hs with ⟨-, rfl⟩ | ⟨-, hopen, -⟩ | ⟨i, r, -, hr, hc, -⟩ |
    ⟨i, e, r, world, -, hr, -, -, rfl⟩ | ⟨i, r, -, hr, -, hleft, -⟩ | ⟨-, rfl⟩
  · exact ⟨h, rfl⟩
  · rw [h.closed] at hopen
    cases hopen
  · rw [(h.left r (List.mem_of_getElem? hr)).1] at hc
    cases hc
  · refine ⟨⟨h.closed, fun q hq => ?_⟩, List.length_set⟩
    rcases List.mem_or_eq_of_mem_set hq with hq | rfl
    · exact h.left q hq
    · exact h.left r (List.mem_of_getElem? hr)
  · exact absurd (h.left r (List.mem_of_getElem? hr)).2 hleft
  · exact ⟨⟨rfl, h.left⟩, rfl⟩

end Admission

open Admission

/-- An attempt has taken the guard of the request, and is not over by what happened to it. -/
def Admitted.Busy (events : List Event) (r : Admitted) : Prop :=
  ∃ (k : Nat) (act : Activity), (some k, .acquired) ∈ r.world.journal ∧
    (activities events)[k]? = some act ∧ act ≠ .finished

/-- In every run the permits that are out are those of the requests whose resource is not dropped. So no
more than `n` requests are forwarded, relayed or tunnelled with their guard at a time, and all permits are
back once every attempt is over and no clone is left. -/
theorem admission_bounds (n : Nat) (events : List AdmissionEvent) (s : Admission)
    (h : Run.run Admission.step (Admission.new n) events = some s) :
    s.permits + s.live = n ∧
      (∀ busy : List Nat, busy.Nodup →
        (∀ i ∈ busy, ∃ r, s.requests[i]? = some r ∧ r.Busy (guardedEvents i events)) →
          busy.length ≤ s.live) ∧
      ((∀ (i : Nat) (r : Admitted), s.requests[i]? = some r → r.world.Quiescent (guardedEvents i events)) →
        s.permits = n) := by
  have hs := sound_run h
  refine ⟨hs.permits, fun busy hnodup hbusy => length_le_sum_map hnodup fun i hi => ?_,
    fun hq => hs.permits_of_released fun r hr => ?_⟩
  · obtain ⟨r, hr, k, act, hacq, hact, hover⟩ := hbusy i hi
    have hzero := (hs.requests i r hr).owned.released_eq_zero hacq hact hover
    refine ⟨r, hr, ?_⟩
    rw [Admitted.live, World.released, hzero]
  · obtain ⟨i, hi, hsound⟩ := hs.mem hr
    exact hsound.owned.released_of_quiescent (hq i r hi)

/-- With one permit the second request is refused, and the first one gives it back. -/
theorem admission_bounds_one : ∃ s, Run.run Admission.step (Admission.new 1)
    [.arrive, .count 0, .arrive, .guarded 0 .drop] = some s ∧
    s.requests.length = 1 ∧ s.permits = 1 ∧ s.live = 0 := by
  obtain ⟨s, h, hlen, hlive⟩ : ∃ s, Run.run Admission.step (Admission.new 1)
      [.arrive, .count 0, .arrive, .guarded 0 .drop] = some s ∧ s.requests.length = 1 ∧ s.live = 0 :=
        ⟨_, rfl, rfl, rfl⟩
  obtain ⟨hpermits, -⟩ := admission_bounds 1 _ s h
  exact ⟨s, h, hlen, by omega, hlive⟩

/-- When the semaphore is closed and the count is zero, then in every continuation all permits stay back and
nothing takes or holds a resource, exactly when no request is between its permit and the count. -/
theorem shutdown_complete (n : Nat) (events : List AdmissionEvent) (s : Admission)
    (h : Run.run Admission.step (Admission.new n) events = some s) (hclosed : s.closed = true)
    (hzero : s.active = 0) :
    (∀ more t, Run.run Admission.step s more = some t → t.requests.length = s.requests.length ∧
      t.permits = n ∧
        t.active = 0 ∧ ∀ r ∈ t.requests, r.world.slot = none ∧ r.world.holding = 0) ↔
      ∀ r ∈ s.requests, r.counted = true := by
  have hs := sound_run h
  constructor
  · intro hall r hr
    obtain ⟨i, -, hi⟩ := hs.mem hr
    obtain ⟨-, -, -, hgone⟩ := hall [] s rfl
    obtain ⟨hslot, hhold⟩ := hgone r hr
    by_contra hc
    have hfresh := hi.fresh (by simpa using hc)
    have htoken := hi.owned.token
    rw [hslot, hhold] at htoken
    rw [World.released] at hfresh
    simp only [Option.toList_none, List.length_nil] at htoken
    omega
  · intro hcounted more t ht
    have hst : Sound n (events ++ more) t := sound_run (by rw [Run.run_append, h]; exact ht)
    obtain ⟨hover, hlen⟩ := Run.run_preserves (fun t => t.Over ∧ t.requests.length = s.requests.length)
      ⟨hs.over hclosed hzero hcounted, rfl⟩
      (fun hi hstep => ⟨(hi.1.step hstep).1, (hi.1.step hstep).2.trans hi.2⟩) ht
    have hgone : ∀ r ∈ t.requests, r.world.released = 1 := fun r hr => by
      obtain ⟨i, -, hi⟩ := hst.mem hr
      exact (hi.gone (hover.left r hr).2).2
    refine ⟨hlen, hst.permits_of_released hgone, ?_, fun r hr => ?_⟩
    · rw [hst.active]
      refine List.sum_eq_zero_iff_forall_eq_nat.2 fun k hk => ?_
      obtain ⟨r, hr, rfl⟩ := List.mem_map.1 hk
      exact if_neg fun hc => hc.2 (hover.left r hr).2
    · obtain ⟨i, -, hi⟩ := hst.mem hr
      have htoken := hi.owned.token
      have hrel := hgone r hr
      rw [World.released] at hrel
      refine ⟨?_, by omega⟩
      by_contra hne
      obtain ⟨x, hx⟩ := Option.ne_none_iff_exists'.1 hne
      rw [hx, Option.toList_some, List.length_singleton] at htoken
      omega

theorem shutdown_complete_one : ∃ s, Run.run Admission.step (Admission.new 1)
    [.arrive, .count 0, .close, .guarded 0 .drop, .leave 0] = some s ∧
      ∀ more t, Run.run Admission.step s more = some t →
      t.requests.length = 1 ∧ t.permits = 1 := by
  obtain ⟨s, h, hlen, hclosed, hzero, hcounted⟩ : ∃ s, Run.run Admission.step (Admission.new 1)
      [.arrive, .count 0, .close, .guarded 0 .drop, .leave 0] = some s ∧ s.requests.length = 1 ∧
        s.closed = true ∧
        s.active = 0 ∧ s.requests.all (·.counted) = true := ⟨_, rfl, rfl, rfl, rfl, rfl⟩
  have hall := (shutdown_complete 1 _ s h hclosed hzero).2 (List.all_eq_true.1 hcounted)
  refine ⟨s, h, fun more t ht => ?_⟩
  obtain ⟨hsame, hpermits, -⟩ := hall more t ht
  exact ⟨hsame.trans hlen, hpermits⟩

end AxumReverseProxy
