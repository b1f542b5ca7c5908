import AxumReverseProxy.Lib.Run
import AxumReverseProxy.Rust.Net
import Mathlib.Algebra.BigOperators.Ring.Finset
import Mathlib.Algebra.Order.BigOperators.Group.Finset
import Mathlib.Tactic.Ring

/-!
# Concurrent updates of the latency average

`ServiceMetrics::update_ewma` called by any number of requests on one endpoint: each reads the
average, computes the next one and puts it there with `compare_exchange`, again and again until it
succeeds. Whatever the interleaving, the average is what the calls that got through make of it one
after the other (`peak_is_sequential`), no schedule keeps the calls going round for ever or blocks
them (`updates_return`), and the load never exceeds the largest latency in it (`load_le_latency`).
-/

namespace AxumReverseProxy

/-- The arithmetic on `f64`: what is left of a value after some time, and a quarter of one value with
three quarters of another, both cut to a `u64`. -/
structure Floats where
  decay : Duration → Nat → Nat
  blend : Nat → Nat → Nat

/-- Up to `n` nothing comes out that is more than what went in. -/
structure Floats.ContractsUpTo (F : Floats) (n : Nat) : Prop where
  decay : ∀ elapsed v, v ≤ n → F.decay elapsed v ≤ v
  blend : ∀ peak decayed, peak ≤ n → decayed ≤ peak → F.blend peak decayed ≤ peak

/-- `latency.as_micros() as u64`. -/
def Duration.asMicrosU64 (d : Duration) : Nat := d.nanos / 1000 % 2 ^ 64

/-- Where a call of `update_ewma` stands. -/
inductive UpdateEwma
  | loading
  /-- It has read 0 and is about to put its own latency. -/
  | setting
  /-- Its latency is there; the time is not. -/
  | set
  | locking (current : Nat)
  /-- From here to `retrying` it holds the lock of `last_update`. -/
  | exchanging (current ewma : Nat)
  | exchanged
  | retrying
  | returned
deriving DecidableEq

/-- Whether the call has put its average there. -/
def UpdateEwma.through : UpdateEwma → Bool
  | .set | .exchanged | .returned => true
  | _ => false

/-- Whether the call holds the lock of `last_update`. -/
def UpdateEwma.holds : UpdateEwma → Bool
  | .exchanging _ _ | .exchanged | .retrying => true
  | _ => false

/-- The metrics of an endpoint, with the calls that update them. -/
structure ServiceMetrics (ι : Type) where
  peakEwmaMicros : Nat
  lastUpdate : Duration
  holder : Option ι
  calls : ι → UpdateEwma

namespace ServiceMetrics

variable {ι : Type} [DecidableEq ι]

/-- A call reads the average, which may be an old one, tries to exchange it, or takes or gives back
the lock. -/
inductive Event (ι : Type)
  | load (i : ι) (value : Nat)
  | compareExchange (i : ι)
  | lock (i : ι) (now : Duration)
  | unlock (i : ι) (now : Duration)

def new (created : Duration) : ServiceMetrics ι := ⟨0, created, none, fun _ => .loading⟩

def goto (s : ServiceMetrics ι) (i : ι) (call : UpdateEwma) : ServiceMetrics ι :=
  { s with calls := Function.update s.calls i call }

/-- The average after a latency, `elapsed` after the time of the average before. -/
def ewma (F : Floats) (elapsed : Duration) (current latencyMicros : Nat) : Nat :=
  let decayedCurrent := F.decay elapsed current
  F.blend (max decayedCurrent latencyMicros) decayedCurrent

/-- `ServiceMetrics::load` under `P2cPeakEwma`, which reads the time before the average: `elapsed` may
belong to an earlier one. -/
def load (F : Floats) (s : ServiceMetrics ι) (elapsed : Duration) : Nat := F.decay elapsed s.peakEwmaMicros

/-- `Instant::elapsed`, which is zero where the clock went back. -/
def elapsed (s : ServiceMetrics ι) (now : Duration) : Duration := ⟨now.nanos - s.lastUpdate.nanos⟩

def step (F : Floats) (latency : ι → Duration) (s : ServiceMetrics ι) : Event ι → Option (ServiceMetrics ι)
  | .load i value =>
    match s.calls i with
    | .loading => some (s.goto i (if value = 0 then .setting else .locking value))
    | _ => none
  | .compareExchange i =>
    match s.calls i with
    | .setting =>
      if s.peakEwmaMicros = 0 then some { s.goto i .set with peakEwmaMicros := (latency i).asMicrosU64 }
      else some (s.goto i .loading)
    | .exchanging current ewma =>
      if s.peakEwmaMicros = current then some { s.goto i .exchanged with peakEwmaMicros := ewma }
      else some (s.goto i .retrying)
    | _ => none
  | .lock i now =>
    match s.holder, s.calls i with
    | none, .set => some { s.goto i .returned with lastUpdate := now }
    | none, .locking current =>
      some { s.goto i (.exchanging current
        (ewma F (s.elapsed now) current (latency i).asMicrosU64)) with holder := some i }
    | _, _ => none
  | .unlock i now =>
    match s.calls i with
    | .exchanged => some { s.goto i .returned with lastUpdate := now, holder := none }
    | .retrying => some { s.goto i .loading with holder := none }
    | _ => none

/-- A step whose load reads the value that is there. -/
def freshStep (F : Floats) (latency : ι → Duration) (s : ServiceMetrics ι) (e : Event ι) :
    Option (ServiceMetrics ι) :=
  match e with
  | .load _ value => if value = s.peakEwmaMicros then s.step F latency e else none
  | _ => s.step F latency e

/-- The steps there are. -/
inductive Steps (F : Floats) (latency : ι → Duration) (s : ServiceMetrics ι) :
    Event ι → ServiceMetrics ι → Prop
  | loadedZero {i} : s.calls i = .loading → Steps F latency s (.load i 0) (s.goto i .setting)
  | loaded {i current} : s.calls i = .loading → current ≠ 0 →
      Steps F latency s (.load i current) (s.goto i (.locking current))
  | set {i} : s.calls i = .setting → s.peakEwmaMicros = 0 →
      Steps F latency s (.compareExchange i) { s.goto i .set with peakEwmaMicros :=
        (latency i).asMicrosU64 }
  | notSet {i} : s.calls i = .setting → s.peakEwmaMicros ≠ 0 →
      Steps F latency s (.compareExchange i) (s.goto i .loading)
  | exchanged {i current ewma} : s.calls i = .exchanging current ewma → s.peakEwmaMicros = current →
      Steps F latency s (.compareExchange i) { s.goto i .exchanged with peakEwmaMicros := ewma }
  | notExchanged {i current ewma} : s.calls i = .exchanging current ewma → s.peakEwmaMicros ≠ current →
      Steps F latency s (.compareExchange i) (s.goto i .retrying)
  | stamped {i now} : s.holder = none → s.calls i = .set →
      Steps F latency s (.lock i now) { s.goto i .returned with lastUpdate := now }
  | locked {i now current} : s.holder = none → s.calls i = .locking current →
      Steps F latency s (.lock i now)
        { s.goto i (.exchanging current
          (ewma F (s.elapsed now) current (latency i).asMicrosU64)) with holder := some i }
  | unlocked {i now} : s.calls i = .exchanged →
      Steps F latency s (.unlock i now) { s.goto i .returned with lastUpdate := now, holder := none }
  | released {i now} : s.calls i = .retrying →
      Steps F latency s (.unlock i now) { s.goto i .loading with holder := none }

variable {F : Floats} {latency : ι → Duration} {s t : ServiceMetrics ι} {e : Event ι}
  {events events' : List (Event ι)} {i j : ι}

theorem steps_of_step (h : s.step F latency e = some t) : Steps F latency s e t := by
  cases e with
  | load i value =>
    simp only [step] at h
    split at h
    · next hc =>
      cases h
      split
      · next hv => rw [hv]; exact .loadedZero hc
      · next hv => exact .loaded hc hv
    · cases h
  | compareExchange i =>
    simp only [step] at h
    split at h
    · next hc =>
      split at h
      · next hp => cases h; exact .set hc hp
      · next hp => cases h; exact .notSet hc hp
    · next hc =>
      split at h
      · next hp => cases h; exact .exchanged hc hp
      · next hp => cases h; exact .notExchanged hc hp
    · cases h
  | lock i now =>
    simp only [step] at h
    split at h
    · next hh hc => cases h; exact .stamped hh hc
    · next hh hc => cases h; exact .locked hh hc
    · cases h
  | unlock i now =>
    simp only [step] at h
    split at h
    · next hc => cases h; exact .unlocked hc
    · next hc => cases h; exact .released hc
    · cases h

/-! ### One after the other -/

/-- What one call makes of the average when nothing comes in between. -/
def record (F : Floats) (elapsed : Duration) (v latencyMicros : Nat) : Nat :=
  if v = 0 then latencyMicros else ewma F elapsed v latencyMicros

/-- The average after the calls of a list, each with the time it found elapsed. -/
def sequential (F : Floats) (latency : ι → Duration) (log : List (ι × Duration)) : Nat :=
  log.foldl (fun v x => record F x.2 v (latency x.1).asMicrosU64) 0

/-- The call of an event. -/
def Event.call : Event ι → ι
  | .load i _ | .compareExchange i | .lock i _ | .unlock i _ => i

/-- The time that an event puts in `last_update`, with the call that puts it there. -/
def store (s : ServiceMetrics ι) : Event ι → Option (ι × Duration)
  | .lock i now => if s.calls i = .set then some (i, now) else none
  | .unlock i now => if s.calls i = .exchanged then some (i, now) else none
  | _ => none

/-- The times put there in a run, in order. -/
def stores (F : Floats) (latency : ι → Duration) (s : ServiceMetrics ι) :
    List (Event ι) → List (ι × Duration)
  | [] => []
  | e :: events =>
    (s.store e).toList ++ ((s.step F latency e).map fun t => t.stores F latency events).getD []

/-- The time that is there behind the events of a run. -/
def storedLast (F : Floats) (latency : ι → Duration) (created : Duration)
    (events : List (Event ι)) : Duration :=
  (((new created).stores F latency events).getLast?.map (·.2)).getD created

/-- The call has last taken the lock at a time `elapsed` behind the one that was there, which other calls or
the constructor put there. -/
def Timed (F : Floats) (latency : ι → Duration) (created : Duration) (events : List (Event ι)) (i : ι)
    (elapsed : Duration) : Prop :=
  ∃ pre now mid, events = pre ++ .lock i now :: mid ∧ (∀ e ∈ mid, e.call ≠ i) ∧
    (∀ x ∈ (new created).stores F latency pre, x.1 ≠ i) ∧
    elapsed = ⟨now.nanos - (storedLast F latency created pre).nanos⟩

/-- The call exchanged the average with the time that it found elapsed. -/
def Measured (F : Floats) (latency : ι → Duration) (created : Duration) (events : List (Event ι)) (i : ι)
    (elapsed : Duration) : Prop :=
  ∃ before post, events = before ++ .compareExchange i :: post ∧ Timed F latency created before i elapsed

/-- What a call has read is not zero when it waits for the lock, and what it is about to put there is
the average of that. -/
def Computed (F : Floats) (latency : ι → Duration) (created : Duration) (events : List (Event ι)) (i : ι) :
    UpdateEwma → Prop
  | .locking current => current ≠ 0
  | .exchanging current x => current ≠ 0 ∧
    ∃ elapsed, Timed F latency created events i elapsed ∧ x = ewma F elapsed current (latency i).asMicrosU64
  | _ => True

/-- The calls of the log have put their averages there, in this order. -/
structure Linear (F : Floats) (latency : ι → Duration) (created : Duration) (events : List (Event ι))
    (log : List (ι × Duration)) (s : ServiceMetrics ι) : Prop where
  run : Run.run (step F latency) (new created) events = some s
  peak : s.peakEwmaMicros = sequential F latency log
  nodup : (log.map (·.1)).Nodup
  mem : ∀ i, i ∈ log.map (·.1) ↔ (s.calls i).through = true
  measured : ∀ pre i elapsed post, log = pre ++ (i, elapsed) :: post → sequential F latency pre ≠ 0 →
    Measured F latency created events i elapsed
  computed : ∀ i, Computed F latency created events i (s.calls i)
  stamp : s.lastUpdate = storedLast F latency created events
  storers : ∀ x ∈ (new created).stores F latency events, s.calls x.1 = .returned

variable {created now elapsed' : Duration} {log : List (ι × Duration)} {call : UpdateEwma}

omit [DecidableEq ι] in
@[simp] theorem sequential_concat (x : ι × Duration) :
    sequential F latency (log ++ [x]) = record F x.2 (sequential F latency log)
      (latency x.1).asMicrosU64 := by
  rw [sequential, List.foldl_append]; rfl

theorem stores_concat (h : Run.run (step F latency) s events = some t) (e : Event ι) :
    s.stores F latency (events ++ [e]) = s.stores F latency events ++ (t.store e).toList := by
  induction events generalizing s with
  | nil =>
    cases h
    cases hs : t.step F latency e <;> simp [stores, hs]
  | cons a events ih =>
    obtain ⟨u, hu, h⟩ := Option.bind_eq_some_iff.1 (Run.run_cons.symm.trans h)
    simp only [List.cons_append, stores, hu, Option.map_some, Option.getD_some, ih h, List.append_assoc]

theorem Timed.concat (h : Timed F latency created events i elapsed') (he : e.call ≠ i) :
    Timed F latency created (events ++ [e]) i elapsed' := by
  obtain ⟨pre, now, mid, rfl, hmid, hx⟩ := h
  refine ⟨pre, now, mid ++ [e], by simp, fun d hd => ?_, hx⟩
  rcases List.mem_append.1 hd with hd | hd
  · exact hmid d hd
  · rwa [List.mem_singleton.1 hd]

theorem Measured.concat (h : Measured F latency created events i elapsed') (e : Event ι) :
    Measured F latency created (events ++ [e]) i elapsed' := by
  obtain ⟨before, post, rfl, hx⟩ := h
  exact ⟨before, post ++ [e], by simp, hx⟩

theorem Computed.concat (h : Computed F latency created events i call) (he : e.call ≠ i) :
    Computed F latency created (events ++ [e]) i call := by
  unfold Computed at h ⊢
  split at h
  · exact h
  · obtain ⟨hne, elapsed, hm, hx⟩ := h
    exact ⟨hne, elapsed, hm.concat he, hx⟩
  · trivial

theorem linear_new : Linear F latency created [] [] (new created) := by
  refine ⟨rfl, rfl, List.nodup_nil, fun i => ?_, fun pre i x post h => ?_, fun _ => trivial, rfl, nofun⟩
  · exact iff_of_false List.not_mem_nil nofun
  · simp at h

/-- What a step puts in `last_update`, and what it leaves there. -/
theorem Linear.storing (h : Linear F latency created events log s) (hs : s.step F latency e = some t)
    (hlast : t.lastUpdate = ((s.store e).map (·.2)).getD s.lastUpdate)
    (hcall : ∀ x ∈ s.store e, t.calls x.1 = .returned)
    (hold : ∀ i, s.calls i = .returned → t.calls i = .returned) :
    Run.run (step F latency) (new created) (events ++ [e]) = some t ∧
      t.lastUpdate = storedLast F latency created (events ++ [e]) ∧
      ∀ x ∈ (new created).stores F latency (events ++ [e]), t.calls x.1 = .returned := by
  refine ⟨by rw [Run.run_concat, h.run, Option.bind_some, hs], ?_, ?_⟩
  · rw [hlast, storedLast, stores_concat h.run, h.stamp]
    cases s.store e with
    | none => rw [Option.toList_none, List.append_nil]; rfl
    | some x => rw [Option.toList_some, List.getLast?_concat]; rfl
  · rw [stores_concat h.run]
    intro x hx
    rcases List.mem_append.1 hx with hx | hx
    · exact hold _ (h.storers x hx)
    · exact hcall x (Option.mem_toList.1 hx)

/-- A call that has returned stays so when another moves. -/
theorem returned_update {j : ι} (hnot : s.calls i ≠ .returned) (hj : s.calls j = .returned) :
    Function.update s.calls i call j = .returned := by
  have hji : j ≠ i := fun hji => hnot (hji ▸ hj)
  rw [Function.update_of_ne hji, hj]

/-- A call moves and the average stays. -/
theorem Linear.quiet {holder : Option ι} (h : Linear F latency created events log s)
    (hs : s.step F latency e = some ⟨s.peakEwmaMicros, now, holder, Function.update s.calls e.call call⟩)
    (hlast : now = ((s.store e).map (·.2)).getD s.lastUpdate)
    (hstored : ∀ x ∈ s.store e, x.1 = e.call ∧ call = .returned)
    (hthrough : call.through = (s.calls e.call).through) (hnot : s.calls e.call ≠ .returned)
    (hcall : Computed F latency created (events ++ [e]) e.call call) :
    Linear F latency created (events ++ [e]) log ⟨s.peakEwmaMicros, now, holder,
      Function.update s.calls e.call call⟩ := by
  have hnew : ∀ x ∈ s.store e, Function.update s.calls e.call call x.1 = .returned := by
    intro x hx
    obtain ⟨hx, rfl⟩ := hstored x hx
    rw [hx]
    exact Function.update_self ..
  obtain ⟨hrun, hstamp, hstorers⟩ := h.storing hs hlast hnew fun _ => returned_update hnot
  refine ⟨hrun, h.peak, h.nodup, ?_, fun pre j x post hl hne => (h.measured pre j x post hl hne).concat e,
    ?_, hstamp, hstorers⟩
  · refine (Function.forall_update_iff s.calls fun j c => j ∈ log.map (·.1) ↔ c.through = true).2
      ⟨?_, fun j _ => h.mem j⟩
    rw [h.mem, hthrough]
  · exact (Function.forall_update_iff s.calls _).2 ⟨hcall, fun j hj => (h.computed j).concat hj.symm⟩

/-- A call puts its average there. -/
theorem Linear.push (h : Linear F latency created events log s)
    (hs : s.step F latency (.compareExchange i) =
      some ⟨record F elapsed' s.peakEwmaMicros (latency i).asMicrosU64,
      s.lastUpdate, s.holder, Function.update s.calls i call⟩)
    (hnot : (s.calls i).through = false) (hcall : call.through = true)
    (htimed : s.peakEwmaMicros ≠ 0 → Timed F latency created events i elapsed') :
    Linear F latency created (events ++ [.compareExchange i]) (log ++ [(i, elapsed')])
      ⟨record F elapsed' s.peakEwmaMicros (latency i).asMicrosU64, s.lastUpdate, s.holder,
        Function.update s.calls i call⟩ := by
  have hne : s.calls i ≠ .returned := fun hr => by rw [hr] at hnot; cases hnot
  obtain ⟨hrun, hstamp, hstorers⟩ := h.storing hs rfl nofun fun _ => returned_update hne
  refine ⟨hrun, ?_, ?_, ?_, fun pre j x post hl hne => ?_, ?_, hstamp, hstorers⟩
  · rw [sequential_concat, ← h.peak]
  · have hnew : i ∉ log.map (·.1) := by rw [h.mem, hnot]; exact nofun
    rw [List.map_append, List.map_singleton]
    simpa using h.nodup.concat hnew
  · have hmem : i ∈ (log ++ [(i, elapsed')]).map (·.1) := by simp
    refine (Function.forall_update_iff s.calls fun j c => j ∈ (log ++ [(i, elapsed')]).map (·.1) ↔
      c.through = true).2
      ⟨iff_of_true hmem hcall, fun j hj => ?_⟩
    rw [← h.mem, List.map_append, List.mem_append, List.map_singleton, List.mem_singleton]
    exact or_iff_left hj
  · rcases List.eq_nil_or_concat' post with rfl | ⟨post, y, rfl⟩
    · obtain ⟨rfl, hx⟩ := List.append_inj' hl rfl
      cases hx
      rw [← h.peak] at hne
      exact ⟨events, [], rfl, htimed hne⟩
    · rw [← List.cons_append, ← List.append_assoc] at hl
      exact (h.measured pre j x post (List.append_inj' hl rfl).1 hne).concat _
  · refine (Function.forall_update_iff s.calls _).2 ⟨?_, fun j hj => (h.computed j).concat hj.symm⟩
    cases call with
    | locking => cases hcall
    | exchanging => cases hcall
    | _ => trivial

theorem linear_step (h : Linear F latency created events log s) (hs : s.step F latency e = some t) :
    ∃ log', Linear F latency created (events ++ [e]) (log ++ log') t := by
  have hquiet : ∀ {t}, Linear F latency created (events ++ [e]) log t →
      ∃ log', Linear F latency created (events ++ [e]) (log ++ log') t :=
    fun h => ⟨[], by rw [List.append_nil]; exact h⟩
  cases steps_of_step hs with
  | @loadedZero i hc =>
    have hc : s.calls (Event.load i 0).call = .loading := hc
    exact hquiet (h.quiet hs rfl nofun (by rw [hc]; rfl) (by rw [hc]; nofun) trivial)
  | @loaded i current hc hv =>
    have hc : s.calls (Event.load i current).call = .loading := hc
    exact hquiet (h.quiet hs rfl nofun (by rw [hc]; rfl) (by rw [hc]; nofun) hv)
  | @set i hc hp =>
    have hv : record F ⟨0⟩ s.peakEwmaMicros (latency i).asMicrosU64 = (latency i).asMicrosU64 := if_pos hp
    have hpush := h.push (hs.trans (by rw [hv]; rfl)) (by rw [hc]; rfl)
      (show UpdateEwma.set.through = true from rfl)
      fun hne => absurd hp hne
    rw [hv] at hpush
    exact ⟨_, hpush⟩
  | @notSet i hc hp =>
    have hc : s.calls (Event.compareExchange i).call = .setting := hc
    exact hquiet (h.quiet hs rfl nofun (by rw [hc]; rfl) (by rw [hc]; nofun) trivial)
  | @exchanged i current x hc hp =>
    obtain ⟨hne, elapsed, hm, rfl⟩ : Computed F latency created events i (.exchanging current x) :=
      hc ▸ h.computed i
    have hv : record F elapsed s.peakEwmaMicros (latency i).asMicrosU64 =
      ewma F elapsed current (latency i).asMicrosU64 := by
      rw [record, hp, if_neg hne]
    have hpush := h.push (hs.trans (by rw [hv]; rfl)) (by rw [hc]; rfl)
      (show UpdateEwma.exchanged.through = true from rfl)
      fun _ => hm
    rw [hv] at hpush
    exact ⟨_, hpush⟩
  | @notExchanged i current x hc hp =>
    have hc : s.calls (Event.compareExchange i).call = .exchanging current x := hc
    exact hquiet (h.quiet hs rfl nofun (by rw [hc]; rfl) (by rw [hc]; nofun) trivial)
  | @stamped i now hh hc =>
    have hstore : s.store (.lock i now) = some (i, now) := if_pos hc
    have hc : s.calls (Event.lock i now).call = .set := hc
    refine hquiet (h.quiet hs (by rw [hstore]; rfl) (fun x hx => ?_) (by rw [hc]; rfl)
      (by rw [hc]; nofun) trivial)
    rw [hstore] at hx
    cases hx
    exact ⟨rfl, rfl⟩
  | @locked i now current hh hc =>
    have hstore : s.store (.lock i now) = none := if_neg (by rw [hc]; nofun)
    have hne : Computed F latency created events i (.locking current) := hc ▸ h.computed i
    have htimed : Timed F latency created (events ++ [.lock i now]) i (s.elapsed now) := by
      refine ⟨events, now, [], rfl, nofun, fun x hx hxi => ?_, by rw [← h.stamp]; rfl⟩
      have hr := h.storers x hx
      rw [hxi, hc] at hr
      cases hr
    have hc : s.calls (Event.lock i now).call = .locking current := hc
    exact hquiet (h.quiet hs (by rw [hstore]; rfl) (by rw [hstore]; nofun) (by rw [hc]; rfl)
      (by rw [hc]; nofun)
      ⟨hne, _, htimed, rfl⟩)
  | @unlocked i now hc =>
    have hstore : s.store (.unlock i now) = some (i, now) := if_pos hc
    have hc : s.calls (Event.unlock i now).call = .exchanged := hc
    refine hquiet (h.quiet hs (by rw [hstore]; rfl) (fun x hx => ?_) (by rw [hc]; rfl)
      (by rw [hc]; nofun) trivial)
    rw [hstore] at hx
    cases hx
    exact ⟨rfl, rfl⟩
  | @released i now hc =>
    have hstore : s.store (.unlock i now) = none := if_neg (by rw [hc]; nofun)
    have hc : s.calls (Event.unlock i now).call = .retrying := hc
    exact hquiet (h.quiet hs (by rw [hstore]; rfl) (by rw [hstore]; nofun) (by rw [hc]; rfl)
      (by rw [hc]; nofun) trivial)

theorem linear_run (h : Linear F latency created events log s)
    (hr : Run.run (step F latency) s events' = some t) :
    ∃ log', Linear F latency created (events ++ events') (log ++ log') t := by
  refine Run.run_invariant (fun events' t => ∃ log',
    Linear F latency created (events ++ events') (log ++ log') t) ?_ ?_ hr
  · exact ⟨[], by rw [List.append_nil, List.append_nil]; exact h⟩
  · rintro events' t e t' ⟨log', h⟩ hs
    obtain ⟨log'', h⟩ := linear_step h hs
    rw [← List.append_assoc]
    exact ⟨log' ++ log'', by rw [← List.append_assoc]; exact h⟩

/-- In any interleaving, old readings included, the average is what the calls that are through make of
it one after the other, each counted once. A call that was through before a moment comes before the
calls that were not, and the time that decays the average is the one between the last time that other
calls had put there when the call took the lock, and its own reading of the clock. -/
theorem peak_is_sequential (h : Run.run (step F latency) (new created) events = some s)
    (h' : Run.run (step F latency) s events' = some t) :
    ∃ log log', s.peakEwmaMicros = sequential F latency log ∧
      t.peakEwmaMicros = sequential F latency (log ++ log') ∧
      (∀ i, i ∈ log.map (·.1) ↔ (s.calls i).through = true) ∧
      (∀ i, i ∈ (log ++ log').map (·.1) ↔ (t.calls i).through = true) ∧ ((log ++ log').map (·.1)).Nodup ∧
      ∀ pre i elapsed post, log ++ log' = pre ++ (i, elapsed) :: post → sequential F latency pre ≠ 0 →
        Measured F latency created (events ++ events') i elapsed := by
  obtain ⟨log, hlog⟩ := linear_run linear_new h
  obtain ⟨log', hlog'⟩ := linear_run hlog h'
  exact ⟨_, log', hlog.peak, hlog'.peak, hlog.mem, hlog'.mem, hlog'.nodup, hlog'.measured⟩

/-- The arithmetic of small averages with no time elapsed. -/
def exactFloats : Floats := ⟨fun _ v => v, fun peak decayed => (peak + 3 * decayed) / 4⟩

def twoLatencies (second : Bool) : Duration := if second then ⟨16000⟩ else ⟨8000⟩

/-- A call that read the average before the other one's was there starts again. -/
theorem peak_is_sequential_late :
    ∃ s t : ServiceMetrics Bool, Run.run (step exactFloats twoLatencies) (new ⟨0⟩)
      [.load false 0, .load true 0, .compareExchange false] = some s ∧
      Run.run (step exactFloats twoLatencies) s [.compareExchange true, .load true 8, .lock true ⟨0⟩,
        .compareExchange true] = some t ∧
      s.peakEwmaMicros = 8 ∧ t.peakEwmaMicros = 10 ∧
      ∃ log log', s.peakEwmaMicros = sequential exactFloats twoLatencies log ∧
        t.peakEwmaMicros = sequential exactFloats twoLatencies (log ++ log') := by
  obtain ⟨s, t, hs, ht, h8, h10⟩ : ∃ s t : ServiceMetrics Bool,
      Run.run (step exactFloats twoLatencies) (new ⟨0⟩) [.load false 0, .load true 0,
        .compareExchange false] = some s ∧
      Run.run (step exactFloats twoLatencies) s [.compareExchange true, .load true 8, .lock true ⟨0⟩,
        .compareExchange true] = some t ∧
      s.peakEwmaMicros = 8 ∧ t.peakEwmaMicros = 10 := ⟨_, _, rfl, rfl, rfl, rfl⟩
  obtain ⟨log, log', hlog, hlog', -⟩ := peak_is_sequential hs ht
  exact ⟨s, t, hs, ht, h8, h10, log, log', hlog, hlog'⟩

/-! ### Every call returns -/

/-- The lock of `last_update` has at most one holder, which is a call that has it. -/
def Exclusive (s : ServiceMetrics ι) : Prop := ∀ i, s.holder = some i ↔ (s.calls i).holds = true

theorem Exclusive.goto (h : Exclusive s) {holder : Option ι} {peak : Nat}
    (hi : holder = some i ↔ call.holds = true)
    (hne : ∀ j ≠ i, holder = some j ↔ s.holder = some j) :
    Exclusive ⟨peak, now, holder, Function.update s.calls i call⟩ :=
  (Function.forall_update_iff s.calls fun j c => holder = some j ↔ c.holds = true).2
    ⟨hi, fun j hj => (hne j hj).trans (h j)⟩

theorem exclusive_step (h : Exclusive s) (hs : Steps F latency s e t) : Exclusive t := by
  have hkeep : ∀ {i call peak}, call.holds = (s.calls i).holds →
      Exclusive ⟨peak, s.lastUpdate, s.holder, Function.update s.calls i call⟩ :=
    fun hh => h.goto (by rw [hh]; exact h _) fun _ _ => Iff.rfl
  have hfree : ∀ {i call now}, (s.calls i).holds = true → call.holds = false →
      Exclusive ⟨s.peakEwmaMicros, now, none, Function.update s.calls i call⟩ := by
    intro i call now hi hcall
    refine h.goto (by rw [hcall]; simp) fun j hj => ?_
    rw [(h i).2 hi, Option.some.injEq]
    exact iff_of_false nofun (Ne.symm hj)
  cases hs with
  | loadedZero hc => exact hkeep (by rw [hc]; rfl)
  | loaded hc => exact hkeep (by rw [hc]; rfl)
  | set hc => exact hkeep (by rw [hc]; rfl)
  | notSet hc => exact hkeep (by rw [hc]; rfl)
  | exchanged hc => exact hkeep (by rw [hc]; rfl)
  | notExchanged hc => exact hkeep (by rw [hc]; rfl)
  | @stamped i now hh hc =>
    refine h.goto (iff_of_false ?_ nofun) fun _ _ => Iff.rfl
    show s.holder ≠ some i
    rw [hh]; nofun
  | locked hh hc =>
    refine h.goto (iff_of_true rfl rfl) fun j hj => ?_
    rw [hh, Option.some.injEq]
    exact iff_of_false (Ne.symm hj) nofun
  | unlocked hc => exact hfree (by rw [hc]; rfl) rfl
  | released hc => exact hfree (by rw [hc]; rfl) rfl

end ServiceMetrics

namespace UpdateEwma

/-- The steps a call has before it, as long as no other call puts its average there. What the call
has read and is there no more costs it another round. -/
def rank (peak : Nat) : UpdateEwma → Nat
  | .loading => 4
  | .setting => if peak = 0 then 2 else 5
  | .locking current => if peak = current then 3 else 7
  | .exchanging current _ => if peak = current then 2 else 6
  | .retrying => 5
  | .set | .exchanged => 1
  | .returned => 0

/-- With what the call may cost the others when it puts its average there. -/
def cost (n peak : Nat) (call : UpdateEwma) : Nat :=
  call.rank peak + if call.through = true then 0 else 4 * n

theorem cost_le (n peak peak' : Nat) (call : UpdateEwma) : call.cost n peak' ≤ call.cost n peak + 4 := by
  have hrank : call.rank peak' ≤ call.rank peak + 4 := by
    cases call <;> grind [rank]
  unfold cost
  omega

end UpdateEwma

namespace ServiceMetrics

variable {ι : Type} [DecidableEq ι] [Fintype ι] {F : Floats} {latency : ι → Duration}
  {s t : ServiceMetrics ι} {e : Event ι} {events : List (Event ι)} {i : ι} {created now : Duration}
  {call call' : UpdateEwma}

def potential (peak : Nat) (calls : ι → UpdateEwma) : Nat := ∑ i, (calls i).cost (Fintype.card ι) peak

/-- The one that moves pays for what it costs the others. -/
theorem sum_succ_le {g g' : ι → Nat} (i : ι) (k : Nat) (hne : ∀ j ≠ i, g' j ≤ g j + k)
    (hi : g' i + k * Fintype.card ι + 1 ≤ g i + k) : ∑ j, g' j + 1 ≤ ∑ j, g j := by
  have hothers : ∑ j ∈ Finset.univ.erase i, g' j ≤ ∑ j ∈ Finset.univ.erase i,
    g j + k * (Fintype.card ι - 1) := by
    calc ∑ j ∈ Finset.univ.erase i, g' j
      _ ≤ ∑ j ∈ Finset.univ.erase i, (g j + k) :=
        Finset.sum_le_sum fun j hj => hne j (Finset.ne_of_mem_erase hj)
      _ = ∑ j ∈ Finset.univ.erase i, g j + k * (Fintype.card ι - 1) := by
        rw [Finset.sum_add_distrib, Finset.sum_const, Finset.card_erase_of_mem (Finset.mem_univ i),
          Finset.card_univ, nsmul_eq_mul, Nat.cast_id, Nat.mul_comm]
  have hpos : 0 < Fintype.card ι := Fintype.card_pos_iff.2 ⟨i⟩
  have hk : k * (Fintype.card ι - 1) + k = k * Fintype.card ι := by
    rw [← Nat.mul_succ, Nat.succ_eq_add_one, Nat.sub_add_cancel hpos]
  rw [← Finset.add_sum_erase _ _ (Finset.mem_univ i), ← Finset.add_sum_erase _ _ (Finset.mem_univ i)]
  omega

/-- A call moves and the average stays. -/
theorem potential_quiet (hc : s.calls i = call)
    (hlt : call'.cost (Fintype.card ι) s.peakEwmaMicros < call.cost (Fintype.card ι) s.peakEwmaMicros) :
    potential s.peakEwmaMicros (Function.update s.calls i call') + 1 ≤
      potential s.peakEwmaMicros s.calls := by
  refine sum_succ_le i 0 (fun j hj => ?_) ?_
  · rw [Function.update_of_ne hj]
    exact Nat.le_refl _
  · rw [Function.update_self, hc]
    omega

/-- A call puts its average there. -/
theorem potential_push {peak : Nat} (hc : s.calls i = call)
    (hbefore : call.cost (Fintype.card ι) s.peakEwmaMicros = 2 + 4 * Fintype.card ι)
    (hafter : call'.cost (Fintype.card ι) peak = 1) :
    potential peak (Function.update s.calls i call') + 1 ≤ potential s.peakEwmaMicros s.calls := by
  refine sum_succ_le i 4 (fun j hj => ?_) ?_
  · rw [Function.update_of_ne hj]
    exact UpdateEwma.cost_le ..
  · rw [Function.update_self, hc, hbefore, hafter]
    omega

omit [Fintype ι] in
theorem steps_of_freshStep (h : s.freshStep F latency e = some t) :
    Steps F latency s e t ∧ ∀ i value, e = .load i value → value = s.peakEwmaMicros := by
  unfold freshStep at h
  split at h
  · split at h
    · next hv => exact ⟨steps_of_step h, by rintro _ _ ⟨⟩; exact hv⟩
    · cases h
  · next hne => exact ⟨steps_of_step h, fun i value he => absurd he (hne i value)⟩

theorem potential_step (hs : Steps F latency s e t)
    (hfresh : ∀ i value, e = .load i value → value = s.peakEwmaMicros) :
    potential t.peakEwmaMicros t.calls + 1 ≤ potential s.peakEwmaMicros s.calls := by
  have hlt : ∀ {call call' : UpdateEwma}, call.through = call'.through →
      call'.rank s.peakEwmaMicros < call.rank s.peakEwmaMicros →
      call'.cost (Fintype.card ι) s.peakEwmaMicros < call.cost (Fintype.card ι) s.peakEwmaMicros := by
    intro call call' hthrough hrank
    unfold UpdateEwma.cost
    rw [hthrough]
    omega
  cases hs with
  | @loadedZero i hc =>
    refine potential_quiet hc (hlt rfl ?_)
    simp [UpdateEwma.rank, ← hfresh i 0 rfl]
  | @loaded i current hc hv =>
    refine potential_quiet hc (hlt rfl ?_)
    simp [UpdateEwma.rank, ← hfresh i current rfl]
  | set hc hp => exact potential_push hc (by rw [hp]; rfl) rfl
  | notSet hc hp => exact potential_quiet hc (hlt rfl (by simp [UpdateEwma.rank, hp]))
  | exchanged hc hp =>
    exact potential_push hc (by simp [UpdateEwma.cost, UpdateEwma.rank, UpdateEwma.through, hp]) rfl
  | notExchanged hc hp => exact potential_quiet hc (hlt rfl (by simp [UpdateEwma.rank, hp]))
  | stamped hh hc => exact potential_quiet hc (hlt rfl (by simp [UpdateEwma.rank]))
  | locked hh hc =>
    refine potential_quiet hc (hlt rfl ?_)
    simp only [UpdateEwma.rank]
    split <;> omega
  | unlocked hc => exact potential_quiet hc (hlt rfl (by simp [UpdateEwma.rank]))
  | released hc => exact potential_quiet hc (hlt rfl (by simp [UpdateEwma.rank]))

omit [Fintype ι] in
/-- The holder of the lock goes on, and while there is none whoever has not returned. -/
theorem exists_step (h : Exclusive s) (hi : s.calls i ≠ .returned) :
    ∃ e t, s.freshStep F latency e = some t := by
  cases hh : s.holder with
  | some j =>
    have hj := (h j).1 hh
    cases hc : s.calls j with
    | exchanging current x =>
      refine ⟨.compareExchange j, ?_⟩
      simp only [freshStep, step, hc]
      split <;> exact ⟨_, rfl⟩
    | exchanged => exact ⟨.unlock j ⟨0⟩, _, by simp only [freshStep, step, hc]; rfl⟩
    | retrying => exact ⟨.unlock j ⟨0⟩, _, by simp only [freshStep, step, hc]; rfl⟩
    | _ => rw [hc] at hj; cases hj
  | none =>
    have hnot : (s.calls i).holds ≠ true := fun hc => by rw [(h i).2 hc] at hh; cases hh
    cases hc : s.calls i with
    | loading => exact ⟨.load i s.peakEwmaMicros, _, by simp only [freshStep, step, hc]; rfl⟩
    | setting =>
      refine ⟨.compareExchange i, ?_⟩
      simp only [freshStep, step, hc]
      split <;> exact ⟨_, rfl⟩
    | set => exact ⟨.lock i ⟨0⟩, _, by simp only [freshStep, step, hc, hh]; rfl⟩
    | locking current => exact ⟨.lock i ⟨0⟩, _, by simp only [freshStep, step, hc, hh]; rfl⟩
    | returned => exact absurd hc hi
    | _ => rw [hc] at hnot; exact absurd rfl hnot

/-- A run of `n` calls that read what is there takes at most `4 * n * (n + 1)` steps, however they
interleave, and where it cannot go on they have all returned. -/
theorem updates_return (h : Run.run (freshStep F latency) (new created) events = some s) :
    events.length ≤ 4 * Fintype.card ι * (Fintype.card ι + 1) ∧
      ((∀ e, s.freshStep F latency e = none) → ∀ i, s.calls i = .returned) := by
  have hex : Exclusive s := by
    refine Run.run_preserves Exclusive ?_ (fun h hs => exclusive_step h (steps_of_freshStep hs).1) h
    exact fun i => iff_of_false nofun nofun
  have hlen := Run.length_add_le_of_potential
    (fun _ => True) (fun s => potential s.peakEwmaMicros s.calls) trivial
    (fun _ hs => ⟨trivial, potential_step (steps_of_freshStep hs).1 (steps_of_freshStep hs).2⟩) h
  have hnew : potential (new (ι := ι) created).peakEwmaMicros (new (ι := ι) created).calls =
      4 * Fintype.card ι * (Fintype.card ι + 1) := by
    show ∑ _ : ι, (4 + 4 * Fintype.card ι) = _
    rw [Finset.sum_const, Finset.card_univ, nsmul_eq_mul, Nat.cast_id]
    ring
  refine ⟨by rw [hnew] at hlen; omega, fun hstuck i => ?_⟩
  by_contra hi
  have hnext : ∃ e t, s.freshStep F latency e = some t := exists_step hex hi
  obtain ⟨e, t, hs⟩ := hnext
  rw [hstuck e] at hs
  cases hs

/-- Two calls, of which the second has to start again. -/
theorem updates_return_two :
    let events : List (Event Bool) := [.load false 0, .load true 0, .compareExchange false,
      .compareExchange true, .lock false ⟨0⟩,
      .load true 8, .lock true ⟨0⟩, .compareExchange true, .unlock true ⟨0⟩]
    ∃ s, Run.run (freshStep exactFloats twoLatencies) (new ⟨0⟩) events = some s ∧
      events.length ≤ 4 * Fintype.card Bool * (Fintype.card Bool + 1) := by
  intro events
  obtain ⟨s, hs⟩ : ∃ s, Run.run (freshStep exactFloats twoLatencies) (new ⟨0⟩) events = some s := ⟨_, rfl⟩
  exact ⟨s, hs, (updates_return hs).1⟩

/-! ### The average and the latencies -/

omit [DecidableEq ι] [Fintype ι] in
theorem record_le {n v x : Nat} {elapsed : Duration} (hF : F.ContractsUpTo n) (hv : v ≤ n) (hx : x ≤ n) :
    record F elapsed v x ≤ max v x := by
  unfold record
  split
  · exact Nat.le_max_right ..
  · have hd := hF.decay elapsed v hv
    refine (hF.blend _ _ (Nat.max_le.2 ⟨hd.trans hv, hx⟩) (Nat.le_max_left ..)).trans ?_
    exact Nat.max_le.2 ⟨hd.trans (Nat.le_max_left ..), Nat.le_max_right ..⟩

omit [DecidableEq ι] [Fintype ι] in
theorem sequential_le {n : Nat} (hF : F.ContractsUpTo n) (hlat : ∀ i, (latency i).asMicrosU64 ≤ n)
    (log : List (ι × Duration)) :
    sequential F latency log = 0 ∨ ∃ i ∈ log.map (·.1), sequential F latency log ≤
      (latency i).asMicrosU64 := by
  induction log using List.reverseRecOn with
  | nil => exact .inl rfl
  | append_singleton log x ih =>
    rw [sequential_concat]
    have hv : sequential F latency log ≤ n := by
      rcases ih with h | ⟨i, -, h⟩
      · rw [h]; exact Nat.zero_le _
      · exact h.trans (hlat i)
    have hle : record F x.2 (sequential F latency log) (latency x.1).asMicrosU64 ≤ _ :=
      record_le hF hv (hlat x.1)
    rcases le_or_gt (sequential F latency log) (latency x.1).asMicrosU64 with hx | hx
    · rw [Nat.max_eq_right hx] at hle
      exact .inr ⟨x.1, by simp, hle⟩
    · rw [Nat.max_eq_left (Nat.le_of_lt hx)] at hle
      rcases ih with h | ⟨i, hi, h⟩
      · rw [h] at hx; exact absurd hx (Nat.not_lt_zero _)
      · exact .inr ⟨i, by rw [List.map_append]; exact List.mem_append_left _ hi, hle.trans h⟩

omit [Fintype ι] in
/-- The load of an endpoint is never more than one of the latencies that went into its average. -/
theorem load_le_latency {n : Nat} (hF : F.ContractsUpTo n) (hlat : ∀ i, (latency i).asMicrosU64 ≤ n)
    (h : Run.run (step F latency) (new created) events = some s) (elapsed : Duration) :
    s.load F elapsed = 0 ∨ ∃ i, (s.calls i).through = true ∧
      s.load F elapsed ≤ (latency i).asMicrosU64 := by
  obtain ⟨log, hlog⟩ := linear_run linear_new h
  rw [load, hlog.peak]
  rcases sequential_le hF hlat ([] ++ log) with h | ⟨i, hi, h⟩
  · have hd := hF.decay elapsed _ (Nat.zero_le n)
    rw [h]
    exact .inl (Nat.le_zero.1 hd)
  · exact .inr ⟨i, (hlog.mem i).1 hi, (hF.decay elapsed _ (h.trans (hlat i))).trans h⟩

theorem load_le_latency_second : ∃ s, Run.run (step exactFloats twoLatencies) (new ⟨0⟩)
      [.load false 0, .compareExchange false, .load true 8, .lock true ⟨0⟩, .compareExchange true,
        .unlock true ⟨0⟩] = some s ∧
    (s.load exactFloats ⟨0⟩ = 0 ∨
      ∃ i, (s.calls i).through = true ∧ s.load exactFloats ⟨0⟩ ≤ (twoLatencies i).asMicrosU64) ∧
    s.load exactFloats ⟨0⟩ = 10 := by
  have hF : exactFloats.ContractsUpTo 16 := by
    refine ⟨fun _ _ _ => Nat.le_refl _, fun peak decayed _ h => ?_⟩
    show (peak + 3 * decayed) / 4 ≤ peak
    omega
  obtain ⟨s, hs, h10⟩ : ∃ s, Run.run (step exactFloats twoLatencies) (new ⟨0⟩) [.load false 0,
    .compareExchange false,
      .load true 8, .lock true ⟨0⟩, .compareExchange true, .unlock true ⟨0⟩] = some s ∧
        s.load exactFloats ⟨0⟩ = 10 :=
    ⟨_, rfl, rfl⟩
  exact ⟨s, hs, load_le_latency hF (by decide) hs ⟨0⟩, h10⟩

end ServiceMetrics

end AxumReverseProxy
