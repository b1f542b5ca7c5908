import AxumReverseProxy.Lib.Journal
import AxumReverseProxy.Lib.Run
import AxumReverseProxy.Lifecycle.Trace

/-!
# Who owns a guarded resource

One `TunnelGuard`, any number of its clones, and the forwarding attempts whose requests carry them.
The resource is in the guard's slot, with an attempt, or gone (`Owned`); every step of a run keeps
that, from the step lemmas of the attempts and the reference count of the slot. When an attempt should
let go of it is read off the events of the run (`activities`).
-/

namespace AxumReverseProxy

open Journal

/-- The guard's slot, the clones kept outside of attempts, the attempts, and the notes so far; a
note without an attempt is the slot's. -/
structure World where
  slot : Option Resource
  handles : Nat
  attempts : List Attempt
  journal : List (Option Nat × Note)

inductive Event
  | clone
  /-- a clone kept outside is dropped -/
  | drop
  /-- a forwarding future is made for a request -/
  | forward (env : Platform) (policy : ProxyPolicy) (upstreamUri : Uri) (req : Request)
  /-- it is polled for the first time -/
  | start (i : Nat)
  | attempt (i : Nat) (e : AttemptEvent)

/-- What an event says of the attempts there are. -/
def Event.activities (acts : List Activity) : Event → List Activity
  | .forward env policy upstreamUri req => acts ++ [.waiting env policy upstreamUri req]
  | .start i => acts.modify i .begun
  | .attempt i e => acts.modify i (·.after e)
  | .clone | .drop => acts

/-- What each attempt is in the middle of behind the events of a run. -/
def activities (events : List Event) : List Activity := events.foldl Event.activities []

def Attempt.holdsHandle (guard : TunnelGuard) (a : Attempt) : Bool :=
  match a.phase with
  | .created req => req.extensions.tunnelGuard = some guard
  | _ => false

namespace World

def new : World := ⟨some ⟨⟩, 1, [], []⟩

/-- The clones of the guard there are. -/
def strongCount (guard : TunnelGuard) (w : World) : Nat :=
  w.handles + w.attempts.countP (·.holdsHandle guard)

/-- The slot goes with the last clone. -/
def collect (guard : TunnelGuard) (w : World) : World :=
  if w.strongCount guard = 0 then
    { w with slot := none, journal := w.journal ++ (dropGuard w.slot).map (none, ·) }
  else w

/-- Attempt `i` moves to a phase and makes notes. -/
def advance (w : World) (i : Nat) (a : Attempt) (slot : Option Resource) (next : Phase × List Note) :
    World :=
  { w with slot, attempts := w.attempts.set i { a with phase := next.1 },
           journal := w.journal ++ next.2.map (some i, ·) }

def act (guard : TunnelGuard) (w : World) : Event → Option World
  | .clone => if w.strongCount guard = 0 then none else some { w with handles := w.handles + 1 }
  | .drop => if w.handles = 0 then none else some { w with handles := w.handles - 1 }
  | .forward env policy upstreamUri req =>
    let attempts := w.attempts ++ [⟨env, policy, upstreamUri, .created req⟩]
    if req.extensions.tunnelGuard = some guard then
      if w.handles = 0 then none else some { w with handles := w.handles - 1, attempts }
    else some { w with attempts }
  | .start i => do
    let a ← w.attempts[i]?
    match a.phase with
    | .created req =>
      -- `TunnelGuard::take` empties the slot
      let (taken, slot) := if req.extensions.tunnelGuard = some guard then (w.slot, none) else
        (none, w.slot)
      (a.start req taken).map (w.advance i a slot)
    | _ => none
  | .attempt i e => do
    let a ← w.attempts[i]?
    (a.next e).map (w.advance i a w.slot)

def step (guard : TunnelGuard) (w : World) (e : Event) : Option World := (w.act guard e).map (collect guard)

/-- The attempts that hold the resource. -/
def holding (w : World) : Nat := (w.attempts.map fun a : Attempt => a.phase.guard.toList.length).sum

/-- The resource is in one place: not taken, taken by one attempt, or dropped. -/
structure Balanced (acts : List Activity) (w : World) : Prop where
  once : w.slot.toList.length + total w.journal .acquired + (notesOf w.journal none).length = 1
  token : w.slot.toList.length + w.holding + total w.journal .released = 1
  counted : acts.length = w.attempts.length
  tracks : ∀ (i : Nat) (a : Attempt) (act : Activity), w.attempts[i]? = some a → acts[i]? = some act →
    a.Tracks act (notesOf w.journal (some i))
  fresh : ∀ i, w.attempts.length ≤ i → notesOf w.journal (some i) = []
  slotNotes : ∀ n ∈ notesOf w.journal none, n = .released

structure Owned (guard : TunnelGuard) (acts : List Activity) (w : World) :
    Prop extends w.Balanced acts where
  live : w.slot.isSome = true → w.strongCount guard ≠ 0

end World

variable {guard : TunnelGuard} {w w' : World} {e : Event} {i : Nat} {a : Attempt} {slot : Option Resource}
  {p : Phase} {ns : List Note} {acts : List Activity} {events : List Event}

theorem activities_concat (events : List Event) (e : Event) :
    activities (events ++ [e]) = e.activities (activities events) :=
  List.foldl_concat ..

namespace World.Balanced

theorem new : World.new.Balanced [] where
  once := rfl
  token := rfl
  counted := rfl
  tracks := by simp [World.new]
  fresh := by simp [World.new]
  slotNotes := by simp [World.new]

theorem handles (h : w.Balanced acts) (n : Nat) : { w with handles := n }.Balanced acts :=
  ⟨h.once, h.token, h.counted, h.tracks, h.fresh, h.slotNotes⟩

theorem forward (h : w.Balanced acts) (env : Platform) (policy : ProxyPolicy) (upstreamUri : Uri)
    (req : Request) :
    { w with attempts := w.attempts ++ [Attempt.mk env policy upstreamUri (.created req)] }.Balanced
      (acts ++ [Activity.waiting env policy upstreamUri req]) := by
  refine ⟨h.once, ?_, ?_, ?_, fun i hi => h.fresh i ?_, h.slotNotes⟩
  · have ht := h.token
    simp only [World.holding, List.map_append, List.sum_append, List.map_singleton, List.sum_singleton,
      Phase.guard, Option.toList_none, List.length_nil] at ht ⊢
    omega
  · simp only [List.length_append, List.length_singleton, h.counted]
  · intro i b act hb hact
    rw [List.getElem?_append] at hb hact
    rw [h.counted] at hact
    split at hb
    · next hi =>
      rw [if_pos hi] at hact
      exact h.tracks i b act hb hact
    · next hi =>
      rw [if_neg hi] at hact
      have hi' : i = w.attempts.length := by
        have := (List.getElem?_eq_some_iff.1 hb).1
        simp only [List.length_singleton] at this
        omega
      subst hi'
      obtain rfl : _ = b := by simpa using hb
      obtain rfl : _ = act := by simpa using hact
      rw [h.fresh _ (Nat.le_refl _)]
      exact ⟨rfl, rfl, rfl, releasesIdle_nil, nofun⟩
  · simp only [List.length_append, List.length_singleton] at hi
    omega

theorem activity (h : w.Balanced acts) (ha : w.attempts[i]? = some a) : ∃ act, acts[i]? = some act :=
  ⟨_, List.getElem?_eq_getElem (h.counted ▸ (List.getElem?_eq_some_iff.1 ha).1)⟩

theorem advance (h : w.Balanced acts) (ha : w.attempts[i]? = some a) (f : Activity → Activity)
    (ht : ∀ act, a.Tracks act (notesOf w.journal (some i)) →
      { a with phase := p }.Tracks (f act) (notesOf w.journal (some i) ++ ns))
    (hslot : slot.toList.length + ns.count .acquired = w.slot.toList.length) :
    (w.advance i a slot (p, ns)).Balanced (acts.modify i f) := by
  have hself : notesOf (w.journal ++ ns.map (some i, ·)) (some i) = notesOf w.journal (some i) ++ ns := by
    rw [notesOf_append, notesOf_map_self]
  have hother : ∀ k, k ≠ some i → notesOf (w.journal ++ ns.map (some i, ·)) k = notesOf w.journal k := by
    intro k hk
    rw [notesOf_append, notesOf_map_ne hk, List.append_nil]
  have hi := (List.getElem?_eq_some_iff.1 ha).1
  obtain ⟨act, hact⟩ := h.activity ha
  have hbefore := h.tracks i a act ha hact
  have hafter := ht act hbefore
  refine ⟨?_, ?_, ?_, ?_, ?_, ?_⟩
  · have := h.once
    show slot.toList.length + total (w.journal ++ ns.map (some i, ·)) .acquired +
      (notesOf (w.journal ++ ns.map (some i, ·)) none).length = 1
    rw [hother none (by simp), total_append, total_map]
    omega
  · have htok := h.token
    have h1 := hafter.token
    have h2 := hbefore.token
    rw [List.count_append, List.count_append] at h1
    have hsum := sum_map_set (fun a : Attempt => a.phase.guard.toList.length) { a with phase := p } ha
    replace h1 : _ = p.guard.toList.length + _ := h1
    show slot.toList.length + ((w.attempts.set i { a with phase := p }).map
      fun a => a.phase.guard.toList.length).sum + total (w.journal ++ ns.map (some i, ·)) .released = 1
    rw [total_append, total_map]
    simp only [World.holding] at htok hsum
    omega
  · rw [List.length_modify, h.counted]
    exact List.length_set.symm
  · intro k b act' hb hact'
    show b.Tracks act' (notesOf (w.journal ++ ns.map (some i, ·)) (some k))
    rw [List.getElem?_modify] at hact'
    rcases eq_or_ne k i with rfl | hk
    · obtain rfl : { a with phase := p } = b := by
        simpa [World.advance, List.getElem?_set_self hi] using hb
      obtain rfl : f act = act' := by simpa [hact] using hact'
      rw [hself]; exact hafter
    · rw [hother _ (by simpa using hk)]
      refine h.tracks k b act' (by simpa [World.advance, List.getElem?_set_ne (Ne.symm hk)] using hb) ?_
      simpa [Ne.symm hk] using hact'
  · intro k hk
    have hk' : w.attempts.length ≤ k := by simpa [World.advance] using hk
    show notesOf (w.journal ++ ns.map (some i, ·)) (some k) = []
    rw [hother _ (by simp; omega), h.fresh k hk']
  · intro n hn
    exact h.slotNotes n (by rwa [← hother none (by simp)])

theorem act (h : w.Balanced acts) (hs : w.act guard e = some w') : w'.Balanced (e.activities acts) := by
  cases e with
  | clone =>
    simp only [World.act] at hs
    split at hs
    · cases hs
    · cases hs; exact h.handles _
  | drop =>
    simp only [World.act] at hs
    split at hs
    · cases hs
    · cases hs; exact h.handles _
  | forward env policy uri req =>
    simp only [World.act] at hs
    have hf := h.forward env policy uri req
    split at hs
    · split at hs
      · cases hs
      · cases hs; exact hf.handles _
    · cases hs; exact hf
  | start i =>
    simp only [World.act] at hs
    obtain ⟨a, ha, hs⟩ := Option.bind_eq_some_iff.1 hs
    cases hp : a.phase with
    | created req =>
      rw [hp] at hs
      simp only at hs
      obtain ⟨⟨p, ns⟩, hstart, rfl⟩ := Option.map_eq_some_iff.1 hs
      refine h.advance ha .begun (fun _ ht => tracks_start ht hp hstart) ?_
      rw [count_acquired_start hstart]
      split <;> simp
    | _ => rw [hp] at hs; cases hs
  | attempt i e =>
    simp only [World.act] at hs
    obtain ⟨a, ha, hs⟩ := Option.bind_eq_some_iff.1 hs
    obtain ⟨⟨p, ns⟩, hnext, rfl⟩ := Option.map_eq_some_iff.1 hs
    refine h.advance ha (·.after e) (fun _ ht => tracks_next ht hnext) ?_
    rw [count_acquired_next hnext, Nat.add_zero]

theorem collect (h : w.Balanced acts) : (w.collect guard).Owned guard acts := by
  unfold World.collect
  split
  · have hother : ∀ i, notesOf (w.journal ++ (dropGuard w.slot).map (none, ·)) (some i) =
        notesOf w.journal (some i) := by
      intro i
      rw [notesOf_append, notesOf_map_ne (by simp), List.append_nil]
    refine ⟨⟨?_, ?_, h.counted, ?_, ?_, ?_⟩, by simp⟩
    · have := h.once
      show 0 + total (w.journal ++ (dropGuard w.slot).map (none, ·)) .acquired +
        (notesOf (w.journal ++ (dropGuard w.slot).map (none, ·)) none).length = 1
      rw [total_append, total_map, notesOf_append, notesOf_map_self, count_dropGuard.2, List.length_append]
      cases hs : w.slot <;> simp [hs, dropGuard] at this ⊢ <;> omega
    · have := h.token
      show 0 + w.holding + total (w.journal ++ (dropGuard w.slot).map (none, ·)) .released = 1
      rw [total_append, total_map, count_dropGuard.1]
      omega
    · intro i a act ha hact
      show a.Tracks act (notesOf (w.journal ++ (dropGuard w.slot).map (none, ·)) (some i))
      rw [hother]
      exact h.tracks i a act ha hact
    · intro i hi
      exact (hother i).trans (h.fresh i hi)
    · intro n hn
      have hn : n ∈ notesOf w.journal none ++ dropGuard w.slot := by
        rwa [notesOf_append, notesOf_map_self] at hn
      rcases List.mem_append.1 hn with hn | hn
      · exact h.slotNotes n hn
      · cases hs : w.slot <;> simp_all [dropGuard]
  · next hc => exact ⟨h, fun _ => hc⟩

end World.Balanced

namespace World

theorem owned_step (h : w.Owned guard acts) (hs : w.step guard e = some w') :
    w'.Owned guard (e.activities acts) := by
  obtain ⟨u, hu, rfl⟩ := Option.map_eq_some_iff.1 hs
  exact (h.toBalanced.act hu).collect

theorem owned_new : World.new.Owned guard [] := ⟨.new, by simp [new, strongCount]⟩

theorem owned_run (h : Run.run (step guard) new events = some w) : w.Owned guard (activities events) :=
  Run.run_invariant (fun events w => w.Owned guard (activities events)) owned_new
    (fun h hs => by rw [activities_concat]; exact owned_step h hs) h

end World

/-! ### Ownership over whole runs -/

/-- No clone is left, and every attempt is over by its events. -/
def World.Quiescent (w : World) (events : List Event) : Prop :=
  w.handles = 0 ∧ ∀ act ∈ activities events, act = .finished

namespace World.Owned

theorem attempt_of_activity {act : Activity} (h : w.Owned guard acts) (hact : acts[i]? = some act) :
    ∃ a, w.attempts[i]? = some a ∧ a.Tracks act (notesOf w.journal (some i)) := by
  have hi : i < w.attempts.length := h.counted ▸ (List.getElem?_eq_some_iff.1 hact).1
  exact ⟨_, List.getElem?_eq_getElem hi, h.tracks i _ act (List.getElem?_eq_getElem hi) hact⟩

theorem released_of_quiescent (h : w.Owned guard (activities events)) (hq : w.Quiescent events) :
    total w.journal .released = 1 := by
  have hfin : ∀ (i : Nat) (a : Attempt), w.attempts[i]? = some a → a.Doing .finished := fun i a ha => by
    obtain ⟨act, hact⟩ := h.activity ha
    have hd := (h.tracks i a act ha hact).doing
    rwa [hq.2 act (List.mem_of_getElem? hact)] at hd
  have hslot : w.slot = none := by
    by_contra hs
    refine h.live (Option.isSome_iff_ne_none.2 hs) ?_
    rw [strongCount, hq.1, Nat.zero_add, List.countP_eq_zero]
    intro a ha
    obtain ⟨i, hi⟩ := List.mem_iff_getElem?.1 ha
    have hd := hfin i a hi
    unfold Attempt.holdsHandle
    split
    · next req hp =>
      unfold Attempt.Doing at hd
      rw [hp] at hd
      cases hd
    · simp
  have hholding : w.holding = 0 := by
    refine List.sum_eq_zero_iff_forall_eq_nat.2 fun n hn => ?_
    obtain ⟨a, ha, rfl⟩ := List.mem_map.1 hn
    obtain ⟨i, hi⟩ := List.mem_iff_getElem?.1 ha
    have hg : a.phase.guard = none := by
      by_contra hg
      exact (hfin i a hi).not_finished hg rfl
    rw [hg]; rfl
  have ht := h.token
  rw [hslot, hholding] at ht
  simpa using ht

theorem released_idle (h : w.Owned guard acts) {pre post : List (Option Nat × Note)} {o : Option Nat}
    (hj : w.journal = pre ++ (o, .released) :: post) :
    (o = none ∧ total w.journal .acquired = 0) ∨
      ∃ i, o = some i ∧ (some i, .acquired) ∈ pre ∧ observed (notesOf pre (some i)) = .idle := by
  have hsplit := notesOf_split hj
  cases o with
  | none =>
    have := h.once
    rw [hsplit, List.length_append, List.length_cons] at this
    exact .inl ⟨rfl, by omega⟩
  | some i =>
    cases ha : w.attempts[i]? with
    | none =>
      rw [h.fresh i (List.getElem?_eq_none_iff.1 ha)] at hsplit
      simp at hsplit
    | some a =>
      obtain ⟨act, hact⟩ := h.activity ha
      obtain ⟨hacq, hidle⟩ := (h.tracks i a act ha hact).safe _ _ hsplit
      exact .inr ⟨i, rfl, mem_notesOf.1 hacq, hidle⟩

/-- The attempt that took the resource has dropped it exactly when it is over. -/
theorem released_iff_over (h : w.Owned guard acts) (hi : (some i, .acquired) ∈ w.journal) :
    (some i, .released) ∈ w.journal ↔ acts[i]? = some .finished := by
  have hmem := mem_notesOf.2 hi
  cases ha : w.attempts[i]? with
  | none => rw [h.fresh i (List.getElem?_eq_none_iff.1 ha)] at hmem; cases hmem
  | some a =>
    obtain ⟨act, hact⟩ := h.activity ha
    have ht := h.tracks i a act ha hact
    rw [hact, ← mem_notesOf]
    constructor
    · intro hr
      rw [ht.finished hr]
    · intro hfin
      obtain rfl : act = .finished := Option.some.inj hfin
      have hg : a.phase.guard = none := by
        by_contra hg
        exact ht.doing.not_finished hg rfl
      have htok := ht.token
      have hpos := List.count_pos_iff.2 hmem
      rw [hg, Option.toList_none, List.length_nil] at htok
      exact List.count_pos_iff.1 (by omega)

theorem released_eq_zero {act : Activity} (h : w.Owned guard acts) (hacq : (some i, .acquired) ∈ w.journal)
    (hact : acts[i]? = some act) (hfin : act ≠ .finished) : total w.journal .released = 0 := by
  obtain ⟨a, ha, ht⟩ := h.attempt_of_activity hact
  have hnone : .released ∉ notesOf w.journal (some i) := fun hr => hfin (ht.finished hr)
  have hpos := List.count_pos_iff.2 (mem_notesOf.2 hacq)
  have htok := ht.token
  rw [List.count_eq_zero_of_not_mem hnone] at htok
  have hguard : 1 ≤ a.phase.guard.toList.length := by omega
  have hle : 1 ≤ w.holding := length_le_sum_map (List.pairwise_singleton _ i) fun j hj => by
    obtain rfl := List.mem_singleton.1 hj
    exact ⟨a, ha, hguard⟩
  have := h.token
  omega

end World.Owned

end AxumReverseProxy
