import AxumReverseProxy.Lib.Run
import Mathlib.Logic.Function.Basic

/-!
# A mailbox with several readers

The readers share one receiving end behind a lock that is only ever tried: who finds it taken wakes
itself and tries again. Who finds the mailbox empty leaves its waker and sleeps; there is room for one
waker, and a later reader's takes the place of an earlier one's. A reader may go down with what it has
received.

`Attended` is what keeps a message from waiting for ever. A step loses it only when a reader goes down
and no other is awake (`attended_step`), and nothing but a new reader brings it back
(`unattended_step`).
-/

namespace Mailbox

variable {ι α : Type*} [DecidableEq ι]

inductive Reader
  | idle
  | awake
  | asleep
  | gone
deriving DecidableEq

structure State (ι α : Type*) where
  queue : List α
  waker : Option ι
  lock : Option ι
  readers : ι → Reader
  received : List (ι × α)

inductive Event (ι α : Type*)
  | join (i : ι)
  | send (a : α)
  | tryLock (i : ι)
  | receive (i : ι) (dies : Bool)
  | park (i : ι)
  | spurious (i : ι)

def Event.sent? : Event ι α → Option α
  | .send a => some a
  | _ => none

namespace State

def new : State ι α := ⟨[], none, none, fun _ => .idle, []⟩

/-- The readers when the waker left behind is woken. -/
def wake (s : State ι α) : ι → Reader :=
  match s.waker with
  | some i => if s.readers i = .asleep then Function.update s.readers i .awake else s.readers
  | none => s.readers

def step (s : State ι α) : Event ι α → Option (State ι α)
  | .join i =>
    if s.readers i = .idle then some { s with readers := Function.update s.readers i .awake } else none
  | .send a => some { s with queue := s.queue ++ [a], waker := none, readers := s.wake }
  | .tryLock i =>
    if s.readers i = .awake ∧ s.lock ≠ some i then
      some { s with lock := if s.lock = none then some i else s.lock }
    else none
  | .receive i dies =>
    match s.queue with
    | a :: queue =>
      if s.lock = some i then
        some { s with
          queue, lock := none, received := s.received ++ [(i, a)]
          readers := if dies then Function.update s.readers i .gone else s.readers }
      else none
    | [] => none
  | .park i =>
    if s.lock = some i ∧ s.queue = [] then
      some { s with lock := none, waker := some i, readers := Function.update s.readers i .asleep }
    else none
  | .spurious i => if s.lock = some i then some { s with lock := none } else none

variable {s t : State ι α} {e : Event ι α} {i j : ι} {a : α} {queue : List α} {dies : Bool}

/-! ### What a step can do -/

theorem join_cases (h : s.step (.join i) = some t) :
    s.readers i = .idle ∧ t = { s with readers := Function.update s.readers i .awake } := by
  simp only [step, Option.ite_none_right_eq_some, Option.some.injEq] at h
  exact ⟨h.1, h.2.symm⟩

theorem tryLock_cases (h : s.step (.tryLock i) = some t) :
    s.readers i = .awake ∧ (s.lock = none ∧ t = { s with lock := some i } ∨ s.lock ≠ none ∧ t = s) := by
  simp only [step, Option.ite_none_right_eq_some, Option.some.injEq] at h
  obtain ⟨⟨ha, -⟩, rfl⟩ := h
  refine ⟨ha, ?_⟩
  by_cases hl : s.lock = none
  · exact .inl ⟨hl, by rw [if_pos hl]⟩
  · exact .inr ⟨hl, by rw [if_neg hl]⟩

theorem receive_cases (h : s.step (.receive i dies) = some t) :
    s.lock = some i ∧ ∃ a queue, s.queue = a :: queue ∧ t = { s with
      queue, lock := none, received := s.received ++ [(i, a)]
      readers := if dies then Function.update s.readers i .gone else s.readers } := by
  simp only [step] at h
  split at h
  · next a queue hq =>
    rw [Option.ite_none_right_eq_some, Option.some.injEq] at h
    exact ⟨h.1, a, queue, hq, h.2.symm⟩
  · cases h

theorem park_cases (h : s.step (.park i) = some t) : s.lock = some i ∧ s.queue = [] ∧
    t = { s with lock := none, waker := some i, readers := Function.update s.readers i .asleep } := by
  simp only [step, Option.ite_none_right_eq_some, Option.some.injEq] at h
  exact ⟨h.1.1, h.1.2, h.2.symm⟩

theorem spurious_cases (h : s.step (.spurious i) = some t) :
    s.lock = some i ∧ t = { s with lock := none } := by
  simp only [step, Option.ite_none_right_eq_some, Option.some.injEq] at h
  exact ⟨h.1, h.2.symm⟩

theorem wake_eq_or (s : State ι α) :
    s.wake = s.readers ∨ ∃ i, s.waker = some i ∧ s.readers i = .asleep ∧
      s.wake = Function.update s.readers i .awake := by
  unfold wake
  split
  · next i hw =>
    split
    · next ha => exact .inr ⟨i, hw, ha, rfl⟩
    · exact .inl rfl
  · exact .inl rfl

/-- A reader woken was asleep; nobody else is touched. -/
theorem wake_awake (h : s.readers i = .awake) : s.wake i = .awake := by
  rcases s.wake_eq_or with hw | ⟨j, -, ha, hw⟩
  · rw [hw, h]
  · have hne : i ≠ j := by
      rintro rfl
      rw [h] at ha; cases ha
    rw [hw, Function.update_of_ne hne, h]

/-! ### Who holds the lock, and whose waker is left -/

structure Sound (s : State ι α) : Prop where
  awake : ∀ i, s.lock = some i → s.readers i = .awake
  empty : ∀ i, s.waker = some i → s.readers i = .asleep → s.queue = []

omit [DecidableEq ι] in
theorem sound_new : (new : State ι α).Sound := ⟨nofun, nofun⟩

theorem sound_step (h : s.Sound) (hs : s.step e = some t) : t.Sound := by
  cases e with
  | join i =>
    obtain ⟨hi, rfl⟩ := join_cases hs
    refine ⟨fun j hj => ?_, fun j hj ha => ?_⟩
    · by_cases hji : j = i
      · subst hji; exact Function.update_self ..
      · exact (Function.update_of_ne hji ..).trans (h.awake j hj)
    · by_cases hji : j = i
      · subst hji
        cases (Function.update_self ..).symm.trans ha
      · exact h.empty j hj ((Function.update_of_ne hji ..).symm.trans ha)
  | send a =>
    cases hs
    exact ⟨fun j hj => wake_awake (h.awake j hj), nofun⟩
  | tryLock i =>
    obtain ⟨ha, ⟨-, rfl⟩ | ⟨-, rfl⟩⟩ := tryLock_cases hs
    · refine ⟨fun j hj => ?_, h.empty⟩
      cases hj
      exact ha
    · exact h
  | receive i dies =>
    obtain ⟨hl, a, queue, hq, rfl⟩ := receive_cases hs
    refine ⟨nofun, fun j hj ha => ?_⟩
    -- a waker left by a sleeper would mean that nothing was there to receive
    have hold : s.readers j = .asleep := by
      cases dies with
      | false => exact ha
      | true =>
        by_cases hji : j = i
        · subst hji
          cases (Function.update_self ..).symm.trans ha
        · exact (Function.update_of_ne hji ..).symm.trans ha
    have := h.empty j hj hold
    rw [hq] at this; cases this
  | park i =>
    obtain ⟨-, hq, rfl⟩ := park_cases hs
    exact ⟨nofun, fun j _ _ => hq⟩
  | spurious i =>
    obtain ⟨-, rfl⟩ := spurious_cases hs
    exact ⟨nofun, h.empty⟩

/-- A message is received once, by one reader, and none overtakes another. -/
theorem received_append_queue (h : s.step e = some t) : t.received.map (·.2) ++ t.queue =
    s.received.map (·.2) ++ s.queue ++ e.sent?.toList := by
  cases e with
  | join i => obtain ⟨-, rfl⟩ := join_cases h; simp [Event.sent?]
  | send a => cases h; simp [Event.sent?]
  | tryLock i => obtain ⟨-, ⟨-, rfl⟩ | ⟨-, rfl⟩⟩ := tryLock_cases h <;> simp [Event.sent?]
  | receive i dies => obtain ⟨-, a, queue, hq, rfl⟩ := receive_cases h; simp [Event.sent?, hq]
  | park i => obtain ⟨-, -, rfl⟩ := park_cases h; simp [Event.sent?]
  | spurious i => obtain ⟨-, rfl⟩ := spurious_cases h; simp [Event.sent?]

/-! ### Who looks after the mailbox -/

/-- A reader is awake, or nothing waits and a sleeper is known to whoever sends. -/
def Attended (s : State ι α) : Prop :=
  (∃ i, s.readers i = .awake) ∨ s.queue = [] ∧ ∃ i, s.waker = some i ∧ s.readers i = .asleep

/-- A step keeps the mailbox attended, unless a reader goes down and it was the last one awake. -/
theorem attended_step (h : s.Attended) (hs : s.step e = some t)
    (hd : ∀ i, e = .receive i true → ∃ j, j ≠ i ∧ s.readers j = .awake) : t.Attended := by
  cases e with
  | join i =>
    obtain ⟨-, rfl⟩ := join_cases hs
    exact .inl ⟨i, Function.update_self ..⟩
  | send a =>
    cases hs
    rcases h with ⟨i, hi⟩ | ⟨-, i, hw, hi⟩
    · exact .inl ⟨i, wake_awake hi⟩
    · refine .inl ⟨i, ?_⟩
      show s.wake i = .awake
      rw [wake, hw]
      show (if s.readers i = .asleep then Function.update s.readers i .awake else s.readers) i = .awake
      rw [if_pos hi, Function.update_self]
  | tryLock i =>
    obtain ⟨ha, ⟨-, rfl⟩ | ⟨-, rfl⟩⟩ := tryLock_cases hs
    · exact .inl ⟨i, ha⟩
    · exact h
  | receive i dies =>
    obtain ⟨hl, a, queue, hq, rfl⟩ := receive_cases hs
    cases dies with
    | false =>
      rcases h with h | ⟨he, -⟩
      · exact .inl h
      · rw [hq] at he; cases he
    | true =>
      obtain ⟨j, hj, ha⟩ := hd i rfl
      exact .inl ⟨j, (Function.update_of_ne hj ..).trans ha⟩
  | park i =>
    obtain ⟨-, hq, rfl⟩ := park_cases hs
    exact .inr ⟨hq, i, rfl, Function.update_self ..⟩
  | spurious i =>
    obtain ⟨-, rfl⟩ := spurious_cases hs
    exact h

/-- The last one awake, going down, leaves the mailbox unattended. -/
theorem not_attended_of_dies (hsound : s.Sound) (hs : s.step (.receive i true) = some t)
    (hd : ∀ j, j ≠ i → s.readers j ≠ .awake) : ¬ t.Attended := by
  obtain ⟨-, a, queue, hq, rfl⟩ := receive_cases hs
  rintro (⟨j, hj⟩ | ⟨-, j, hw, hj⟩) <;> by_cases hji : j = i
  · subst hji
    cases (Function.update_self ..).symm.trans hj
  · exact hd j hji ((Function.update_of_ne hji ..).symm.trans hj)
  · subst hji
    cases (Function.update_self ..).symm.trans hj
  · have he := hsound.empty j hw ((Function.update_of_ne hji ..).symm.trans hj)
    rw [hq] at he; cases he

/-- An unattended mailbox stays so and nothing is received from it, until a reader joins. -/
theorem unattended_step (hsound : s.Sound) (h : ¬ s.Attended) (hs : s.step e = some t)
    (hj : ∀ i, e ≠ .join i) :
    ¬ t.Attended ∧ t.received = s.received := by
  have hasleep : ∀ i, s.readers i ≠ .awake := fun i hi => h (.inl ⟨i, hi⟩)
  have hlock : ∀ i, s.lock ≠ some i := fun i hi => hasleep i (hsound.awake i hi)
  cases e with
  | join i => exact absurd rfl (hj i)
  | send a =>
    cases hs
    refine ⟨?_, rfl⟩
    rcases s.wake_eq_or with hw | ⟨i, hi, ha, -⟩
    · rintro (⟨j, hj⟩ | ⟨-, j, hj, -⟩)
      · exact hasleep j (by rw [← hw]; exact hj)
      · cases hj
    · exact absurd (.inr ⟨hsound.empty i hi ha, i, hi, ha⟩) h
  | tryLock i => exact absurd (tryLock_cases hs).1 (hasleep i)
  | receive i dies => exact absurd (receive_cases hs).1 (hlock i)
  | park i => exact absurd (park_cases hs).1 (hlock i)
  | spurious i => exact absurd (spurious_cases hs).1 (hlock i)

/-- What a step needs for the mailbox to be attended after it, as long as nobody joins. -/
theorem attended_iff_of_step (hsound : s.Sound) (hs : s.step e = some t) (hj : ∀ i, e ≠ .join i) :
    t.Attended ↔ s.Attended ∧ ∀ i, e = .receive i true → ∃ j, j ≠ i ∧ s.readers j = .awake := by
  constructor
  · intro ht
    have h : s.Attended := by
      by_contra h
      exact (unattended_step hsound h hs hj).1 ht
    refine ⟨h, fun i he => ?_⟩
    subst he
    by_contra hd
    push Not at hd
    exact not_attended_of_dies hsound hs hd ht
  · rintro ⟨h, hd⟩
    exact attended_step h hs hd

/-- While a message waits in an attended mailbox, some reader holds the lock or can have it. -/
theorem exists_reader (h : s.Attended) (hq : s.queue ≠ []) :
    ∃ i, s.lock = some i ∨ s.step (.tryLock i) = some { s with lock := some i } := by
  rcases h with ⟨i, hi⟩ | ⟨he, -⟩
  · cases hl : s.lock with
    | some j => exact ⟨j, .inl rfl⟩
    | none =>
      refine ⟨i, .inr ?_⟩
      simp only [step, hl, hi]
      rfl
  · exact absurd he hq

end State

end Mailbox
