import AxumReverseProxy.Retry.Readiness

/-!
# The futures compute `call`

Seen from outside, a future of `RetryRun` that returns has taken its answers in order and returns
what `Retry.call` returns over a service that gives these answers (`returned_eq_call`).
-/

namespace AxumReverseProxy

/-- A service that gives the answers of a list, whatever it is asked. -/
def tape (answers : List Response) : InnerService := fun k _ => answers[k]?

variable {retry : Retry} {req req' : Request} {res : Response} {attempts : Nat}

theorem Retry.loop_tape (pre mid : List Response) (hmid : ∀ a ∈ mid, isRetryable a = true)
    (hgo : mid = [] ∨ pre.length + mid.length < attempts)
    (hstop : isRetryable res = false ∨ pre.length + mid.length + 1 ≥ attempts) :
    loop (tape (pre ++ mid ++ [res])) req attempts pre.length =
      some ⟨(mid ++ [res]).map fun a => ⟨req, a⟩, res⟩ := by
  induction mid generalizing pre with
  | nil =>
    have hres : tape (pre ++ [] ++ [res]) pre.length req = some res := by simp [tape]
    rw [loop, hres]
    exact dif_pos hstop
  | cons a mid ih =>
    have hres : tape (pre ++ a :: mid ++ [res]) pre.length req = some a := by simp [tape]
    have hlt := hgo.resolve_left (List.cons_ne_nil a mid)
    rw [List.length_cons] at hlt hstop
    rw [loop, hres]
    simp only
    rw [dif_neg]
    · have h := ih (pre ++ [a]) (fun b hb => hmid b (List.mem_cons_of_mem _ hb))
        (.inr (by rw [List.length_append, List.length_singleton]; omega))
        (hstop.imp_right fun h => by rw [List.length_append, List.length_singleton]; omega)
      rw [List.length_append, List.length_singleton, List.append_assoc pre, List.singleton_append] at h
      rw [h]
      rfl
    · rw [not_or, hmid a (List.mem_cons_self ..)]
      exact ⟨by simp, by omega⟩

/-- How far a future made for `req` is when it was given `answers`. -/
def RetryFuture.Phase.After (retry : Retry) (req : Request) (answers : List Response) :
    RetryFuture.Phase → Prop
  | created req' => req' = req ∧ answers = []
  | once => answers = [] ∧ ∃ req', ∀ inner, retry.call inner req = Retry.once inner req'
  | attempt req' n => (∀ inner, retry.call inner req = Retry.loop inner req' retry.attempts 0) ∧
      n = answers.length + 1 ∧ (∀ a ∈ answers, isRetryable a = true) ∧
      (answers = [] ∨ answers.length < retry.attempts)
  | delay req' n => (∀ inner, retry.call inner req = Retry.loop inner req' retry.attempts 0) ∧
      n = answers.length ∧ (∀ a ∈ answers, isRetryable a = true) ∧
        answers.length < retry.attempts ∧ answers ≠ []
  | returned res =>
    ∃ r, retry.call (tape answers) req = some r ∧ r.res = res ∧ r.calls.map (·.res) = answers
  | dropped => True

namespace RetryRun

def requests (events : List Event) : List Request :=
  events.filterMap fun
    | .call _ req => some req
    | _ => none

def answers (f : Nat) (events : List Event) : List Response :=
  events.filterMap fun
    | .respond g res => if g = f then some res else none
    | _ => none

structure Refines (retry : Retry) (events : List Event) (s : RetryRun) : Prop where
  counted : s.futures.length = (requests events).length
  unanswered : ∀ f, s.futures.length ≤ f → answers f events = []
  after : ∀ (f : Nat) fut req, s.futures[f]? = some fut → (requests events)[f]? = some req →
    fut.phase.After retry req (answers f events)

variable {s s' : RetryRun} {e : Event} {events : List Event} {f : Nat} {inner : InstanceId}
  {phase phase' : RetryFuture.Phase}

theorem refines_new : Refines retry [] new :=
  ⟨rfl, fun _ _ => rfl, fun f fut req h => by cases h⟩

theorem refines_of_futures_eq (h : Refines retry events s) (hf : s'.futures = s.futures)
    (hreq : requests (events ++ [e]) = requests events)
    (hans : ∀ f, answers f (events ++ [e]) = answers f events) :
    Refines retry (events ++ [e]) s' := by
  refine ⟨?_, fun f hle => ?_, fun f fut req => ?_⟩
  · rw [hf, hreq]; exact h.counted
  · rw [hf] at hle; rw [hans]; exact h.unanswered f hle
  · rw [hf, hreq, hans]; exact h.after f fut req

theorem refines_of_set (h : Refines retry events s) (hf : s.futures[f]? = some ⟨inner, phase⟩)
    (hs : s'.futures = s.futures.set f ⟨inner, phase'⟩) (hreq : requests (events ++ [e]) = requests events)
    (hans : ∀ g, g ≠ f → answers g (events ++ [e]) = answers g events)
    (hphase : ∀ req, phase.After retry req (answers f events) →
      phase'.After retry req (answers f (events ++ [e]))) :
    Refines retry (events ++ [e]) s' := by
  have hlt : f < s.futures.length := (List.getElem?_eq_some_iff.1 hf).1
  refine ⟨?_, fun g hle => ?_, fun g fut req hg hr => ?_⟩
  · rw [hs, List.length_set, hreq]; exact h.counted
  · rw [hs, List.length_set] at hle
    rw [hans g (by omega)]
    exact h.unanswered g hle
  · rw [hreq] at hr
    rw [hs] at hg
    by_cases hgf : g = f
    · subst hgf
      rw [List.getElem?_set_self hlt] at hg
      cases hg
      exact hphase req (h.after g _ req hf hr)
    · rw [List.getElem?_set_ne (Ne.symm hgf)] at hg
      rw [hans g hgf]
      exact h.after g fut req hg hr

theorem refines_call {i : Nat} (h : Refines retry events s)
    (hs : s'.futures = s.futures ++ [⟨inner, .created req⟩]) :
    Refines retry (events ++ [.call i req]) s' := by
  have hreq : requests (events ++ [.call i req]) = requests events ++ [req] := by
    rw [requests, List.filterMap_append, requests]; rfl
  have hans : ∀ f, answers f (events ++ [.call i req]) = answers f events := fun f => by simp [answers]
  refine ⟨?_, fun f hle => ?_, fun f fut req' hf hr => ?_⟩
  · rw [hs, hreq, List.length_append, List.length_append, h.counted]; rfl
  · rw [hs, List.length_append, List.length_singleton] at hle
    rw [hans]
    exact h.unanswered f (by omega)
  · rw [hs] at hf
    rw [hreq] at hr
    rw [hans]
    rcases Nat.lt_trichotomy f s.futures.length with hlt | rfl | hgt
    · rw [List.getElem?_append_left hlt] at hf
      rw [List.getElem?_append_left (h.counted ▸ hlt)] at hr
      exact h.after f fut req' hf hr
    · rw [List.getElem?_concat_length] at hf
      rw [h.counted, List.getElem?_concat_length] at hr
      cases hf
      cases hr
      exact ⟨rfl, h.unanswered _ (Nat.le_refl _)⟩
    · rw [List.getElem?_eq_none (by rw [List.length_append, List.length_singleton]; omega)] at hf
      cases hf

theorem answers_respond_ne {g : Nat} (h : g ≠ f) :
    answers g (events ++ [.respond f res]) = answers g events := by
  rw [answers, List.filterMap_append, answers]
  simp [Ne.symm h]

theorem answers_respond_self : answers f (events ++ [.respond f res]) = answers f events ++ [res] := by
  rw [answers, List.filterMap_append, answers]
  simp

theorem refines_respond (h : Refines retry events s) (hf : s.futures[f]? = some ⟨inner, phase⟩)
    (hs : s'.futures = s.futures.set f ⟨inner, phase'⟩)
    (hphase : ∀ req as, phase.After retry req as → phase'.After retry req (as ++ [res])) :
    Refines retry (events ++ [.respond f res]) s' := by
  refine refines_of_set h hf hs (by simp [requests]) (fun g hg => answers_respond_ne hg) fun req ha => ?_
  rw [answers_respond_self]
  exact hphase req _ ha

theorem start_spec (retry : Retry) (s : RetryRun) (f : Nat) (inner : InstanceId) (req : Request) :
    ∃ phase, (s.start retry f inner req).futures = s.futures.set f ⟨inner, phase⟩ ∧
      phase.After retry req [] := by
  unfold start
  by_cases h1 : retry.attempts = 1
  · rw [if_pos h1]
    refine ⟨.once, rfl, rfl, req, fun inner => ?_⟩
    rw [Retry.call, if_pos h1]
  · rw [if_neg h1]
    cases hb : bufferBody req.body retry.maxBufferBytes with
    | error e =>
      refine ⟨_, rfl, ⟨[], .withStatus .badRequest (.fromStr "Failed to read request body")⟩, ?_, rfl, rfl⟩
      rw [Retry.call, if_neg h1, hb]
    | ok buffered =>
      cases buffered with
      | complete bytes =>
        refine ⟨_, rfl, fun inner => ?_, rfl, by simp, .inl rfl⟩
        rw [Retry.call, if_neg h1, hb]
      | tooLarge body =>
        refine ⟨_, rfl, rfl, { req with body }, fun inner => ?_⟩
        rw [Retry.call, if_neg h1, hb]

theorem after_last {as : List Response} {n : Nat}
    (h : (RetryFuture.Phase.attempt req' n).After retry req as)
    (hstop : isRetryable res = false ∨ n ≥ retry.attempts) :
    (RetryFuture.Phase.returned res).After retry req (as ++ [res]) := by
  obtain ⟨hcall, rfl, hall, hlt⟩ := h
  refine ⟨_, (hcall _).trans (Retry.loop_tape [] as hall ?_ ?_), rfl, ?_⟩
  · simpa using hlt
  · simpa using hstop
  · rw [List.map_map]
    exact List.map_id _

theorem after_retryable {as : List Response} {n : Nat}
    (h : (RetryFuture.Phase.attempt req' n).After retry req as)
    (hgo : ¬ (isRetryable res = false ∨ n ≥ retry.attempts)) :
    (RetryFuture.Phase.delay req' n).After retry req (as ++ [res]) := by
  obtain ⟨hcall, rfl, hall, hlt⟩ := h
  rw [not_or, Bool.not_eq_false] at hgo
  refine ⟨hcall, by simp, fun a ha => ?_, ?_⟩
  · rcases List.mem_append.1 ha with ha | ha
    · exact hall a ha
    · rw [List.mem_singleton.1 ha]; exact hgo.1
  · rw [List.length_append, List.length_singleton]
    exact ⟨by omega, by simp⟩

theorem after_once {as : List Response} (h : RetryFuture.Phase.once.After retry req as) :
    (RetryFuture.Phase.returned res).After retry req (as ++ [res]) := by
  obtain ⟨rfl, req', hcall⟩ := h
  exact ⟨_, (hcall _).trans rfl, rfl, rfl⟩

theorem refines_step (h : Refines retry events s) (hs : s.step retry e = some s') :
    Refines retry (events ++ [e]) s' := by
  cases e with
  | pollReady i ready =>
    obtain ⟨svc, -, rfl⟩ := Option.map_eq_some_iff.1 hs
    exact refines_of_futures_eq h rfl (by simp [requests]) (by simp [answers])
  | clone i =>
    obtain ⟨svc, -, rfl⟩ := Option.map_eq_some_iff.1 hs
    exact refines_of_futures_eq h rfl (by simp [requests]) (by simp [answers])
  | call i req =>
    obtain ⟨svc, -, hs⟩ := Option.bind_eq_some_iff.1 hs
    split at hs
    · cases hs
      exact refines_call h rfl
    · cases hs
  | start f =>
    simp only [step] at hs
    split at hs
    · next inner req hf =>
      cases hs
      obtain ⟨phase, hset, hafter⟩ := start_spec retry s f inner req
      refine refines_of_set h hf hset (by simp [requests]) (by simp [answers]) ?_
      rintro req' ⟨rfl, has⟩
      rw [answers, List.filterMap_append, ← answers, has]
      exact hafter
    · cases hs
  | respond f res =>
    simp only [step] at hs
    split at hs
    · next inner hf =>
      cases hs
      exact refines_respond h hf rfl fun req as ha => after_once ha
    · next inner req' n hf =>
      split at hs
      · next hstop =>
        cases hs
        exact refines_respond h hf rfl fun req as ha => after_last ha hstop
      · next hgo =>
        cases hs
        exact refines_respond h hf rfl fun req as ha => after_retryable ha hgo
    · cases hs
  | wake f =>
    simp only [step] at hs
    split at hs
    · next inner req' n hf =>
      cases hs
      refine refines_of_set h hf rfl (by simp [requests]) (by simp [answers]) ?_
      rintro req ⟨hcall, rfl, hall, hlt, -⟩
      rw [answers, List.filterMap_append, ← answers, List.filterMap_cons_none rfl, List.filterMap_nil,
        List.append_nil]
      exact ⟨hcall, rfl, hall, .inr hlt⟩
    · cases hs
  | drop f =>
    obtain ⟨⟨inner, phase⟩, hf, rfl⟩ := Option.map_eq_some_iff.1 hs
    exact refines_of_set h hf rfl (by simp [requests]) (by simp [answers]) fun _ _ => trivial

theorem refines_run (h : Run.run (step retry) new events = some s) : Refines retry events s :=
  Run.run_invariant (Refines retry) refines_new refines_step h

theorem Refines.request {fut : RetryFuture} (h : Refines retry events s) (hf : s.futures[f]? = some fut) :
    ∃ req, (requests events)[f]? = some req ∧ fut.phase.After retry req (answers f events) := by
  have hlt : f < (requests events).length := by
    rw [← h.counted]
    exact (List.getElem?_eq_some_iff.1 hf).1
  exact ⟨_, List.getElem?_eq_getElem hlt, h.after f fut _ hf (List.getElem?_eq_getElem hlt)⟩

/-- A future that returns gives what `call` returns over a service with its answers, all of them used. -/
theorem returned_eq_call (h : Run.run (step retry) new events = some s)
    (hf : s.futures[f]? = some ⟨inner, .returned res⟩) :
    ∃ req r, (requests events)[f]? = some req ∧ retry.call (tape (answers f events)) req = some r ∧
      r.res = res ∧ r.calls.map (·.res) = answers f events := by
  obtain ⟨req, hreq, r, hcall, hres, hall⟩ := (refines_run h).request hf
  exact ⟨req, r, hreq, hcall, hres, hall⟩

/-- A future gets past a delay only when an attempt could not connect and another one is allowed. -/
theorem replay_of_connect_failure (h : Run.run (step retry) new events = some s) (hw : .wake f ∈ events) :
    1 < retry.attempts ∧ ∃ res, .respond f res ∈ events ∧ isRetryable res = true := by
  obtain ⟨pre, post, rfl⟩ := List.append_of_mem hw
  rw [Run.run_append, Option.bind_eq_some_iff] at h
  obtain ⟨u, hu, h⟩ := h
  rw [Run.run_cons, Option.bind_eq_some_iff] at h
  obtain ⟨v, hv, -⟩ := h
  simp only [step] at hv
  split at hv
  · next inner req' n hf =>
    obtain ⟨req, -, -, -, hall, hlt, hne⟩ := (refines_run hu).request hf
    obtain ⟨res, as, has⟩ := List.exists_cons_of_ne_nil hne
    have hmem : res ∈ answers f pre := has ▸ List.mem_cons_self ..
    have hpos := List.length_pos_of_mem hmem
    refine ⟨by omega, res, List.mem_append_left _ ?_, hall res hmem⟩
    obtain ⟨e, he, hres⟩ := List.mem_filterMap.1 hmem
    cases e with
    | respond g r =>
      simp only [Option.ite_none_right_eq_some, Option.some.injEq] at hres
      obtain ⟨rfl, rfl⟩ := hres
      exact he
    | _ => cases hres
  · cases hv

end RetryRun

end AxumReverseProxy
