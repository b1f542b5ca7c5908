import AxumReverseProxy.Lib.Run
import AxumReverseProxy.Rfc9110.Steps

/-!
# `Max-Forwards` along a chain

A TRACE or OPTIONS request with a number it may still be passed on (`maxForwardsOf`), on its way through
services of any configuration. A service counts the number down, if it fits 32 bits (`counted_passOn`). A
larger one it leaves alone, and a number that `Connection` names it removes; then nothing stops the
request any more (`exists_run_of_uncounted`).
-/

namespace AxumReverseProxy.Rfc9110

open HeaderName
open Run (run run_cons run_invariant exists_run)

/-- The request a service passes on when it looks for no loop. -/
def passOn (request : Request) (config : Config) : Option Request :=
  (processMaxForwards request).toOption.map fun request =>
    (addViaHeader (processConnectionHeader request (preserves config request)) config).2

/-- The number in the first `Max-Forwards` line, of any length. -/
def maxForwardsOf (request : Request) : Option Nat :=
  ((request.headers.get maxForwards).bind HeaderValue.toStr).bind Str.decimalValue

/-- The methods for which the number counts. -/
def Counts (method : Method) : Prop := method = .trace ∨ method = .options

instance (method : Method) : Decidable (Counts method) := inferInstanceAs (Decidable (_ ∨ _))

/-- Wherever the request gets, a service that passes it on passes on a smaller number, and it is passed on
at most `v` times. -/
structure CountsDown (request : Request) (v : Nat) : Prop where
  decreases : ∀ path reached config next, run passOn request path = some reached →
    passOn reached config = some next →
    ∃ w w', maxForwardsOf reached = some w ∧ maxForwardsOf next = some w' ∧ w' < w
  bounded : ∀ path reached, run passOn request path = some reached → path.length ≤ v

variable {request request' next reached : Request} {config : Config} {v : Nat} {n : HeaderName} {b : Bool}
  {path : List Config}

theorem step_eq_passOn (h : detectLoop request config = none) :
    step request config = passOn request config := by
  rw [step, passOn, receive, h]
  cases hm : processMaxForwards request with
  | error response => rfl
  | ok r => rfl

/-- Looking for loops only ever stops a request. -/
theorem passOn_of_step (h : step request config = some next) : passOn request config = some next := by
  rw [← step_eq_passOn (step_eq_some h).1, h]

theorem run_passOn_of_run_step (h : run step request path = some reached) :
    run passOn request path = some reached := by
  induction path generalizing request with
  | nil => exact h
  | cons c path ih =>
    rw [run_cons, Option.bind_eq_some_iff] at h ⊢
    obtain ⟨r, hr, h⟩ := h
    exact ⟨r, passOn_of_step hr, ih h⟩

/-! ### Reading the number -/

theorem maxForwardsOf_congr (h : request.headers.getAll maxForwards = request'.headers.getAll maxForwards) :
    maxForwardsOf request = maxForwardsOf request' := by
  rw [maxForwardsOf, maxForwardsOf, MultiMap.get_congr h]

theorem parsed_eq (request : Request) :
    ((request.headers.get maxForwards).bind HeaderValue.toStr).bind Str.parseU32 =
    (maxForwardsOf request).filter (· < UInt32.size) := by
  unfold maxForwardsOf Str.parseU32
  cases (request.headers.get maxForwards).bind HeaderValue.toStr <;> rfl

/-- The request with its number set. -/
def withMaxForwards (request : Request) (v : Nat) : Request :=
  { request with
    headers := request.headers.insert maxForwards (.ofVisible (Nat.toDigits 10 v) (toDigits_visible v)) }

theorem maxForwardsOf_withMaxForwards (request : Request) (v : Nat) :
    maxForwardsOf (withMaxForwards request v) = some v := by
  have hget : (withMaxForwards request v).headers.get maxForwards =
      some (.ofVisible (Nat.toDigits 10 v) (toDigits_visible v)) := by
    rw [withMaxForwards, MultiMap.get, MultiMap.getAll_insert_self]
    rfl
  rw [maxForwardsOf, hget, Option.bind_some, HeaderValue.toStr_ofVisible, Option.bind_some,
    Str.decimalValue_toDigits]

theorem namedFirst_withMaxForwards : NamedFirst (withMaxForwards request v).headers n ↔
    NamedFirst request.headers n :=
  namedFirst_congr (MultiMap.getAll_insert_ne (by decide))

theorem processMaxForwards_of_none (h : (maxForwardsOf request).filter (· < UInt32.size) = none) :
    processMaxForwards request = .ok request := by
  rw [← parsed_eq] at h
  unfold processMaxForwards
  split
  · rfl
  · next value hv =>
    rw [hv, Option.bind_some] at h
    rw [h]
    exact ite_self _

theorem processMaxForwards_of_some (hm : Counts request.method) (hv : maxForwardsOf request = some v)
    (hlt : v < UInt32.size) : match v with
      | 0 => ∃ response, processMaxForwards request = .error response
      | v + 1 => processMaxForwards request = .ok (withMaxForwards request v) := by
  have hparsed := parsed_eq request
  rw [hv, Option.filter_some, if_pos (by simpa using hlt)] at hparsed
  have hmethod : ¬ (request.method ≠ .trace ∧ request.method ≠ .options) := fun h => hm.elim h.1 h.2
  unfold processMaxForwards
  cases hget : request.headers.get maxForwards with
  | none => rw [hget] at hparsed; cases hparsed
  | some value =>
    rw [hget, Option.bind_some] at hparsed
    simp only [if_neg hmethod, hparsed]
    cases v with
    | zero =>
      by_cases htrace : request.method = .trace
      · exact ⟨_, if_pos htrace⟩
      · exact ⟨_, if_neg htrace⟩
    | succ v => rfl

/-! ### What the rest of a service leaves -/

theorem maxForwards_mem_headersToRemove {headers : HeaderMap} :
    maxForwards ∈ headersToRemove headers b ↔ NamedFirst headers maxForwards := by
  have hex : ¬ Exempt b maxForwards := by cases b <;> decide
  rw [mem_headersToRemove, and_iff_left hex]
  exact or_iff_right (by decide)

theorem method_addViaHeader : (addViaHeader request config).2.method = request.method := by
  rw [addViaHeader_eq, setVia]
  split <;> rfl

theorem maxForwardsOf_removed (request : Request) (config : Config) (b : Bool) :
    maxForwardsOf (addViaHeader (processConnectionHeader request b) config).2 =
      if NamedFirst request.headers maxForwards then none else maxForwardsOf request := by
  have hget : (addViaHeader (processConnectionHeader request b) config).2.headers.getAll maxForwards =
      if NamedFirst request.headers maxForwards then [] else request.headers.getAll maxForwards := by
    rw [getAll_addViaHeader_ne (by decide), processConnectionHeader, getAll_removeHeaders]
    exact if_congr maxForwards_mem_headersToRemove rfl rfl
  split at hget
  · next h => rw [if_pos h, maxForwardsOf, MultiMap.get_eq_none_iff.2 hget]; rfl
  · next h => rw [if_neg h, maxForwardsOf_congr hget]

/-- The `Connection` lines are removed, or kept as they are. -/
theorem namedFirst_of_removed
    (h : NamedFirst (addViaHeader (processConnectionHeader request b) config).2.headers n) :
    NamedFirst request.headers n := by
  have hget : (addViaHeader (processConnectionHeader request b) config).2.headers.getAll connection =
      if connection ∈ headersToRemove request.headers b then [] else request.headers.getAll connection := by
    rw [getAll_addViaHeader_ne (by decide), processConnectionHeader, getAll_removeHeaders]
  split at hget
  · obtain ⟨s, hs, -⟩ := h
    rw [MultiMap.get_eq_none_iff.2 hget] at hs
    cases hs
  · exact (namedFirst_congr hget).1 h

/-! ### Counting down -/

/-- The number fits 32 bits and is not removed before it is zero. -/
structure Counted (request : Request) (v : Nat) : Prop where
  counts : Counts request.method
  eq : maxForwardsOf request = some v
  lt : v < UInt32.size
  named : NamedFirst request.headers maxForwards → v = 0

/-- There is no number that a service would count down. -/
def Uncounted (request : Request) : Prop := ∀ v ∈ maxForwardsOf request, UInt32.size ≤ v

theorem exists_passOn_of_counted (h : Counted request (v + 1)) (config : Config) :
    ∃ next, passOn request config = some next ∧ Counted next v := by
  have hprocess := processMaxForwards_of_some h.counts h.eq h.lt
  have hnot : ¬ NamedFirst (withMaxForwards request v).headers maxForwards := fun hn => by
    cases h.named (namedFirst_withMaxForwards.1 hn)
  refine ⟨_, by rw [passOn, hprocess]; rfl, ?_, ?_, Nat.lt_of_succ_lt h.lt,
    fun hn => absurd (namedFirst_of_removed hn) hnot⟩
  · rw [method_addViaHeader]
    exact h.counts
  · rw [maxForwardsOf_removed, if_neg hnot, maxForwardsOf_withMaxForwards]

theorem counted_passOn (h : Counted request v) (hs : passOn request config = some next) :
    ∃ w < v, Counted next w := by
  cases v with
  | zero =>
    obtain ⟨response, hr⟩ := processMaxForwards_of_some h.counts h.eq h.lt
    rw [passOn, hr] at hs
    cases hs
  | succ w =>
    obtain ⟨next', hs', hw⟩ := exists_passOn_of_counted h config
    rw [hs'] at hs
    cases hs
    exact ⟨w, Nat.lt_succ_self w, hw⟩

theorem uncounted_passOn (h : Uncounted request) (config : Config) :
    ∃ next, passOn request config = some next ∧ Uncounted next := by
  have hnone : (maxForwardsOf request).filter (· < UInt32.size) = none := by
    rw [Option.filter_eq_none_iff]
    intro v hv
    simpa using h v hv
  refine ⟨_, by rw [passOn, processMaxForwards_of_none hnone]; rfl, fun v hv => ?_⟩
  rw [maxForwardsOf_removed] at hv
  split at hv
  · cases hv
  · exact h v hv

/-- A number that is not zero is counted down and then removed, if the first `Connection` line names it. -/
theorem uncounted_of_named (hm : Counts request.method) (hv : maxForwardsOf request = some (v + 1))
    (hlt : v + 1 < UInt32.size) (hnamed : NamedFirst request.headers maxForwards) (config : Config) :
    ∃ next, passOn request config = some next ∧ Uncounted next := by
  refine ⟨_, by rw [passOn, processMaxForwards_of_some hm hv hlt]; rfl, fun w hw => ?_⟩
  rw [maxForwardsOf_removed, if_pos (namedFirst_withMaxForwards.2 hnamed)] at hw
  cases hw

/-- Nothing stops a request without a number. -/
theorem exists_run_of_uncounted (h : Uncounted request) (k : Nat) :
    ∃ path reached, run passOn request path = some reached ∧ path.length = k := by
  obtain ⟨reached, hrun, -⟩ := exists_run Uncounted h
    (fun config hu => uncounted_passOn hu config) (List.replicate k {})
  exact ⟨_, reached, hrun, List.length_replicate⟩

/-- The number a request has left and the services it has passed. -/
theorem counted_run (h : Counted request v) (hrun : run passOn request path = some reached) :
    ∃ w, Counted reached w ∧ path.length + w ≤ v := by
  refine run_invariant (fun path reached => ∃ w, Counted reached w ∧ path.length + w ≤ v)
    ⟨v, h, by simp⟩ ?_ hrun
  rintro path reached config next ⟨w, hw, hle⟩ hs
  obtain ⟨w', hlt, hw'⟩ := counted_passOn hw hs
  refine ⟨w', hw', ?_⟩
  rw [List.length_append, List.length_singleton]
  omega

theorem countsDown_of_counted (h : Counted request v) : CountsDown request v := by
  refine ⟨fun path reached config next hrun hs => ?_, fun path reached hrun => ?_⟩
  · obtain ⟨w, hw, -⟩ := counted_run h hrun
    obtain ⟨w', hlt, hw'⟩ := counted_passOn hw hs
    exact ⟨w, w', hw.eq, hw'.eq, hlt⟩
  · obtain ⟨w, -, hle⟩ := counted_run h hrun
    omega

/-- The bound for the services themselves, which look for loops too. -/
theorem length_le_of_run_step (h : Counted request v) (hrun : run step request path = some reached) :
    path.length ≤ v :=
  (countsDown_of_counted h).bounded path reached (run_passOn_of_run_step hrun)

/-- `Max-Forwards` bounds every chain exactly when its number fits 32 bits and the first `Connection`
line does not have it removed, which it never does at zero. -/
theorem max_forwards_bounds_iff (hm : Counts request.method) (hv : maxForwardsOf request = some v) :
    CountsDown request v ↔ v < UInt32.size ∧ (NamedFirst request.headers maxForwards → v = 0) := by
  constructor
  · intro h
    have hlt : v < UInt32.size := by
      by_contra hge
      have hun : Uncounted request := fun w hw => by
        rw [hv] at hw
        cases hw
        omega
      obtain ⟨path, reached, hrun, hlen⟩ := exists_run_of_uncounted hun (v + 1)
      have := h.bounded path reached hrun
      omega
    refine ⟨hlt, fun hnamed => ?_⟩
    cases v with
    | zero => rfl
    | succ w =>
      obtain ⟨next, hnext, hun⟩ := uncounted_of_named hm hv hlt hnamed {}
      obtain ⟨path, reached, hrun, hlen⟩ := exists_run_of_uncounted hun (w + 1)
      have := h.bounded ({} :: path) reached (by rw [run_cons, hnext, Option.bind_some, hrun])
      rw [List.length_cons] at this
      omega
  · rintro ⟨hlt, hnamed⟩
    exact countsDown_of_counted ⟨hm, hv, hlt, hnamed⟩

/-- An OPTIONS request that may be passed on three times. -/
theorem max_forwards_bounds_iff_three :
    let request := { Request.new (.fromBytes []) with
      method := .options, headers := ⟨[(maxForwards, .fromStatic "3"), (connection, .fromStatic "close")]⟩ }
    CountsDown request 3 := by
  intro request
  exact (max_forwards_bounds_iff (.inr rfl) (by decide)).2 ⟨by decide, by decide⟩

/-- A number of 33 bits is passed on as it is. -/
theorem max_forwards_not_counted :
    let request := { Request.new (.fromBytes []) with
      method := .options, headers := ⟨[(maxForwards, .fromStatic "4294967296")]⟩ }
    maxForwardsOf request = some 4294967296 ∧ ¬ CountsDown request 4294967296 ∧
      ∃ next, passOn request {} = some next ∧ maxForwardsOf next = some 4294967296 := by
  intro request
  obtain ⟨next, hnext, hsame⟩ : ∃ next, passOn request {} = some next ∧
    maxForwardsOf next = some 4294967296 :=
    ⟨_, rfl, by decide⟩
  refine ⟨by decide, fun h => ?_, next, hnext, hsame⟩
  obtain ⟨w, w', hw, hw', hlt⟩ := h.decreases [] request {} next rfl hnext
  have hread : maxForwardsOf request = some 4294967296 := by decide
  rw [hread] at hw
  rw [hsame] at hw'
  cases hw
  cases hw'
  exact absurd hlt (lt_irrefl _)

end AxumReverseProxy.Rfc9110
