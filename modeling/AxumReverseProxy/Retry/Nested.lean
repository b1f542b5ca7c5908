import AxumReverseProxy.Retry.Buffer
import Mathlib.Algebra.Order.Ring.Nat

/-!
# Layers over layers

`Retry` is generic in its service, which may itself be a `Retry`. A service is now given with the
calls that reach the innermost one, and `Retry.around` is the same code over such a service. The
attempts of layers with one cap multiply (`retries_multiply`).
-/

namespace AxumReverseProxy

/-- A service with the calls it makes of the innermost one when so many were made before. -/
abbrev LayeredService := Nat → Request → Option Retried

def InnerService.lift (inner : InnerService) : LayeredService := fun first req =>
  (inner first req).map fun res => ⟨[⟨req, res⟩], res⟩

/-- More calls, of which the last gave the response. -/
def Retried.before (calls : List Call) (r : Retried) : Retried := ⟨calls ++ r.calls, r.res⟩

namespace Retry

/-- The loop of `call`, with the number of attempts made so far. -/
def loopOver (service : LayeredService) (req : Request) (attempts attempt first : Nat) : Option Retried :=
  match service first req with
  | none => none
  | some r =>
    if isRetryable r.res = false ∨ attempt + 1 ≥ attempts then some r
    else (loopOver service req attempts (attempt + 1) (first + r.calls.length)).map (·.before r.calls)
termination_by attempts - attempt

def around (retry : Retry) (service : LayeredService) : LayeredService := fun first req =>
  if retry.attempts = 1 then service first req
  else match bufferBody req.body retry.maxBufferBytes with
    | .ok (.complete bytes) => loopOver service { req with body := .fromBytes bytes } retry.attempts 0 first
    | .ok (.tooLarge body) => service first { req with body }
    | .error _ => some ⟨[], .withStatus .badRequest (.fromStr "Failed to read request body")⟩

variable {inner : InnerService} {service : LayeredService} {req : Request}
  {attempts attempt first a b k : Nat}

theorem loopOver_eq : loopOver service req attempts attempt first =
    (service first req).bind fun r =>
      if isRetryable r.res = false ∨ attempt + 1 ≥ attempts then some r
      else (loopOver service req attempts (attempt + 1) (first + r.calls.length)).map
        (·.before r.calls) := by
  rw [loopOver]
  cases service first req <;> rfl

theorem loopOver_congr {service' : LayeredService} (h : ∀ first, service first req = service' first req) :
    loopOver service req attempts attempt first = loopOver service' req attempts attempt first := by
  fun_induction loopOver service req attempts attempt first with
  | case1 attempt first hs => rw [loopOver_eq, ← h, hs]; rfl
  | case2 attempt first r hs hstop => rw [loopOver_eq, ← h, hs, Option.bind_some, if_pos hstop]
  | case3 attempt first r hs hgo ih =>
    symm
    rw [loopOver_eq, ← h, hs, Option.bind_some, if_neg hgo, ih]

theorem loopOver_lift : loopOver inner.lift req attempts attempt attempt =
    loop inner req attempts attempt := by
  fun_induction loop inner req attempts attempt with
  | case1 attempt hi => rw [loopOver_eq, InnerService.lift, hi]; rfl
  | case2 attempt res hi hstop =>
    rw [loopOver_eq, InnerService.lift, hi, Option.map_some, Option.bind_some, if_pos hstop]
  | case3 attempt res hi hgo ih =>
    rw [loopOver_eq, InnerService.lift, hi, Option.map_some, Option.bind_some, if_neg hgo]
    show Option.map _ (loopOver inner.lift req attempts (attempt + 1) (attempt + 1)) = _
    rw [ih]; rfl

/-- Over the innermost service it is `call`. -/
theorem around_lift (retry : Retry) : retry.around inner.lift 0 req = retry.call inner req := by
  by_cases h1 : retry.attempts = 1
  · rw [around, if_pos h1, call, if_pos h1]; rfl
  · rw [around, if_neg h1, call, if_neg h1]
    rcases bufferBody req.body retry.maxBufferBytes with e | (bytes | body)
    · rfl
    · exact loopOver_lift
    · rfl

/-! ### Rounds of attempts -/

/-- What an outer loop does with one round of the inner one. -/
def afterRound (service : LayeredService) (req : Request) (attempts attempt first : Nat) (r : Retried) :
    Option Retried :=
  if isRetryable r.res = false ∨ attempt ≥ attempts then some r
  else (loopOver service req attempts attempt (first + r.calls.length)).map (·.before r.calls)

theorem afterRound_before (calls : List Call) (r : Retried) :
    afterRound service req attempts attempt first (r.before calls) =
      (afterRound service req attempts attempt (first + calls.length) r).map (·.before calls) := by
  rw [afterRound, afterRound, show (r.before calls).res = r.res from rfl]
  split
  · rfl
  · rw [Option.map_map, Retried.before, List.length_append, Nat.add_assoc]
    refine congrArg (Option.map · _) (funext fun r' => ?_)
    simp [Retried.before]

/-- The attempts from `i` on that are left of a round of `b`, and what comes after the round. -/
theorem round {i j first : Nat} (hib : i < b) (hj : j + (b - i) = k) (hk : k ≤ attempts) :
    (loopOver service req b i first).bind (afterRound service req attempts k first) =
      loopOver service req attempts j first := by
  rw [loopOver_eq, @loopOver_eq service req attempts, Option.bind_assoc]
  cases hs : service first req with
  | none => rfl
  | some r =>
    rw [Option.bind_some, Option.bind_some]
    by_cases hr : isRetryable r.res = false
    · rw [if_pos (.inl hr), if_pos (.inl hr), Option.bind_some, afterRound, if_pos (.inl hr)]
    · by_cases hlast : i + 1 ≥ b
      · -- the round ends here
        obtain rfl : k = j + 1 := by omega
        rw [if_pos (.inr hlast), Option.bind_some, afterRound]
      · rw [if_neg (by rw [not_or]; exact ⟨hr, hlast⟩), if_neg (by rw [not_or]; exact ⟨hr, by omega⟩)]
        rw [← round (by omega : i + 1 < b) (by omega : j + 1 + (b - (i + 1)) = k) hk, Option.bind_map,
          Option.map_bind]
        exact congrArg _ (funext fun r' => afterRound_before ..)
termination_by b - i

/-- `a` rounds of `b` attempts, `i` of them made. -/
theorem loopOver_loopOver {i first : Nat} (hb : 0 < b) (hi : i < a) :
    loopOver (fun first req => loopOver service req b 0 first) req a i first =
      loopOver service req (a * b) (i * b) first := by
  have hk : i * b + (b - 0) = (i + 1) * b := by rw [Nat.sub_zero, Nat.succ_mul]
  rw [loopOver_eq, ← round hb hk (Nat.mul_le_mul_right b hi)]
  refine congrArg _ (funext fun r => ?_)
  rw [afterRound]
  by_cases hlast : i + 1 ≥ a
  · rw [if_pos (.inr hlast), if_pos (.inr (Nat.mul_le_mul_right b hlast))]
  · rw [loopOver_loopOver hb (Nat.not_le.1 hlast)]
    by_cases hr : isRetryable r.res = false
    · rw [if_pos (.inl hr), if_pos (.inl hr)]
    · have hgo : ¬ (i + 1) * b ≥ a * b := fun h => hlast (Nat.le_of_mul_le_mul_right h hb)
      rw [if_neg (by rw [not_or]; exact ⟨hr, hlast⟩), if_neg (by rw [not_or]; exact ⟨hr, hgo⟩)]
termination_by a - i

/-! ### Buffering what is buffered -/

theorem bufferBody_fromBytes {bytes : List UInt8} {cap : Nat} (h : bytes.length ≤ cap) :
    bufferBody (.fromBytes bytes) cap = .ok (.complete bytes) := by
  have hend : (Body.fromBytes bytes).ending = .eof := by unfold Body.fromBytes; split <;> rfl
  have hb := buffered (.fromBytes bytes) cap
  rw [Body.data_fromBytes, hend] at hb
  generalize bufferBody (.fromBytes bytes) cap = res at hb
  cases hb with
  | complete => rfl
  | tooLarge hlt => omega
  | failed _ he => cases he

theorem dataFrames_dataFrames (frames : List Frame) :
    dataFrames (dataFrames frames) = dataFrames frames := by
  rw [dataFrames, dataFrames, List.filter_filter]
  exact List.filter_congr fun f _ => Bool.and_self _

/-- What went over the cap goes over it again, at the same place. -/
theorem bufferFrames_tooLarge {cap : Nat} {buf : List UInt8} {frames : List Frame}
    {ending : BodyEnd} {body : Body}
    (hbuf : buf.length ≤ cap) (h : bufferFrames cap buf frames ending = .ok (.tooLarge body)) :
    bufferBody body cap = .ok (.tooLarge body) := by
  induction frames generalizing buf with
  | nil => cases ending <;> cases h
  | cons f frames ih =>
    cases f with
    | trailers t => exact ih hbuf h
    | data data =>
      rw [bufferFrames] at h
      split at h
      · next hcross =>
        cases h
        rw [bufferBody, bufferFrames, List.length_nil, Nat.zero_add, if_neg (Nat.not_lt.2 hbuf),
          List.nil_append, bufferFrames, if_pos hcross, dataFrames_dataFrames]
      · exact ih (by rw [List.length_append]; omega) h

/-- One layer over another with the same cap. -/
theorem around_around {outer inside both : Retry} (ha : 1 ≤ outer.attempts) (hb : 1 ≤ inside.attempts)
    (hboth : both.attempts = outer.attempts * inside.attempts)
    (hcap : inside.maxBufferBytes = outer.maxBufferBytes)
    (hcap' : both.maxBufferBytes = outer.maxBufferBytes) :
    outer.around (inside.around service) = both.around service := by
  funext first req
  by_cases h1 : outer.attempts = 1
  · rw [around, if_pos h1, around, around, hboth, h1, Nat.one_mul, hcap, hcap']
  · have hne : both.attempts ≠ 1 := by
      rw [hboth]
      exact fun h => h1 (Nat.eq_one_of_mul_eq_one_right h)
    rw [around, if_neg h1, around, if_neg hne, hcap']
    cases hbuf : bufferBody req.body outer.maxBufferBytes with
    | error e => rfl
    | ok res =>
      cases res with
      | complete bytes =>
        have hlen : bytes.length ≤ outer.maxBufferBytes := by
          have hb := buffered req.body outer.maxBufferBytes
          rw [hbuf] at hb
          cases hb with
          | complete hle => exact hle
        have hround : ∀ first, inside.around service first { req with body := .fromBytes bytes } =
            loopOver service { req with body := .fromBytes bytes } inside.attempts 0 first := by
          intro first
          by_cases hi : inside.attempts = 1
          · rw [around, if_pos hi, loopOver_eq, hi]
            cases service first { req with body := .fromBytes bytes } with
            | none => rfl
            | some r => exact (if_pos (.inr (Nat.le_refl 1))).symm
          · rw [around, if_neg hi, hcap, bufferBody_fromBytes hlen]
        show loopOver (inside.around service) { req with body := .fromBytes bytes } outer.attempts 0 first =
          loopOver service { req with body := .fromBytes bytes } both.attempts 0 first
        have hrounds :
            loopOver (inside.around service) { req with body := .fromBytes bytes } outer.attempts 0 first =
            loopOver (fun first req => loopOver service req inside.attempts 0 first)
              { req with body := .fromBytes bytes } outer.attempts 0 first := loopOver_congr hround
        rw [hrounds, loopOver_loopOver hb ha, hboth, Nat.zero_mul]
      | tooLarge body =>
        show inside.around service first { req with body } = service first { req with body }
        by_cases hi : inside.attempts = 1
        · rw [around, if_pos hi]
        · rw [around, if_neg hi, hcap, bufferFrames_tooLarge (Nat.zero_le _) hbuf]

end Retry

/-- The layers of a stack, the outermost first, each with its attempts and its delay. -/
def stacked (maxBufferBytes : Nat) (layers : List (Nat × Duration)) (service : LayeredService) :
    LayeredService :=
  layers.foldr (fun l service =>
    ((RetryLayer.withDelay l.1 l.2).withMaxBufferBytes maxBufferBytes).layer.around service) service

/-- Layers that buffer up to one cap make the calls of a single layer whose attempts are the product of
theirs, and return its response. -/
theorem retries_multiply (inner : InnerService) (maxBufferBytes : Nat) (layers : List (Nat × Duration))
    (delay : Duration) (req : Request) :
    stacked maxBufferBytes layers inner.lift 0 req =
      ((RetryLayer.withDelay (layers.map fun l => max l.1 1).prod delay).withMaxBufferBytes
        maxBufferBytes).layer.call
        inner req := by
  rw [← Retry.around_lift]
  refine congrFun (congrFun ?_ 0) req
  induction layers with
  | nil =>
    funext first req
    exact (if_pos rfl).symm
  | cons l layers ih =>
    have hpos : 1 ≤ (layers.map fun l => max l.1 1).prod := by
      refine List.prod_pos_iff_forall_pos_nat.2 fun n hn => ?_
      obtain ⟨l, -, rfl⟩ := List.mem_map.1 hn
      exact Nat.le_max_right ..
    show ((RetryLayer.withDelay l.1 l.2).withMaxBufferBytes maxBufferBytes).layer.around
      (stacked _ layers _) = _
    rw [ih]
    refine Retry.around_around (Nat.le_max_right ..) (Nat.le_max_right ..) ?_ rfl rfl
    show max ((layers.map _).cons (max l.1 1)).prod 1 = max l.1 1 * max (layers.map _).prod 1
    rw [List.prod_cons, Nat.max_eq_left hpos, Nat.max_eq_left (Nat.mul_pos (Nat.le_max_right ..) hpos)]

end AxumReverseProxy
