import AxumReverseProxy.Http.Message

/-!
# `RetryLayer`

The inner service is a function of the number of the call and the request, so that it may answer the
same request differently each time; `none` is a panic. A run keeps the calls it made, in order.
-/

namespace AxumReverseProxy

structure Call where
  req : Request
  res : Response

/-- The calls made for one request, and the response returned. -/
structure Retried where
  calls : List Call
  res : Response

abbrev InnerService := Nat → Request → Option Response

structure RetryLayer where
  attempts : Nat
  delay : Duration
  maxBufferBytes : Nat

/-- `Retry<S>`; its service is passed to `call`. -/
structure Retry where
  attempts : Nat
  delay : Duration
  maxBufferBytes : Nat

namespace RetryLayer

def DEFAULT_MAX_BUFFER_BYTES : Nat := 2 * 1024 * 1024

def withDelay (attempts : Nat) (delay : Duration) : RetryLayer :=
  ⟨max attempts 1, delay, DEFAULT_MAX_BUFFER_BYTES⟩

def new (attempts : Nat) : RetryLayer := withDelay attempts ⟨500 * 1000000⟩

def withMaxBufferBytes (layer : RetryLayer) (maxBufferBytes : Nat) : RetryLayer :=
  { layer with maxBufferBytes }

def layer (l : RetryLayer) : Retry := ⟨l.attempts, l.delay, l.maxBufferBytes⟩

end RetryLayer

/-- Whether a response reports that the upstream could not be connected to. -/
def isRetryable (res : Response) : Bool := (res.extensions.proxyError.map (·.isConnect)).getD false

inductive BufferedRequestBody
  | complete (bytes : List UInt8)
  | tooLarge (body : Body)

def dataFrames (frames : List Frame) : List Frame :=
  frames.filter fun
    | .data _ => true
    | .trailers _ => false

/-- The loop of `buffer_body` with the bytes read so far. -/
def bufferFrames (max : Nat) (buf : List UInt8) : List Frame → BodyEnd → Except Str BufferedRequestBody
  | [], .eof => .ok (.complete buf)
  | [], .error e => .error e
  | .data data :: rest, ending =>
    if buf.length + data.length > max then
      .ok (.tooLarge ⟨.data buf :: .data data :: dataFrames rest, ending, false⟩)
    else bufferFrames max (buf ++ data) rest ending
  | .trailers _ :: rest, ending => bufferFrames max buf rest ending

def bufferBody (body : Body) (max : Nat) : Except Str BufferedRequestBody :=
  bufferFrames max [] body.frames body.ending

namespace Retry

/-- The loop of `call`, with the number of attempts made so far. -/
def loop (inner : InnerService) (req : Request) (attempts attempt : Nat) : Option Retried :=
  match inner attempt req with
  | none => none
  | some res =>
    if h : isRetryable res = false ∨ attempt + 1 ≥ attempts then some ⟨[⟨req, res⟩], res⟩
    else (loop inner req attempts (attempt + 1)).map fun r => ⟨⟨req, res⟩ :: r.calls, r.res⟩
termination_by attempts - attempt

def once (inner : InnerService) (req : Request) : Option Retried :=
  (inner 0 req).map fun res => ⟨[⟨req, res⟩], res⟩

def call (retry : Retry) (inner : InnerService) (req : Request) : Option Retried :=
  if retry.attempts = 1 then once inner req
  else match bufferBody req.body retry.maxBufferBytes with
    | .ok (.complete bytes) => loop inner { req with body := .fromBytes bytes } retry.attempts 0
    | .ok (.tooLarge body) => once inner { req with body }
    | .error _ => some ⟨[], .withStatus .badRequest (.fromStr "Failed to read request body")⟩

end Retry

/-! ### Buffering -/

variable {cap : Nat} {buf bytes : List UInt8} {frames : List Frame} {ending : BodyEnd} {body : Body}

theorem bufferFrames_complete (h : bufferFrames cap buf frames ending = .ok (.complete bytes)) :
    bytes = buf ++ frames.flatMap Frame.bytes ∧ ending = .eof := by
  induction frames generalizing buf with
  | nil =>
    cases ending with
    | eof => cases h; simp
    | error e => cases h
  | cons f frames ih =>
    cases f with
    | data data =>
      rw [bufferFrames] at h
      split at h
      · cases h
      · obtain ⟨rfl, he⟩ := ih h
        exact ⟨by simp [Frame.bytes], he⟩
    | trailers t =>
      obtain ⟨rfl, he⟩ := ih h
      exact ⟨by simp [Frame.bytes], he⟩

theorem bufferBody_complete (h : bufferBody body cap = .ok (.complete bytes)) :
    bytes = body.data ∧ body.ending = .eof :=
  bufferFrames_complete h

/-! ### The loop -/

variable {inner : InnerService} {req : Request} {attempts attempt : Nat} {r : Retried}

/-- The calls of a run that has made `attempt` calls before. -/
structure Retried.Follows (r : Retried) (inner : InnerService) (req : Request) (attempt : Nat) : Prop where
  answered : ∀ k c, r.calls[k]? = some c → c.req = req ∧ inner (attempt + k) req = some c.res
  retried : ∀ k c, r.calls[k]? = some c → k + 1 < r.calls.length → isRetryable c.res = true
  last : r.calls.getLast?.map (·.res) = some r.res

theorem Retried.Follows.single {res : Response} (h : inner attempt req = some res) :
    Retried.Follows ⟨[⟨req, res⟩], res⟩ inner req attempt := by
  refine ⟨fun k c hc => ?_, fun k c hc hk => ?_, rfl⟩
  · cases k with
    | zero => cases hc; exact ⟨rfl, h⟩
    | succ k => cases hc
  · simp only [List.length_singleton] at hk; omega

theorem Retried.Follows.cons {res : Response} (h : inner attempt req = some res)
    (hres : isRetryable res = true) (hr : r.Follows inner req (attempt + 1)) :
    Retried.Follows ⟨⟨req, res⟩ :: r.calls, r.res⟩ inner req attempt := by
  refine ⟨fun k c hc => ?_, fun k c hc hk => ?_, ?_⟩
  · cases k with
    | zero => cases hc; exact ⟨rfl, h⟩
    | succ k =>
      have := hr.answered k c (by simpa using hc)
      rwa [show attempt + (k + 1) = attempt + 1 + k by omega]
  · cases k with
    | zero => cases hc; exact hres
    | succ k =>
      simp only [List.length_cons] at hk
      exact hr.retried k c (by simpa using hc) (by omega)
  · have hne : r.calls ≠ [] := by
      intro hne
      have := hr.last
      rw [hne] at this; cases this
    obtain ⟨c, cs, hcs⟩ := List.exists_cons_of_ne_nil hne
    have := hr.last
    rw [hcs] at this
    show ((⟨req, res⟩ :: r.calls : List Call).getLast?).map _ = _
    rw [hcs, List.getLast?_cons_cons]; exact this

theorem Retry.loop_spec (h : loop inner req attempts attempt = some r) :
    r.Follows inner req attempt ∧ 1 ≤ r.calls.length ∧
      attempt + r.calls.length ≤ max attempts (attempt + 1) := by
  fun_induction loop inner req attempts attempt generalizing r with
  | case1 => cases h
  | case2 attempt res hi hstop =>
    cases h
    refine ⟨.single hi, by simp, ?_⟩
    simp only [List.length_singleton]
    omega
  | case3 attempt res hi hgo ih =>
    obtain ⟨r', hr', rfl⟩ := Option.map_eq_some_iff.1 h
    obtain ⟨hf, h1, h2⟩ := ih hr'
    rw [not_or, Bool.not_eq_false] at hgo
    refine ⟨hf.cons hi hgo.1, by simp, ?_⟩
    simp only [List.length_cons]
    omega

theorem Retry.loop_isSome (h : ∀ k req, (inner k req).isSome = true) :
    (loop inner req attempts attempt).isSome = true := by
  fun_induction loop inner req attempts attempt with
  | case1 attempt hi => simpa [hi] using h attempt req
  | case2 => rfl
  | case3 attempt res hi hgo ih => simpa using ih

end AxumReverseProxy
