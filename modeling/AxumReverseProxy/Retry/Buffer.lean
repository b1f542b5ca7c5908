import AxumReverseProxy.Retry.Layer

/-!
# Replay buffering

What `buffer_body` returns is decided by the data of the body and its end (`Buffered`); how the data
is cut into chunks, and where trailers stand between them, does not matter.
-/

namespace AxumReverseProxy

/-- The outcome for a body with this data and end. -/
inductive Buffered (cap : Nat) (data : List UInt8) (ending : BodyEnd) :
    Except Str BufferedRequestBody → Prop
  | complete : data.length ≤ cap → ending = .eof → Buffered cap data ending (.ok (.complete data))
  | tooLarge {body : Body} : cap < data.length → body.data = data → body.ending = ending →
      Buffered cap data ending (.ok (.tooLarge body))
  | failed {e : Str} : data.length ≤ cap → ending = .error e → Buffered cap data ending (.error e)

/-- The loop of `buffer_body` with the contents of the buffer at each of its turns. -/
def bufferTurns (max : Nat) (buf : List UInt8) :
    List Frame → BodyEnd → List (List UInt8) × Except Str BufferedRequestBody
  | [], .eof => ([buf], .ok (.complete buf))
  | [], .error e => ([buf], .error e)
  | .data data :: rest, ending =>
    if buf.length + data.length > max then
      ([buf], .ok (.tooLarge ⟨.data buf :: .data data :: dataFrames rest, ending, false⟩))
    else
      let (held, res) := bufferTurns max (buf ++ data) rest ending
      (buf :: held, res)
  | .trailers _ :: rest, ending =>
    let (held, res) := bufferTurns max buf rest ending
    (buf :: held, res)

variable {cap : Nat} {buf : List UInt8} {frames : List Frame} {ending : BodyEnd}

theorem bufferTurns_snd : (bufferTurns cap buf frames ending).2 = bufferFrames cap buf frames ending := by
  induction frames generalizing buf with
  | nil => cases ending <;> rfl
  | cons f frames ih =>
    cases f with
    | data data =>
      rw [bufferTurns, bufferFrames]
      split
      · rfl
      · exact ih
    | trailers t => exact ih

/-- A chunk is buffered only where it fits. -/
theorem length_le_of_mem_bufferTurns (hbuf : buf.length ≤ cap) :
    ∀ held ∈ (bufferTurns cap buf frames ending).1, held.length ≤ cap := by
  induction frames generalizing buf with
  | nil => cases ending <;> exact List.forall_mem_singleton.2 hbuf
  | cons f frames ih =>
    cases f with
    | data data =>
      rw [bufferTurns]
      split
      · exact List.forall_mem_singleton.2 hbuf
      · next hfits => exact List.forall_mem_cons.2 ⟨hbuf, ih (by rw [List.length_append]; omega)⟩
    | trailers t => exact List.forall_mem_cons.2 ⟨hbuf, ih hbuf⟩

theorem flatMap_bytes_dataFrames (frames : List Frame) :
    (dataFrames frames).flatMap Frame.bytes = frames.flatMap Frame.bytes := by
  induction frames with
  | nil => rfl
  | cons f frames ih =>
    cases f with
    | data data => exact congrArg (data ++ ·) ih
    | trailers t => exact ih

/-- At the seam the buffer, the chunk that crossed the cap and the chunks behind it make up the data. -/
theorem buffered_bufferFrames (hbuf : buf.length ≤ cap) :
    Buffered cap (buf ++ frames.flatMap Frame.bytes) ending (bufferFrames cap buf frames ending) := by
  induction frames generalizing buf with
  | nil =>
    rw [List.flatMap_nil, List.append_nil]
    cases ending with
    | eof => exact .complete hbuf rfl
    | error e => exact .failed hbuf rfl
  | cons f frames ih =>
    cases f with
    | data data =>
      rw [bufferFrames]
      split
      · next hcross =>
        refine .tooLarge ?_ ?_ rfl
        · simp only [List.flatMap_cons, Frame.bytes, List.length_append]
          omega
        · simp only [Body.data, List.flatMap_cons, Frame.bytes, flatMap_bytes_dataFrames]
      · next hfits =>
        have hlen : (buf ++ data).length ≤ cap := by rw [List.length_append]; omega
        have h := ih hlen
        rwa [List.append_assoc] at h
    | trailers t => exact ih hbuf

theorem buffered (body : Body) (cap : Nat) : Buffered cap body.data body.ending (bufferBody body cap) := by
  have hnil : ([] : List UInt8).length ≤ cap := Nat.zero_le cap
  exact buffered_bufferFrames hnil

/-- Buffering loses nothing: a body that ends within the cap is kept whole, one that goes over it is
passed on whole with the end it has, and one that fails within it is answered 400 unless the layer
makes a single attempt, which passes every request on as it is. The buffer never holds more than the
cap. -/
theorem buffering_lossless (body : Body) (cap : Nat) :
    (body.ending = .eof → body.data.length ≤ cap → bufferBody body cap = .ok (.complete body.data)) ∧
    (cap < body.data.length → ∃ whole, bufferBody body cap = .ok (.tooLarge whole) ∧
      whole.data = body.data ∧ whole.ending = body.ending) ∧
    (∀ e, body.ending = .error e → body.data.length ≤ cap → bufferBody body cap = .error e ∧
      ∀ (retry : Retry) (inner : InnerService) (req : Request), retry.attempts ≠ 1 →
        retry.maxBufferBytes = cap →
        req.body = body → retry.call inner req =
          some ⟨[], .withStatus .badRequest (.fromStr "Failed to read request body")⟩) ∧
    (∀ (retry : Retry) (inner : InnerService) (req : Request), retry.attempts = 1 →
      retry.call inner req = (inner 0 req).map fun res => ⟨[⟨req, res⟩], res⟩) ∧
    (bufferTurns cap [] body.frames body.ending).2 = bufferBody body cap ∧
    ∀ held ∈ (bufferTurns cap [] body.frames body.ending).1, held.length ≤ cap := by
  have hb := buffered body cap
  refine ⟨fun hend hle => ?_, fun hlt => ?_, fun e hend hle => ?_, fun retry inner req h1 => if_pos h1,
    bufferTurns_snd, length_le_of_mem_bufferTurns (Nat.zero_le _)⟩
  · generalize bufferBody body cap = res at hb
    cases hb with
    | complete => rfl
    | tooLarge hlt => omega
    | failed _ he => rw [hend] at he; cases he
  · generalize bufferBody body cap = res at hb
    cases hb with
    | complete hle => omega
    | tooLarge _ hd he => exact ⟨_, rfl, hd, he⟩
    | failed hle => omega
  · have herr : bufferBody body cap = .error e := by
      generalize bufferBody body cap = res at hb
      cases hb with
      | complete _ he => rw [hend] at he; cases he
      | tooLarge hlt => omega
      | failed _ he => rw [hend] at he; cases he; rfl
    refine ⟨herr, ?_⟩
    rintro retry inner req h1 rfl rfl
    rw [Retry.call, if_neg h1, herr]

def failingRequest : Request := .new ⟨[], .error "reset".toList, false⟩

theorem buffering_lossless_failing (inner : InnerService) :
    (RetryLayer.new 2).layer.call inner failingRequest =
      some ⟨[], .withStatus .badRequest (.fromStr "Failed to read request body")⟩ :=
  ((buffering_lossless failingRequest.body RetryLayer.DEFAULT_MAX_BUFFER_BYTES).2.2.1 _ rfl
    (Nat.zero_le _)).2
    _ _ _ (by decide) rfl rfl

/-- With a single attempt the body is not read, and the inner service gets the request. -/
theorem single_attempt_not_buffered :
    let inner : InnerService := fun _ _ => some (.new (.fromStr ""))
    bufferBody failingRequest.body (RetryLayer.new 1).layer.maxBufferBytes = .error "reset".toList ∧
      (((RetryLayer.new 1).layer.call inner failingRequest).map fun r => (r.calls.map (·.req),
        r.res.status)) =
        some ([failingRequest], .ok) :=
  ⟨rfl, rfl⟩

end AxumReverseProxy
