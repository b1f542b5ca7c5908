import AxumReverseProxy.Forward.Sent

/-!
# The cap on request bodies

The declared length is compared with the cap as a `u64`, the data that streams through with the cap
as a `usize`. The two bounds are the same where the cap fits in a `usize`; elsewhere a body between
them is cut off though it is within the cap (`body_cap_exact_iff`).
-/

namespace AxumReverseProxy

namespace Body

variable {limit : Nat} {frames : List Frame} {ending : BodyEnd}

theorem limitFrames_of_le (h : (frames.flatMap Frame.bytes).length ≤ limit) :
    limitFrames limit frames ending = (frames, ending) := by
  induction frames generalizing limit with
  | nil => rfl
  | cons f frames ih =>
    rw [List.flatMap_cons, List.length_append] at h
    rw [limitFrames, if_neg (by omega), ih (by omega)]

theorem limitFrames_of_lt (ending : BodyEnd) (h : limit < (frames.flatMap Frame.bytes).length) :
    (limitFrames limit frames ending).2 = .error "length limit exceeded".toList ∧
      (limitFrames limit frames ending).1 <+: frames ∧
      ((limitFrames limit frames ending).1.flatMap Frame.bytes).length ≤ limit := by
  induction frames generalizing limit with
  | nil => simp at h
  | cons f frames ih =>
    rw [List.flatMap_cons, List.length_append] at h
    rw [limitFrames]
    split
    · exact ⟨rfl, List.nil_prefix, Nat.zero_le _⟩
    · next hfits =>
      have hrest : limit - f.bytes.length < (frames.flatMap Frame.bytes).length := by omega
      obtain ⟨hend, hpre, hlen⟩ := ih hrest
      refine ⟨hend, List.cons_prefix_cons.2 ⟨rfl, hpre⟩, ?_⟩
      rw [List.flatMap_cons, List.length_append]
      omega

variable {body : Body}

theorem limited_of_le (h : body.data.length ≤ limit) : body.limited limit = body := by
  rw [limited, limitFrames_of_le h]

/-- A body that goes over the limit fails there, and nothing of it but a beginning is passed on. -/
theorem limited_of_lt (h : limit < body.data.length) :
    (body.limited limit).ending = .error "length limit exceeded".toList ∧
      (body.limited limit).data <+: body.data ∧ (body.limited limit).data.length ≤ limit := by
  obtain ⟨hend, hpre, hlen⟩ := limitFrames_of_lt body.ending h
  refine ⟨hend, ?_, hlen⟩
  obtain ⟨rest, hrest⟩ := hpre
  refine ⟨rest.flatMap Frame.bytes, ?_⟩
  rw [data, data, limited, ← List.flatMap_append, hrest]

end Body

/-! ### The declared length -/

/-- The length that the first `Content-Length` gives. -/
def declaredValue (headers : HeaderMap) : Option Nat :=
  ((headers.get .contentLength).bind HeaderValue.toStr).bind Str.decimalValue

theorem declaredLength_eq (headers : HeaderMap) :
    declaredLength headers = (declaredValue headers).filter (· < UInt64.size) := by
  unfold declaredLength declaredValue
  cases (headers.get .contentLength).bind HeaderValue.toStr with
  | none => rfl
  | some s => exact Str.parseU64_eq s

theorem any_declaredLength_iff {headers : HeaderMap} {cap : Nat} :
    ((declaredLength headers).any fun declared => declared > cap) = true ↔
      ∃ n ∈ declaredValue headers, cap < n ∧ n < UInt64.size := by
  rw [declaredLength_eq, Option.any_filter]
  cases declaredValue headers with
  | none => simp
  | some n => simp [and_comm]

/-! ### The two checks -/

/-- The answer to a request that is refused whatever its body. -/
def refusedAnyway (policy : ProxyPolicy) (req : Request) : Option Response :=
  earlyReject { policy with maxRequestBodyBytes := none } req

def DeclaresMore (cap : UInt64) (req : Request) : Prop := ∃ n ∈ declaredValue req.headers, cap.toNat < n

/-- A request that is not refused anyway is answered 413 if it declares more than the cap. Otherwise it
is sent, with its body as it is if that is within the cap, and with a body that fails within the cap
if not. -/
structure CapEnforced (env : Platform) (policy : ProxyPolicy) (uri : Uri) (req : Request)
    (cap : UInt64) : Prop where
  refused : refusedAnyway policy req ≠ none →
    ∃ res, forwardStart env (policy.withMaxRequestBodyBytes cap) uri req = some (.rejected res)
  declared : refusedAnyway policy req = none → DeclaresMore cap req →
    forwardStart env (policy.withMaxRequestBodyBytes cap) uri req =
      some (.rejected (.withStatus .payloadTooLarge (.fromStr "Payload Too Large")))
  streamed : refusedAnyway policy req = none → ¬ DeclaresMore cap req →
    ∃ s, forwardStart env (policy.withMaxRequestBodyBytes cap) uri req = some (.sending s) ∧
      (req.body.data.length ≤ cap.toNat → s.forwardReq.body = req.body) ∧
      (cap.toNat < req.body.data.length → (∃ e, s.forwardReq.body.ending = .error e) ∧
        s.forwardReq.body.data <+: req.body.data ∧ s.forwardReq.body.data.length ≤ cap.toNat)

variable {env : Platform} {policy : ProxyPolicy} {uri : Uri} {req : Request} {cap : UInt64} {s : Sending}

theorem earlyReject_withMax (policy : ProxyPolicy) (req : Request) (cap : UInt64) :
    earlyReject (policy.withMaxRequestBodyBytes cap) req = (refusedAnyway policy req).or
      (if (declaredLength req.headers).any (fun declared => declared > cap.toNat) then
        some (.withStatus .payloadTooLarge (.fromStr "Payload Too Large"))
      else none) := by
  unfold refusedAnyway earlyReject ProxyPolicy.withMaxRequestBodyBytes
  simp only [Option.any_some, Option.any_none]
  split
  · rfl
  · split
    · rfl
    · rfl

theorem body_of_sending (h : forwardStart env (policy.withMaxRequestBodyBytes cap) uri req =
    some (.sending s)) :
    s.forwardReq.body = req.body.limited (env.asUsize cap) := by
  obtain ⟨-, u, -, rfl⟩ := forwardStart_sending h
  rfl

/-- The body sent is right exactly when it is not between the two bounds. -/
theorem limited_exact_iff (body : Body) {bound cap : Nat} (h : bound ≤ cap) :
    ((body.data.length ≤ cap → body.limited bound = body) ∧
      (cap < body.data.length → (∃ e, (body.limited bound).ending = .error e) ∧
        (body.limited bound).data <+: body.data ∧ (body.limited bound).data.length ≤ cap)) ↔
      ¬ (bound < body.data.length ∧ body.data.length ≤ cap) := by
  rcases Nat.lt_or_ge bound body.data.length with hlt | hge
  · obtain ⟨hend, hpre, hlen⟩ := Body.limited_of_lt hlt
    constructor
    · rintro ⟨hwhole, -⟩ ⟨-, hle⟩
      rw [hwhole hle] at hlen
      omega
    · intro hout
      refine ⟨fun hle => absurd ⟨hlt, hle⟩ hout, fun _ => ⟨⟨_, hend⟩, hpre, hlen.trans h⟩⟩
  · refine iff_of_true ⟨fun _ => Body.limited_of_le hge, fun hlt => ?_⟩ fun hb => ?_
    · omega
    · omega

theorem asUsize_le (env : Platform) (cap : UInt64) : env.asUsize cap ≤ cap.toNat := Nat.mod_le _ _

/-- The cap is enforced exactly when the request is refused anyway, or declares more than the cap in a
number of 64 bits, or declares no more and its body is not between the cap as a `usize` and the cap. -/
theorem body_cap_exact_iff (env : Platform) (policy : ProxyPolicy) (uri : Uri) (req : Request)
    (cap : UInt64) :
    CapEnforced env policy uri req cap ↔
      refusedAnyway policy req ≠ none ∨
      (∃ n ∈ declaredValue req.headers, cap.toNat < n ∧ n < UInt64.size) ∨
      ¬ DeclaresMore cap req ∧ ¬ (env.asUsize cap < req.body.data.length ∧
        req.body.data.length ≤ cap.toNat) := by
  have hearly := earlyReject_withMax policy req cap
  cases hr : refusedAnyway policy req with
  | some res =>
    rw [hr, Option.some_or] at hearly
    refine iff_of_true ⟨fun _ => ⟨res, by rw [forwardStart, hearly]⟩, ?_, ?_⟩ (.inl (by simp)) <;>
      (intro h; rw [hr] at h; cases h)
  | none =>
    rw [hr, Option.none_or] at hearly
    rw [or_iff_right (not_not.2 rfl)]
    by_cases hsmall : ∃ n ∈ declaredValue req.headers, cap.toNat < n ∧ n < UInt64.size
    · have hmore : DeclaresMore cap req := hsmall.imp fun n hn => ⟨hn.1, hn.2.1⟩
      rw [if_pos (any_declaredLength_iff.2 hsmall)] at hearly
      refine iff_of_true ⟨fun h => absurd hr h, fun _ _ => ?_, fun _ h => absurd hmore h⟩ (.inl hsmall)
      rw [forwardStart, hearly]
    · rw [if_neg (mt any_declaredLength_iff.1 hsmall)] at hearly
      obtain ⟨s, hs⟩ := @forwardStart_of_not_rejected env _ uri _ hearly
      rw [or_iff_right hsmall]
      by_cases hmore : DeclaresMore cap req
      · -- the length does not parse, and the request is sent
        refine iff_of_false (fun h => ?_) fun h => h.1 hmore
        have hrej := h.declared hr hmore
        rw [hs] at hrej
        cases hrej
      · rw [and_iff_right hmore, ← limited_exact_iff req.body (asUsize_le env cap)]
        constructor
        · intro h
          obtain ⟨s', hs', hle, hlt⟩ := h.streamed hr hmore
          rw [body_of_sending hs'] at hle hlt
          exact ⟨hle, hlt⟩
        · rintro ⟨hle, hlt⟩
          refine ⟨fun h => absurd hr h, fun _ h => absurd h hmore, fun _ _ => ⟨s, hs, ?_⟩⟩
          rw [body_of_sending hs]
          exact ⟨hle, hlt⟩

/-- Where `usize` has 32 bits, a cap of five bytes more than 4 GiB lets through five bytes. -/
theorem body_cap_truncated :
    let env : Platform := ⟨32, fun _ => []⟩
    let req : Request := .new ⟨[.data (List.replicate 10 0)], .eof, false⟩
    let cap : UInt64 := 4294967301
    req.body.data.length ≤ cap.toNat ∧
      ∃ s, forwardStart env (.withMaxRequestBodyBytes {} cap) (.origin ⟨['/']⟩) req =
      some (.sending s) ∧ s.forwardReq.body = ⟨[], .error "length limit exceeded".toList, false⟩ := by
  intro env req cap
  obtain ⟨s, hs⟩ := @forwardStart_of_not_rejected env (.withMaxRequestBodyBytes {} cap) (.origin ⟨['/']⟩)
    req (by decide)
  refine ⟨by decide, s, hs, ?_⟩
  rw [body_of_sending hs]
  decide

end AxumReverseProxy
