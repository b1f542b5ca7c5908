import AxumReverseProxy.Forward.Relayed

/-!
# End-to-end fields

A field that is neither hop-by-hop, nor nominated, nor one the proxy writes keeps its lines, in both
directions, and no other field appears.
-/

namespace AxumReverseProxy

open HeaderName

variable {env : Platform} {policy : ProxyPolicy} {uri : Uri} {req : Request} {s : Sending}
  {res r : Response} {headers : HeaderMap} {n : HeaderName}

theorem not_mem_hopByHopHeaders (hn : n ∉ HOP_BY_HOP_HEADERS) (hnom : ¬ Nominated headers n) :
    n ∉ hopByHopHeaders headers := by
  rw [mem_hopByHopHeaders, not_or]
  exact ⟨fun h => hn h.1, fun h => hnom (nominated_of_nominatedReadably h)⟩

theorem ne_of_not_standard (hn : n ∉ HOP_BY_HOP_HEADERS) : n ≠ connection ∧ n ≠ upgrade := by
  constructor <;> rintro rfl <;> exact hn (by decide)

theorem getAll_sent_of_end_to_end (hn : n ∉ HOP_BY_HOP_HEADERS) (hnom : ¬ Nominated req.headers n)
    (hm : n ∉ managedFields policy req.extensions.connectInfo) (up : Bool) :
    (sentHeaders policy uri up req).getAll n = req.headers.getAll n := by
  obtain ⟨hc, hu⟩ := ne_of_not_standard hn
  have hhost : n ≠ host := by rintro rfl; exact hm (List.mem_append_left _ (List.mem_cons_self ..))
  rw [getAll_sentHeaders_of_unmanaged hm hc hu,
    getAll_copyClientHeaders_of_not_mem (not_mem_hopByHopHeaders hn hnom) (replacesHost_of_ne hhost)]

theorem managed_of_introduced {up : Bool} (habs : req.headers.getAll n = [])
    (h : (sentHeaders policy uri up req).getAll n ≠ []) :
    n ∈ managedFields policy req.extensions.connectInfo ∨ n ∈ [connection, upgrade] := by
  by_contra hn
  rw [not_or, List.mem_cons, List.mem_singleton, not_or] at hn
  obtain ⟨hm, hc, hu⟩ := hn
  refine h ?_
  rw [getAll_sentHeaders_of_unmanaged hm hc hu, getAll_copyClientHeaders]
  split
  · rfl
  · exact habs

theorem getAll_relay_of_end_to_end (hn : n ∉ HOP_BY_HOP_HEADERS) (hnom : ¬ Nominated res.headers n)
    (hv : policy.via.isSome = true → n ≠ via) :
    (relay policy res).headers.getAll n = res.headers.getAll n := by
  obtain ⟨hc, hu⟩ := ne_of_not_standard hn
  rw [getAll_relay_ne hc hu hv, getAll_stripHopByHopResponseHeaders,
    if_neg (not_mem_hopByHopHeaders hn hnom)]

theorem via_of_introduced (habs : res.headers.getAll n = [])
    (h : (relay policy res).headers.getAll n ≠ []) :
    (policy.via.isSome = true ∧ n = via) ∨ n ∈ [connection, upgrade] := by
  by_contra hn
  rw [not_or, List.mem_cons, List.mem_singleton, not_or, not_and] at hn
  obtain ⟨hv, hc, hu⟩ := hn
  refine h ?_
  rw [getAll_relay_ne hc hu hv, getAll_stripHopByHopResponseHeaders]
  split
  · rfl
  · exact habs

/-- End-to-end fields are preserved: in every request that is sent and in every upstream response
that is relayed. -/
theorem end_to_end_fields_preserved :
    (∀ (env : Platform) (policy : ProxyPolicy) (uri : Uri) (req : Request) (s : Sending),
      forwardStart env policy uri req = some (.sending s) →
        (∀ n, n ∉ HOP_BY_HOP_HEADERS → ¬ Nominated req.headers n →
          n ∉ managedFields policy req.extensions.connectInfo →
            s.forwardReq.headers.getAll n = req.headers.getAll n) ∧
        ∀ n, req.headers.getAll n = [] → s.forwardReq.headers.getAll n ≠ [] →
          n ∈ managedFields policy req.extensions.connectInfo ∨ n ∈ [connection, upgrade]) ∧
    ∀ (env : Platform) (policy : ProxyPolicy) (s : Sending) (res r : Response),
      (s.finish env policy (.response res)).upstream? = some r →
        r.status = res.status ∧ r.version = res.version ∧
        (∀ n, n ∉ HOP_BY_HOP_HEADERS → ¬ Nominated res.headers n → (policy.via.isSome = true → n ≠ via) →
          r.headers.getAll n = res.headers.getAll n) ∧
        ∀ n, res.headers.getAll n = [] → r.headers.getAll n ≠ [] →
          (policy.via.isSome = true ∧ n = via) ∨ n ∈ [connection, upgrade] := by
  constructor
  · intro env policy uri req s h
    rw [headers_of_sending h]
    exact ⟨fun n hn hnom hm => getAll_sent_of_end_to_end hn hnom hm _,
      fun n habs hsent => managed_of_introduced habs hsent⟩
  · intro env policy s res r h
    obtain rfl := finish_response h
    exact ⟨rfl, rfl, fun n hn hnom hv => getAll_relay_of_end_to_end hn hnom hv,
      fun n habs hrel => via_of_introduced habs hrel⟩

/-- Two `Cookie` lines stay two lines, in order. -/
theorem end_to_end_fields_preserved_cookies :
    ∃ s, forwardStart ⟨64, fun _ => []⟩ {} (.origin ⟨"/".toList⟩) { Request.new (.fromBytes []) with
          headers :=
            ⟨[(.fromStatic "cookie", .fromStatic "a"), (.fromStatic "cookie", .fromStatic "b")]⟩ } =
        some (.sending s) ∧
      s.forwardReq.headers.getAll (.fromStatic "cookie") = [.fromStatic "a", .fromStatic "b"] := by
  obtain ⟨s, hs⟩ := @forwardStart_of_not_rejected ⟨64, fun _ => []⟩ {} (.origin ⟨"/".toList⟩)
    { Request.new (.fromBytes []) with
      headers := ⟨[(.fromStatic "cookie", .fromStatic "a"), (.fromStatic "cookie", .fromStatic "b")]⟩ } rfl
  exact ⟨s, hs, (end_to_end_fields_preserved.1 _ _ _ _ s hs).1 _ (by decide) (by decide) (by decide)⟩

end AxumReverseProxy
