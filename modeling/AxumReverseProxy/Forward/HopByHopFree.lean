import AxumReverseProxy.Forward.EndToEnd

/-!
# Which hop-by-hop fields cross the proxy

A field is kept on its hop when the lines it has on the way out do not depend on the values it came
with (`DoesNotCross`). Two things let values cross. Only the first `TE` line decides whether `TE` is
kept, and a `Connection` line that is not visible ASCII nominates nothing. `hop_by_hop_free_iff` says
that there is nothing else, for requests and responses at once.
-/

namespace AxumReverseProxy

open HeaderName

/-- What a message comes out with does not depend on the values of its `n` lines. -/
def DoesNotCross (forward : HeaderMap → Option HeaderMap) (headers : HeaderMap) (n : HeaderName) : Prop :=
  ∀ f out out', forward headers = some out → forward (headers.mapValues n f) = some out' →
    out'.getAll n = out.getAll n

/-- No hop-by-hop field of `headers` is in `out`: of an upgrade only the fixed pair, of `TE` only
`trailers`, and nothing that comes from a nominated field. -/
structure HopByHopFree (forward : HeaderMap → Option HeaderMap) (headers out : HeaderMap)
    (upgrading : Bool) : Prop where
  pair : out.getAll connection = (if upgrading then [.fromStatic "upgrade"] else []) ∧
    out.getAll upgrade = if upgrading then [.fromStatic "websocket"] else []
  standard : ∀ n ∈ [keepAlive, proxyConnection, transferEncoding, trailer], out.getAll n = []
  onlyTrailers : ∀ v ∈ out.getAll te, isTrailers v = true
  nominatedTe : Nominated headers te → out.getAll te = []
  nominated : ∀ n, Nominated headers n → n ∉ [connection, upgrade, te] → DoesNotCross forward headers n

/-- If `TE` is kept then all its lines are `trailers`, and every field that is there and nominated is
nominated by a readable line, or is a standard one that is not kept, or is exempt. -/
structure ReadablyMarked (headers : HeaderMap) (exempt : HeaderName → Bool) : Prop where
  onlyTrailers : KeepsTe headers → ¬ NominatedReadably headers te → ∀ v ∈ headers.getAll te,
    isTrailers v = true
  nominated : ∀ n, Nominated headers n → headers.getAll n ≠ [] →
    NominatedReadably headers n ∨ (n ∈ HOP_BY_HOP_HEADERS ∧ ¬ (n = te ∧ KeepsTe headers)) ∨ exempt n = true

/-- What is used of a direction: which fields are written, hidden and shown. -/
structure Direction (forward : HeaderMap → Option HeaderMap) (exempt : HeaderName → Bool)
    (headers out : HeaderMap) (upgrading : Bool) : Prop where
  pair : out.getAll connection = (if upgrading then [.fromStatic "upgrade"] else []) ∧
    out.getAll upgrade = if upgrading then [.fromStatic "websocket"] else []
  standard : ∀ n ∈ [keepAlive, proxyConnection, transferEncoding, trailer], out.getAll n = []
  getAll_te : out.getAll te = if te ∈ hopByHopHeaders headers then [] else headers.getAll te
  exempt_te : exempt te = false
  hidden : ∀ n, n ∉ [connection, upgrade, te] → n ∈ hopByHopHeaders headers ∨ exempt n = true →
    DoesNotCross forward headers n
  shown : ∀ n, n ∉ [connection, upgrade, te] → n ∉ hopByHopHeaders headers → exempt n = false →
    headers.getAll n ≠ [] → ¬ DoesNotCross forward headers n

section Direction

variable {forward : HeaderMap → Option HeaderMap} {exempt : HeaderName → Bool} {headers out : HeaderMap}
  {upgrading : Bool} {n : HeaderName}

theorem doesNotCross_of_absent (h : headers.getAll n = []) : DoesNotCross forward headers n := by
  intro f out out' ho ho'
  have hid : headers.mapValues n f = headers := by
    unfold MultiMap.mapValues
    congr 1
    refine (List.map_congr_left fun e he => ?_).trans (List.map_id _)
    by_cases hk : e.1 = n
    · have hmem : (n, e.2) ∈ headers.entries := hk ▸ he
      have hv := MultiMap.mem_getAll.2 hmem
      rw [h] at hv; cases hv
    · rw [if_neg hk]; rfl
  rw [hid, ho] at ho'
  cases ho'; rfl

theorem mem_standard_of_pair (h : n ∈ [connection, upgrade]) :
    n ∈ HOP_BY_HOP_HEADERS ∧ ¬ (n = te ∧ KeepsTe headers) := by
  obtain ⟨h1, h2⟩ := (by decide : ∀ m ∈ [connection, upgrade], m ∈ HOP_BY_HOP_HEADERS ∧ m ≠ te) n h
  exact ⟨h1, fun hc => h2 hc.1⟩

theorem Direction.te_nil_iff (d : Direction forward exempt headers out upgrading) :
    out.getAll te = [] ↔ te ∈ hopByHopHeaders headers ∨ headers.getAll te = [] := by
  rw [d.getAll_te]
  split
  · next h => simp [h]
  · next h => simp [h]

/-- Nothing crosses exactly when the message is readably marked. -/
theorem Direction.hopByHopFree_iff (d : Direction forward exempt headers out upgrading) :
    HopByHopFree forward headers out upgrading ↔ ReadablyMarked headers exempt := by
  constructor
  · intro h
    refine ⟨fun hk hnom => ?_, fun n hnom hne => ?_⟩
    · have hte : te ∉ hopByHopHeaders headers := by
        rw [mem_hopByHopHeaders, not_or]; exact ⟨fun hc => hc.2 ⟨rfl, hk⟩, hnom⟩
      have := h.onlyTrailers
      rwa [d.getAll_te, if_neg hte] at this
    · have hmem : n ∈ hopByHopHeaders headers ∨ exempt n = true := by
        by_cases hte : n = te
        · subst hte
          exact .inl ((d.te_nil_iff.1 (h.nominatedTe hnom)).resolve_right hne)
        · by_cases hp : n ∈ [connection, upgrade]
          · exact .inl (mem_hopByHopHeaders.2 (.inl (mem_standard_of_pair hp)))
          · have hn : n ∉ [connection, upgrade, te] := by
              simp only [List.mem_cons, List.not_mem_nil, or_false, not_or] at hp ⊢
              exact ⟨hp.1, hp.2, hte⟩
            by_contra hc
            rw [not_or, Bool.not_eq_true] at hc
            exact d.shown n hn hc.1 hc.2 hne (h.nominated n hnom hn)
      rcases hmem with hmem | hmem
      · exact (mem_hopByHopHeaders.1 hmem).elim (fun h => .inr (.inl h)) .inl
      · exact .inr (.inr hmem)
  · intro h
    have hmem : ∀ n, Nominated headers n → headers.getAll n ≠ [] →
        n ∈ hopByHopHeaders headers ∨ exempt n = true := by
      intro n hnom hne
      rcases h.nominated n hnom hne with h | h | h
      · exact .inl (mem_hopByHopHeaders.2 (.inr h))
      · exact .inl (mem_hopByHopHeaders.2 (.inl h))
      · exact .inr h
    refine ⟨d.pair, d.standard, fun v hv => ?_, fun hnom => ?_, fun n hnom hn => ?_⟩
    · rw [d.getAll_te] at hv
      split at hv
      · cases hv
      · next hte =>
        rw [mem_hopByHopHeaders, not_or] at hte
        refine h.onlyTrailers ?_ hte.2 v hv
        by_contra hk
        exact hte.1 ⟨by decide, fun hc => hk hc.2⟩
    · rw [d.te_nil_iff]
      by_cases hne : headers.getAll te = []
      · exact .inr hne
      · refine .inl ((hmem te hnom hne).resolve_right ?_)
        rw [d.exempt_te]; exact Bool.false_ne_true
    · by_cases hne : headers.getAll n = []
      · exact doesNotCross_of_absent hne
      · exact d.hidden n hn (hmem n hnom hne)

end Direction

end AxumReverseProxy
