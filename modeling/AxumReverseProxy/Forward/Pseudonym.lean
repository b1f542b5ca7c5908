import AxumReverseProxy.Forward.Hops

/-!
# Which pseudonyms are found again

`with_via` takes any text. `append_via` writes it as it is, or leaves the field alone where the text
cannot stand in one, and `via_contains_pseudonym` reads words: it finds what was written exactly when
that is a word (`Str.IsPseudonym`).
-/

namespace AxumReverseProxy

open HeaderName

variable {headers : HeaderMap} {p : Str} {policy : ProxyPolicy} {req back : Request} {env : Platform}
  {uri : Uri} {s : Sending}

theorem isPseudonym_of_viaContainsPseudonym (h : viaContainsPseudonym headers p = true) :
    p.IsPseudonym := by
  obtain ⟨e, he, hp⟩ := viaContainsPseudonym_iff.1 h
  exact isPseudonym_of_mem_viaElements he (List.mem_of_getElem? hp)

theorem viaContainsPseudonym_congr {headers' : HeaderMap} (h : headers.getAll via = headers'.getAll via) :
    viaContainsPseudonym headers p = viaContainsPseudonym headers' p := by
  rw [viaContainsPseudonym, viaContainsPseudonym, HeaderMap.readable_congr h]

theorem viaContainsPseudonym_appendVia_iff (headers : HeaderMap) (version : Version) (p : Str) :
    viaContainsPseudonym (appendVia headers version p) p = true ↔ p.IsPseudonym := by
  refine ⟨isPseudonym_of_viaContainsPseudonym, fun hp => ?_⟩
  rw [viaContainsPseudonym_iff, viaElements_appendVia version hp]
  exact ⟨_, List.mem_append_right _ (List.mem_singleton_self _), rfl⟩

/-- The loop check comes before the only other check a forwarded request can fail. -/
theorem loopDetected_iff (hm : back.method ≠ .connect) (hp : policy.via = some p) :
    (∀ send, (forwardWith env policy uri back send).map (·.status) = some .loopDetected) ↔
      viaContainsPseudonym back.headers p = true := by
  have hvia : policy.via.any (viaContainsPseudonym back.headers) = viaContainsPseudonym back.headers p := by
    rw [hp, Option.any_some]
  constructor
  · intro h
    by_contra hc
    have hearly : ∀ res, earlyReject policy back = some res → res.status = .payloadTooLarge := by
      intro res he
      rw [earlyReject, if_neg hm, if_neg (by rwa [hvia])] at he
      split at he
      · cases he; rfl
      · cases he
    have helapsed := h fun _ => .elapsed
    rcases forwardStart_eq env policy uri back with ⟨res, he, hs⟩ | ⟨u, -, -, hs⟩
    · rw [forwardWith, hs, Option.map_some, Option.map_some, hearly res he] at helapsed
      exact absurd helapsed (by decide)
    · rw [forwardWith, hs] at helapsed
      exact absurd (show some StatusCode.gatewayTimeout = some .loopDetected from helapsed) (by decide)
  · intro h send
    have he : earlyReject policy back = some (.withStatus .loopDetected (.fromStr "Loop Detected")) := by
      rw [earlyReject, if_neg hm, if_pos (by rwa [hvia])]
    rw [forwardWith, forwardStart, he]
    rfl

/-- The proxy finds its own pseudonym in what it has written, and so answers 508 to a request of its
own that comes straight back, exactly when the pseudonym is a word of visible ASCII without a comma. -/
theorem via_found_again_iff (p : Str) :
    (∀ (headers : HeaderMap) (version : Version),
      viaContainsPseudonym (appendVia headers version p) p = true ↔ p.IsPseudonym) ∧
    ∀ (env env' : Platform) (policy : ProxyPolicy) (uri uri' : Uri) (req back : Request) (s : Sending),
      forwardStart env (policy.withVia p) uri req = some (.sending s) → back.method = s.forwardReq.method →
        back.headers = s.forwardReq.headers →
          ((∀ send, (forwardWith env' (policy.withVia p) uri' back send).map (·.status) =
            some .loopDetected) ↔
            p.IsPseudonym) := by
  refine ⟨fun headers version => viaContainsPseudonym_appendVia_iff headers version p, ?_⟩
  intro env env' policy uri uri' req back s hs hm hh
  obtain ⟨he, u, -, hsend⟩ := forwardStart_sending hs
  have hconnect : back.method ≠ .connect := by
    intro hc
    have hreq : req.method = .connect := by
      rw [hm, hsend] at hc
      exact hc
    rw [earlyReject, if_pos hreq] at he
    cases he
  rw [loopDetected_iff hconnect rfl, hh, headers_of_sending hs,
    viaContainsPseudonym_congr (getAll_via_sentHeaders rfl)]
  exact viaContainsPseudonym_appendVia_iff _ _ p

/-- A request of `edge` that comes straight back to it. -/
theorem via_found_again_iff_edge (env : Platform) (send : Request → SendOutcome) :
    ∃ s, forwardStart env (ProxyPolicy.withVia {} "edge".toList) (.origin ⟨['/']⟩)
      (.new (.fromStr "")) = some (.sending s) ∧
      (forwardWith env (ProxyPolicy.withVia {} "edge".toList) (.origin ⟨['/']⟩) s.forwardReq
        send).map (·.status) = some .loopDetected := by
  obtain ⟨s, hs⟩ := @forwardStart_of_not_rejected env (ProxyPolicy.withVia {} "edge".toList)
    (.origin ⟨['/']⟩)
    (.new (.fromStr "")) (by decide)
  exact ⟨s, hs, ((via_found_again_iff "edge".toList).2 _ _ _ _ _ _ _ s hs rfl rfl).2 (by decide) send⟩

/-- A pseudonym of two words is never found, for only the first of them is read. -/
theorem via_two_words_not_found :
    viaContainsPseudonym (appendVia .empty .http11 "edge proxy".toList) "edge proxy".toList = false := by
  decide

end AxumReverseProxy
