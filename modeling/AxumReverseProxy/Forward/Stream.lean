import AxumReverseProxy.Forward.Sent
import AxumReverseProxy.Http.RequestTarget

/-!
# `proxy_request_on_stream`

The send of `proxy_request_on_stream` reads the path and query of the upstream URI again as a URI and
unwraps the outcome. The text of a path is read as an origin form, but that of `http://h?q` is `?q`,
which no form starts with (`parse_query_only`).
-/

namespace AxumReverseProxy

namespace UriLib

/-- How `Uri::from_str` tells the forms apart: a text that starts with `/` is a path and query, and any
other but `*` is an authority or begins with a scheme, which may be empty. -/
structure ReadsForms (lib : UriLib) : Prop where
  parse_slash {t : Str} : t.head? = some '/' → lib.parse t = (lib.parsePathAndQuery t).map .origin
  parse_other {t : Str} {u : Uri} : t.head? ≠ some '/' → t ≠ ['*'] → lib.parse t = some u →
    (t ≠ [] ∧ authorityText t = t) ∨
      ∃ sch rest, sch.all isSchemeChar = true ∧ t = sch ++ "://".toList ++ rest

theorem plain_readsForms : plain.ReadsForms where
  parse_slash h := if_pos h
  parse_other {t u} hs _ h := by
    change plain.parse t = some u at h
    rw [plain.parse, if_neg hs] at h
    split at h
    · next sch rest hsplit =>
      unfold plain.splitScheme at hsplit
      split at hsplit
      · next rest' hd =>
        cases hsplit
        obtain ⟨s, hparse, -⟩ := Option.bind_eq_some_iff.1 h
        unfold plain.parseScheme at hparse
        split at hparse
        · next hsch =>
          refine .inr ⟨_, rest, hsch.2, ?_⟩
          rw [List.append_assoc]
          conv_lhs => rw [← List.takeWhile_append_dropWhile (p := isSchemeChar) (l := t), hd]
          rfl
        · cases hparse
      · cases hsplit
    · obtain ⟨a, ha, -⟩ := Option.map_eq_some_iff.1 h
      unfold plain.parseAuthority at ha
      split at ha
      · next hA =>
        refine .inl ⟨hA.1, List.takeWhile_eq_self_iff.2 fun c hc => ?_⟩
        have hne : ∀ d ∈ "/?#".toList, c ≠ d := by
          rintro d hd rfl
          exact hA.2.2.1 c ((by decide : ∀ d ∈ "/?#".toList, d ∈ "/?#[]@%".toList) c hd) hc
        simp [endsAuthority, hne '/' (by decide), hne '?' (by decide), hne '#' (by decide)]
      · cases ha

end UriLib

/-- The request target hyper writes, which is the text of the URI. -/
def Uri.requestTarget (u : Uri) : Str :=
  (u.scheme?.map fun s => s.str ++ "://".toList).getD [] ++ (u.authority?.map (·.str)).getD [] ++ u.path ++
    queryText u.query

/-- The handle of the client's upgrade, taken when its request asks for one. -/
def Sending.downstreamUpgrade (s : Sending) : Option Unit := if s.upgrading then some () else none

/-- `Sending.finish` with the unwrapping of `downstream_upgrade`. -/
def Sending.tryFinish (env : Platform) (policy : ProxyPolicy) (s : Sending) : SendOutcome → Option Finished
  | .response res =>
    if res.status = .switchingProtocols then
      if !s.upgrading || !validUpgradeResponse env.deriveAcceptKey res.headers s.clientHeaders then
        some (.failed (proxyFailure "Invalid upstream WebSocket upgrade"))
      else s.downstreamUpgrade.map fun _ => .upgraded (relay policy res)
    else some (.relayed (relay policy res))
  | o => some (s.finish env policy o)

/-- `forward_with` over a transport that may panic before it answers. -/
def tryForwardWith (env : Platform) (policy : ProxyPolicy) (upstreamUri : Uri) (req : Request)
    (send : Request → Option SendOutcome) : Option Response := do
  match ← forwardStart env policy upstreamUri req with
  | .rejected res => some res
  | .sending s =>
    let outcome ← send s.forwardReq
    (s.tryFinish env policy outcome).map (·.response)

/-- The request that the closure of `proxy_request_on_stream` sends over the stream. -/
def streamRequest (lib : UriLib) (request : Request) : Option Request := do
  let uri ← lib.parse ((request.uri.pathAndQuery?.map (·.asStr)).getD ['/'])
  some { request with uri, version := .http11 }

/-- `proxy_request_on_stream` over a stream whose other end answers `exchange`. -/
def proxyRequestOnStream (env : Platform) (lib : UriLib) (policy : ProxyPolicy) (upstreamUri : Uri)
    (req : Request)
    (exchange : Request → SendOutcome) : Option Response :=
  tryForwardWith env policy upstreamUri req fun request => (streamRequest lib request).map exchange

variable {env : Platform} {lib : UriLib} {policy : ProxyPolicy} {uri : Uri} {req : Request} {s : Sending}
  {scheme : Scheme} {a : Authority} {p : Str} {q : Option Str}

/-! ### `forward_with` -/

/-- The handle is there whenever a handshake is accepted. -/
theorem Sending.tryFinish_eq (o : SendOutcome) :
    s.tryFinish env policy o = some (s.finish env policy o) := by
  cases o with
  | response res =>
    simp only [tryFinish, finish]
    split
    · cases hup : s.upgrading with
      | false => rfl
      | true => simp only [downstreamUpgrade, hup]; split <;> rfl
    · rfl
  | error e => rfl
  | elapsed => rfl

theorem tryForwardWith_of_rejected {res : Response} (h : earlyReject policy req = some res)
    (send : Request → Option SendOutcome) : tryForwardWith env policy uri req send = some res := by
  simp only [tryForwardWith, forwardStart, h]
  rfl

theorem tryForwardWith_of_sending (h : forwardStart env policy uri req = some (.sending s))
    (send : Request → Option SendOutcome) :
    tryForwardWith env policy uri req send =
      (send s.forwardReq).map fun o => (s.finish env policy o).response := by
  simp only [tryForwardWith, h, Option.bind_eq_bind, Option.bind_some, Sending.tryFinish_eq]
  cases send s.forwardReq <;> rfl

/-- Nothing in `forward_with` itself can panic. -/
theorem tryForwardWith_some (send : Request → SendOutcome) :
    tryForwardWith env policy uri req (fun request => some (send request)) =
      forwardWith env policy uri req send ∧
      (forwardWith env policy uri req send).isSome = true := by
  rcases forwardStart_eq env policy uri req with ⟨res, he, hs⟩ | ⟨u, -, -, hs⟩
  · rw [tryForwardWith_of_rejected he, forwardWith, hs]
    exact ⟨rfl, rfl⟩
  · rw [tryForwardWith_of_sending hs, forwardWith, hs]
    exact ⟨rfl, rfl⟩

/-! ### The request target -/

theorem UriLib.ReadsForms.parse_query_only (hforms : lib.ReadsForms) (q : Str) :
    lib.parse ('?' :: q) = none := by
  rw [Option.eq_none_iff_forall_ne_some]
  intro u h
  rcases hforms.parse_other (by simp) (by simp) h with ⟨-, ha⟩ | ⟨sch, rest, hsch, heq⟩
  · cases ha
  · cases sch with
    | nil => cases (List.cons.inj heq).1
    | cons c sch =>
      rw [List.cons_append, List.cons_append] at heq
      obtain ⟨rfl, -⟩ := List.cons.inj heq
      exact absurd (List.all_eq_true.1 hsch _ (List.mem_cons_self ..)) (by decide)

theorem parse_path (hlib : lib.Lawful) (hforms : lib.ReadsForms) (hp : lib.IsPath p) (hq : lib.IsQuery q) :
    lib.parse (p ++ queryText q) = some (.origin ⟨p ++ queryText q⟩) := by
  rw [hforms.parse_slash (by rw [List.head?_append_of_ne_nil _ hp.ne_nil, hp.1]),
    hlib.parsePathAndQuery_eq hp hq]
  rfl

theorem requestTarget_origin (hlib : lib.Lawful) (hp : lib.IsPath p) :
    (Uri.origin ⟨p ++ queryText q⟩).requestTarget = p ++ queryText q := by
  have hm := hp.question_not_mem hlib
  show [] ++ [] ++ (⟨p ++ queryText q⟩ : PathAndQuery).path ++
    queryText (⟨p ++ queryText q⟩ : PathAndQuery).query = _
  rw [PathAndQuery.path_mk hm hp.ne_nil, PathAndQuery.query_mk hm]
  rfl

/-- What the send sees of the upstream URI is its path and query. -/
theorem pathAndQuery_of_sending (h : forwardStart env policy uri req = some (.sending s)) :
    s.forwardReq.uri.pathAndQuery? = uri.pathAndQuery? := by
  obtain ⟨-, u, hu, rfl⟩ := forwardStart_sending h
  show u.pathAndQuery? = _
  unfold sendUri at hu
  split at hu
  · cases uri with
    | absolute s a pq =>
      unfold upgradeScheme at hu
      simp only at hu
      split at hu <;> (cases hu; rfl)
    | origin pq => cases hu; rfl
    | authority a => cases hu; rfl
  · cases hu; rfl

theorem streamRequest_isSome_iff (hlib : lib.Lawful) (hforms : lib.ReadsForms)
    (ht : (RequestTarget.absolute scheme a p q).Valid lib)
    (h : forwardStart env policy (RequestTarget.absolute scheme a p q).uri req = some (.sending s)) :
    (∃ r, streamRequest lib s.forwardReq = some r ∧
        r.uri.requestTarget = (RequestTarget.absolute scheme a p q).uri.path ++ queryText q) ↔ p ≠ [] ∨
          q = none := by
  have hpq : s.forwardReq.uri.pathAndQuery? = some ⟨p ++ queryText q⟩ := pathAndQuery_of_sending h
  obtain ⟨hp, hq⟩ := ht
  have hsome : ∀ {p' : Str}, lib.IsPath p' → (⟨p ++ queryText q⟩ : PathAndQuery).asStr = p' ++ queryText q →
      (RequestTarget.absolute scheme a p q).uri.path = p' → ∃ r, streamRequest lib s.forwardReq = some r ∧
        r.uri.requestTarget = (RequestTarget.absolute scheme a p q).uri.path ++ queryText q := by
    intro p' hp' hstr hpath
    refine ⟨{ s.forwardReq with uri := .origin ⟨p' ++ queryText q⟩, version := .http11 }, ?_, ?_⟩
    · simp only [streamRequest, hpq, Option.map_some, Option.getD_some, hstr, parse_path hlib hforms hp' hq,
        Option.bind_eq_bind, Option.bind_some]
    · rw [hpath]
      exact requestTarget_origin hlib hp'
  rcases hp with rfl | hp
  · cases q with
    | none => exact iff_of_true (hsome hlib.isPath_slash rfl rfl) (.inr rfl)
    | some q =>
      refine iff_of_false ?_ (by simp)
      rintro ⟨r, hr, -⟩
      have hnone : streamRequest lib s.forwardReq = none := by
        simp only [streamRequest, hpq, Option.map_some, Option.getD_some]
        show (lib.parse ('?' :: q)).bind _ = none
        rw [hforms.parse_query_only, Option.bind_none]
      rw [hnone] at hr
      cases hr
  · refine iff_of_true (hsome hp (if_neg (List.append_ne_nil_of_left_ne_nil hp.ne_nil _)) ?_)
      (.inl hp.ne_nil)
    exact PathAndQuery.path_mk (hp.question_not_mem hlib) hp.ne_nil

/-- Forwarding over a supplied stream never panics, and the path and query of the URI are the request
target, exactly when the request is rejected early or the URI has a path or no query. -/
theorem stream_forwarding_total_iff (hlib : lib.Lawful) (hforms : lib.ReadsForms)
    (ht : (RequestTarget.absolute scheme a p q).Valid lib) :
    ((∀ send, (forwardWith env policy (RequestTarget.absolute scheme a p q).uri req send).isSome = true) ∧
      (∀ exchange, (proxyRequestOnStream env lib policy (RequestTarget.absolute scheme a p q).uri req
        exchange).isSome =
        true) ∧
      ∀ s, forwardStart env policy (RequestTarget.absolute scheme a p q).uri req = some (.sending s) →
        ∃ r, streamRequest lib s.forwardReq = some r ∧
          r.uri.requestTarget = (RequestTarget.absolute scheme a p q).uri.path ++ queryText q) ↔
      earlyReject policy req ≠ none ∨ p ≠ [] ∨ q = none := by
  rcases forwardStart_eq env policy (RequestTarget.absolute scheme a p q).uri req with ⟨res, he,
    hs⟩ | ⟨u, he, -, hs⟩
  · refine iff_of_true ⟨fun send => (tryForwardWith_some send).2, fun exchange => ?_,
      fun s h => ?_⟩ (.inl (by simp [he]))
    · rw [proxyRequestOnStream, tryForwardWith_of_rejected he]
      rfl
    · rw [hs] at h
      cases h
  · rw [he, or_iff_right (not_not.2 rfl), ← streamRequest_isSome_iff hlib hforms ht hs]
    constructor
    · rintro ⟨-, -, h⟩
      exact h _ hs
    · rintro ⟨r, hr, htarget⟩
      refine ⟨fun send => (tryForwardWith_some send).2, fun exchange => ?_, fun s h => ?_⟩
      · rw [proxyRequestOnStream, tryForwardWith_of_sending hs, hr]
        rfl
      · rw [hs] at h
        cases h
        exact ⟨r, hr, htarget⟩

/-- A request for `http://h/a?q` over a stream. -/
theorem stream_forwarding_total_iff_path :
    let uri := (RequestTarget.absolute .http ⟨['h'], rfl⟩ "/a".toList (some ['q'])).uri
    (proxyRequestOnStream ⟨64, fun _ => []⟩ .plain {} uri (.new (.fromStr ""))
      fun _ => .elapsed).isSome = true :=
  ((stream_forwarding_total_iff UriLib.plain_lawful UriLib.plain_readsForms (by decide)).2
    (.inr (.inl (by decide)))).2.1 _

/-- A request for `http://h?q` over a stream panics. -/
theorem stream_query_only_panics :
    let uri := (RequestTarget.absolute .http ⟨['h'], rfl⟩ [] (some ['q'])).uri
    UriLib.plain.parse "http://h?q".toList = some uri ∧
      (proxyRequestOnStream ⟨64, fun _ => []⟩ .plain {} uri (.new (.fromStr ""))
        fun _ => .elapsed) = none := by
  refine ⟨by decide, ?_⟩
  rfl

end AxumReverseProxy
