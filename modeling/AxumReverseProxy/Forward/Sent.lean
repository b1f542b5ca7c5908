import AxumReverseProxy.Forward.With

/-!
# What is sent upstream

`forwardStart_eq` says what an attempt comes to before its send: an early rejection, or a send whose
header map is the forwarding headers with a `Host` (`sentHeaders`). The rest of the file gives the
lines of a field in that map, one group of fields at a time.
-/

namespace AxumReverseProxy

open HeaderName

variable {env : Platform} {policy : ProxyPolicy} {uri : Uri} {req : Request} {s : Sending} {res : Response}
  {n : HeaderName} {client client' : HeaderMap} {addr : Option SocketAddr} {auth : Option Str} {up : Bool}

/-! ### The send -/

theorem Authority.visible (a : Authority) : a.str.Visible := by
  intro c hc
  have h := List.all_eq_true.1 a.valid c hc
  simp only [isUriChar, Bool.or_eq_true, decide_eq_true_eq] at h
  rcases h with h | h
  · have ht : isTchar c = true := by simp [isTchar, h]
    have := toNat_of_isTchar ht
    simp only [Str.isVisibleAscii, Bool.or_eq_true, Bool.and_eq_true, decide_eq_true_eq]
    omega
  · exact (by decide : ∀ c ∈ "-._~:/?#[]@!$&'()*+,;=%".toList, Str.isVisibleAscii c = true) c h

/-- A `Host` for the upstream, where the forwarded headers have none. -/
def withHost (headers : HeaderMap) (authority : Option Authority) : HeaderMap :=
  if headers.containsKey host then headers
  else match authority with
    | some a => headers.insert host (.ofVisible a.str a.visible)
    | none => headers

def sentHeaders (policy : ProxyPolicy) (uri : Uri) (up : Bool) (req : Request) : HeaderMap :=
  withHost (forwardHeaders policy up req) uri.authority?

theorem requestHeaders_eq : requestHeaders policy uri up req = some (sentHeaders policy uri up req) := by
  unfold requestHeaders sentHeaders withHost
  simp only
  generalize forwardHeaders policy up req = headers
  by_cases hk : headers.containsKey host = true
  · rw [if_pos hk, if_pos hk]
  · rw [if_neg hk, if_neg hk]
    cases uri.authority? with
    | none => rfl
    | some a =>
      have hget : headers.get host = none :=
        MultiMap.get_eq_none_iff.2 (MultiMap.containsKey_false_iff.1 (by simpa using hk))
      have hf : policy.forwardedHost headers none a.str = a.str := by
        simp [ProxyPolicy.forwardedHost, hget]
      simp only [hf, HeaderValue.fromStr_of_visible a.visible, Option.map_some]

theorem upgradeScheme_isSome (uri : Uri) :
    ∃ u, upgradeScheme uri = some u ∧ u.authority? = uri.authority? := by
  unfold upgradeScheme
  cases uri with
  | absolute s a pq =>
    simp only
    split
    · exact ⟨_, rfl, rfl⟩
    · exact ⟨_, rfl, rfl⟩
  | origin pq => exact ⟨_, rfl, rfl⟩
  | authority a => exact ⟨_, rfl, rfl⟩

theorem sendUri_isSome (uri : Uri) (up : Bool) :
    ∃ u, sendUri uri up = some u ∧ u.authority? = uri.authority? := by
  cases up with
  | false => exact ⟨uri, rfl, rfl⟩
  | true => exact upgradeScheme_isSome uri

theorem forwardStart_eq (env : Platform) (policy : ProxyPolicy) (uri : Uri) (req : Request) :
    (∃ res, earlyReject policy req = some res ∧ forwardStart env policy uri req = some (.rejected res)) ∨
      ∃ u, earlyReject policy req = none ∧ sendUri uri (isWebsocketUpgrade req.headers) = some u ∧
        forwardStart env policy uri req = some (.sending (sendingOf env policy u
          (sentHeaders policy uri (isWebsocketUpgrade req.headers) req) req)) := by
  cases he : earlyReject policy req with
  | some res => exact .inl ⟨res, rfl, by rw [forwardStart, he]⟩
  | none =>
    obtain ⟨u, hu, ha⟩ := sendUri_isSome uri (isWebsocketUpgrade req.headers)
    have hs : sentHeaders policy u (isWebsocketUpgrade req.headers) req =
        sentHeaders policy uri (isWebsocketUpgrade req.headers) req := by rw [sentHeaders, ha, sentHeaders]
    refine .inr ⟨u, rfl, hu, ?_⟩
    simp only [forwardStart, he, hu, requestHeaders_eq, Option.bind_eq_bind, Option.bind_some, hs]

theorem forwardStart_sending (h : forwardStart env policy uri req = some (.sending s)) :
    earlyReject policy req = none ∧ ∃ u, sendUri uri (isWebsocketUpgrade req.headers) = some u ∧
      s = sendingOf env policy u (sentHeaders policy uri (isWebsocketUpgrade req.headers) req) req := by
  rcases forwardStart_eq env policy uri req with ⟨res, -, h'⟩ | ⟨u, he, hu, h'⟩
  · rw [h'] at h; cases h
  · rw [h'] at h; cases h; exact ⟨he, u, hu, rfl⟩

theorem headers_of_sending (h : forwardStart env policy uri req = some (.sending s)) :
    s.forwardReq.headers = sentHeaders policy uri (isWebsocketUpgrade req.headers) req := by
  obtain ⟨-, u, -, rfl⟩ := forwardStart_sending h; rfl

theorem forwardStart_of_not_rejected (h : earlyReject policy req = none) :
    ∃ s, forwardStart env policy uri req = some (.sending s) := by
  rcases forwardStart_eq env policy uri req with ⟨res, he, -⟩ | ⟨u, -, -, hs⟩
  · rw [h] at he; cases he
  · exact ⟨_, hs⟩

/-! ### Fields the proxy does not manage -/

theorem getAll_withHost_ne {headers : HeaderMap} {a : Option Authority} (h : n ≠ host) :
    (withHost headers a).getAll n = headers.getAll n := by
  unfold withHost
  split
  · rfl
  · cases a with
    | none => rfl
    | some a => exact MultiMap.getAll_insert_ne h

theorem getAll_policyVia_ne {headers : HeaderMap} {version : Version} (h : n ≠ via) :
    (policy.appendVia headers version).getAll n = headers.getAll n := by
  unfold ProxyPolicy.appendVia
  split
  · exact getAll_appendVia_ne _ h
  · rfl

theorem getAll_upgrading_ne {headers : HeaderMap} (hc : n ≠ connection) (hu : n ≠ upgrade) :
    (if up = true then upgradeHeaders headers else headers).getAll n = headers.getAll n := by
  split
  · exact getAll_upgradeHeaders_ne hc hu
  · rfl

/-- The fields the policy has the proxy write itself, `Host` included. -/
def managedFields (policy : ProxyPolicy) (addr : Option SocketAddr) : List HeaderName :=
  forwardingFields policy addr ++ if policy.via.isSome then [via] else []

theorem getAll_sentHeaders_of_unmanaged (h : n ∉ managedFields policy req.extensions.connectInfo)
    (hc : n ≠ connection) (hu : n ≠ upgrade) :
    (sentHeaders policy uri up req).getAll n = (copyClientHeaders req.headers policy).getAll n := by
  rw [managedFields, List.mem_append, not_or] at h
  have hh : n ≠ host := by rintro rfl; exact h.1 (List.mem_cons_self ..)
  have hvia : (policy.appendVia (buildForwardHeaders req.headers req.extensions.connectInfo
      (req.uri.authority?.map (·.str)) policy) req.version).getAll n =
        (copyClientHeaders req.headers policy).getAll n := by
    cases hp : policy.via with
    | none => rw [ProxyPolicy.appendVia, hp]; exact getAll_buildForwardHeaders_of_not_mem h.1
    | some p =>
      have hn : n ≠ via := by rintro rfl; simp [hp] at h
      rw [getAll_policyVia_ne hn]; exact getAll_buildForwardHeaders_of_not_mem h.1
  rw [sentHeaders, getAll_withHost_ne hh, forwardHeaders, getAll_upgrading_ne hc hu, hvia]

/-! ### Standard fields -/

theorem getAll_copy_of_standard (h : n ∈ HOP_BY_HOP_HEADERS) (hte : n ≠ te) :
    (copyClientHeaders client policy).getAll n = [] :=
  getAll_copyClientHeaders_of_mem (mem_hopByHopHeaders.2 (.inl ⟨h, fun hc => hte hc.1⟩))

theorem not_standard_of_managed : ∀ n ∈ managedFields policy addr, n ∉ HOP_BY_HOP_HEADERS := by
  unfold managedFields forwardingFields
  refine List.forall_mem_append.2 ⟨List.forall_mem_cons.2 ⟨by decide, ?_⟩, ?_⟩
  · split
    · refine List.forall_mem_cons.2 ⟨by decide, List.forall_mem_cons.2 ⟨by decide, ?_⟩⟩
      split <;> decide
    · decide
  · split <;> decide

theorem not_mem_managedFields_of_standard (h : n ∈ HOP_BY_HOP_HEADERS) : n ∉ managedFields policy addr :=
  fun hm => not_standard_of_managed n hm h

theorem getAll_sentHeaders_te :
    (sentHeaders policy uri up req).getAll te = (copyClientHeaders req.headers policy).getAll te :=
  getAll_sentHeaders_of_unmanaged (not_mem_managedFields_of_standard (by decide)) (by decide) (by decide)

theorem getAll_sentHeaders_pair :
    (sentHeaders policy uri up req).getAll connection =
        (if up = true then [.fromStatic "upgrade"] else []) ∧
      (sentHeaders policy uri up req).getAll upgrade =
        if up = true then [.fromStatic "websocket"] else [] := by
  have hcopy : ∀ n ∈ [connection, upgrade],
      (policy.appendVia (buildForwardHeaders req.headers req.extensions.connectInfo
        (req.uri.authority?.map (·.str)) policy) req.version).getAll n = [] := by
    intro n hn
    have hstd : n ∈ HOP_BY_HOP_HEADERS ∧ n ≠ te ∧ n ≠ via :=
      (by decide : ∀ m ∈ [connection, upgrade], m ∈ HOP_BY_HOP_HEADERS ∧ m ≠ te ∧ m ≠ via) n hn
    have hm : n ∉ managedFields policy req.extensions.connectInfo :=
      not_mem_managedFields_of_standard hstd.1
    rw [getAll_policyVia_ne hstd.2.2,
      getAll_buildForwardHeaders_of_not_mem fun h => hm (List.mem_append_left _ h),
      getAll_copy_of_standard hstd.1 hstd.2.1]
  rw [sentHeaders, getAll_withHost_ne (by decide), getAll_withHost_ne (by decide), forwardHeaders]
  cases up with
  | false => exact ⟨hcopy connection (by decide), hcopy upgrade (by decide)⟩
  | true => exact ⟨getAll_upgradeHeaders_connection, getAll_upgradeHeaders_upgrade⟩

end AxumReverseProxy
