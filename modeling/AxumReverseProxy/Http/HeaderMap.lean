import AxumReverseProxy.Lib.MultiMap
import AxumReverseProxy.Http.HeaderValue

/-!
# `http::HeaderMap`

A header map is a multi-map from field names to field values. The field names the crate spells out
are constants of `HeaderName`.
-/

namespace AxumReverseProxy

abbrev HeaderMap := MultiMap HeaderName HeaderValue

namespace HeaderName

/-- `HeaderName::try_from`: a token, lower-cased. -/
def tryFrom (s : Str) : Option HeaderName :=
  let t := s.map Char.toLower
  if h : Str.IsToken t ∧ t.map Char.toLower = t then some ⟨t, h⟩ else none

/-- `HeaderName::from_static`. -/
def fromStatic (s : String)
    (h : Str.IsToken s.toList ∧ s.toList.map Char.toLower = s.toList := by decide) : HeaderName :=
  ⟨s.toList, h⟩

def connection := fromStatic "connection"
def keepAlive := fromStatic "keep-alive"
def proxyConnection := fromStatic "proxy-connection"
def transferEncoding := fromStatic "transfer-encoding"
def te := fromStatic "te"
def trailer := fromStatic "trailer"
def upgrade := fromStatic "upgrade"
def host := fromStatic "host"
def via := fromStatic "via"
def contentLength := fromStatic "content-length"
def forwarded := fromStatic "forwarded"
def xForwardedFor := fromStatic "x-forwarded-for"
def xForwardedHost := fromStatic "x-forwarded-host"
def xForwardedProto := fromStatic "x-forwarded-proto"
def secWebsocketKey := fromStatic "sec-websocket-key"
def secWebsocketVersion := fromStatic "sec-websocket-version"
def secWebsocketAccept := fromStatic "sec-websocket-accept"
def secWebsocketProtocol := fromStatic "sec-websocket-protocol"
def maxForwards := fromStatic "max-forwards"
def allow := fromStatic "allow"
def authorization := fromStatic "authorization"
def proxyAuthorization := fromStatic "proxy-authorization"
def cookie := fromStatic "cookie"
def setCookie := fromStatic "set-cookie"
def cacheControl := fromStatic "cache-control"
def contentType := fromStatic "content-type"
def contentEncoding := fromStatic "content-encoding"
def accept := fromStatic "accept"
def acceptEncoding := fromStatic "accept-encoding"
def acceptLanguage := fromStatic "accept-language"
def range := fromStatic "range"
def etag := fromStatic "etag"

variable {s : Str} {n : HeaderName}

theorem tryFrom_eq_some_iff : tryFrom s = some n ↔ s.map Char.toLower = n.str := by
  rw [tryFrom, Option.dite_none_right_eq_some]
  constructor
  · rintro ⟨hv, h⟩
    cases h; rfl
  · intro h
    have hv := n.valid
    refine ⟨by rwa [h], ?_⟩
    cases n
    simp only [Option.some.injEq, HeaderName.mk.injEq]
    exact h

theorem eqIgnoreAsciiCase_iff : s.eqIgnoreAsciiCase n.str = true ↔ tryFrom s = some n := by
  rw [tryFrom_eq_some_iff, Str.eqIgnoreAsciiCase, beq_iff_eq, n.valid.2]

example : tryFrom "X-Internal".toList = some (fromStatic "x-internal") := by decide

end HeaderName

namespace HeaderMap

def readable (headers : HeaderMap) (name : HeaderName) : List Str :=
  (headers.getAll name).filterMap HeaderValue.toStr

variable {headers headers' : HeaderMap} {name : HeaderName}

theorem readable_congr (h : headers.getAll name = headers'.getAll name) :
    headers.readable name = headers'.readable name := by rw [readable, readable, h]

theorem readable_visible {s : Str} (h : s ∈ headers.readable name) : s.Visible := by
  obtain ⟨v, -, hv⟩ := List.mem_filterMap.1 h
  exact HeaderValue.toStr_visible hv

theorem readable_of_getAll_nil (h : headers.getAll name = []) : headers.readable name = [] := by
  rw [readable, h]; rfl

theorem map_latin1_eq_readable (h : ∀ v ∈ headers.getAll name, v.Readable) :
    (headers.getAll name).map HeaderValue.latin1 = headers.readable name := by
  rw [readable]
  generalize headers.getAll name = l at h
  induction l with
  | nil => rfl
  | cons v l ih =>
    rw [List.map_cons, List.filterMap_cons_some (HeaderValue.toStr_of_readable (h v (by simp))),
      ih fun w hw => h w (List.mem_cons_of_mem _ hw)]

end HeaderMap

end AxumReverseProxy
