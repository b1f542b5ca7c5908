import AxumReverseProxy.Proxy.Confinement
import AxumReverseProxy.RouterExt.Route

/-!
# Where a route sends to

Whatever the resolver, the client decides on nothing but the end of the path and a query that the
target leaves open: scheme, authority and the front of the path are the target's
(`proxy_route_confined`).
-/

namespace AxumReverseProxy

namespace UriLib

/-- The query of a parsed URI is made of the characters that may stand in one. -/
def KeepsQuery (lib : UriLib) : Prop := ∀ s u, lib.parse s = some u → lib.IsQuery u.query

end UriLib

variable {lib : UriLib} {env : Platform} {target : TargetResolver} {params : List (Str × Str)}
  {req : Request} {policy : ProxyPolicy} {routePrefix : Str} {send : Request → SendOutcome} {t u : Uri}
  {a : Authority} {rt : RequestTarget}

def invalidTarget : Response := .withStatus .internalServerError (.fromStr "Invalid proxy target")

theorem UriLib.plain.query_parsed {s : Str} {pq : PathAndQuery} (h : plain.parsePathAndQuery s = some pq) :
    UriLib.plain.IsQuery pq.query := by
  obtain ⟨-, -, hall⟩ := plain.parsePathAndQuery_eq_some h
  intro q hq
  obtain ⟨⟨p, q'⟩, hsplit, rfl⟩ := Option.map_eq_some_iff.1 hq
  unfold Str.splitOnce at hsplit
  cases hd : pq.data.dropWhile (· ≠ '?') with
  | nil => rw [hd] at hsplit; cases hsplit
  | cons c l =>
    rw [hd] at hsplit hall
    cases hsplit
    rw [List.all_cons, Bool.and_eq_true] at hall
    exact hall.2

theorem UriLib.plain_keepsQuery : UriLib.plain.KeepsQuery := by
  intro s u h
  have h : plain.parse s = some u := h
  unfold plain.parse at h
  split at h
  · obtain ⟨pq, hpq, rfl⟩ := Option.map_eq_some_iff.1 h
    exact plain.query_parsed hpq
  · rcases plain.parse_cases (t := s) (u := u) (by unfold plain.parse; rwa [if_neg (by assumption)]) with
      ⟨pq, rfl⟩ | ⟨a, rfl, -⟩ | ⟨sch, rest, sc, a, pq, -, rfl, -, -, hpq⟩
    · -- only a text with a slash in front is read so
      split at h
      · simp only [Option.bind_eq_bind, Option.bind_eq_some_iff] at h
        obtain ⟨_, -, _, -, _, -, h⟩ := h
        cases h
      · obtain ⟨a, -, h⟩ := Option.map_eq_some_iff.1 h
        cases h
    · exact fun _ hq => by cases hq
    · exact plain.query_parsed hpq

/-! ### The handler -/

/-- What a route with the given prefix appends for a request, if anything. -/
def appendPath (target : TargetResolver) (req : Request) (routePrefix : Str) : Option Str :=
  if target.isBaseUrl then some (stripRoutePrefix req.uri.path routePrefix) else none

theorem proxyRequest_of_build (ht : lib.parse (target.resolve req params) = some t)
    (hu : buildUpstreamUri lib t req.uri (appendPath target req routePrefix) = some u) :
    proxyRequest env lib target params req policy routePrefix send = forwardWith env policy u req send := by
  unfold appendPath at hu
  simp only [proxyRequest, ht, hu]

theorem proxyRequest_of_not_build (ht : lib.parse (target.resolve req params) = some t)
    (hu : buildUpstreamUri lib t req.uri (appendPath target req routePrefix) = none) :
    proxyRequest env lib target params req policy routePrefix send = some invalidTarget := by
  unfold appendPath at hu
  simp only [proxyRequest, ht, hu]
  rfl

theorem isPath_appendPath (hp : lib.IsPath req.uri.path) :
    (appendPath target req routePrefix).getD [] = [] ∨
      lib.IsPath ((appendPath target req routePrefix).getD []) := by
  unfold appendPath
  split
  · exact isPath_stripRoutePrefix routePrefix hp
  · exact .inl rfl

/-- A path that ends in slashes behind the target path is confined to it. -/
theorem confined_path (hpath : t.path = [] ∨ t.path.head? = some '/') :
    Confined (targetPath t) (if t.path = [] then ['/'] else t.path) := by
  obtain ⟨k, hk⟩ := eq_trimEndMatches_append t.path '/'
  rw [← targetPath] at hk
  split
  · next h =>
    have hT : targetPath t = [] := by rw [targetPath, h]; rfl
    rw [hT]
    exact confined_append [] rfl
  · next h =>
    have hhead := hpath.resolve_left h
    cases k with
    | zero =>
      rw [List.replicate_zero, List.append_nil] at hk
      rw [← hk]
      exact ⟨.inl rfl, fun _ => hhead⟩
    | succ k =>
      rw [hk, List.replicate_succ]
      exact confined_append _ rfl

theorem confined_routePath {r : Str} (hpath : t.path = [] ∨ t.path.head? = some '/')
    (hr : r = [] ∨ r.head? = some '/') :
    Confined (targetPath t) (routePath t r) := by
  unfold routePath
  split
  · next h => exact confined_append _ (hr.resolve_left h)
  · exact confined_path hpath

/-- A route answers a target without a host, or one that cannot be read, with a 500 and sends nothing. Any
other request is forwarded to the scheme and the authority of the target, at a path that continues the
target's, and with the query of the target if it has one. Where the target is no base URL the path is the
target's own. -/
theorem proxy_route_confined (hlib : lib.Lawful) (hempty : lib.KeepsEmptyPath) (hquery : lib.KeepsQuery)
    (huri : req.uri = rt.uri) (hvalid : rt.Valid lib) (hp : req.uri.path.head? = some '/') :
    (((lib.parse (target.resolve req params)).bind Uri.authority?) = none →
      proxyRequest env lib target params req policy routePrefix send = some invalidTarget) ∧
    ∀ t a, lib.parse (target.resolve req params) = some t → t.authority? = some a →
      ∃ u, proxyRequest env lib target params req policy routePrefix send =
        forwardWith env policy u req send ∧
        u.scheme? = some (t.scheme?.getD .http) ∧ u.authority? = some a ∧
          u.query = t.query.or req.uri.query ∧
        Confined (targetPath t) u.path ∧
        (target.isBaseUrl = false → u.path = if t.path = [] then ['/'] else t.path) := by
  constructor
  · intro hno
    cases ht : lib.parse (target.resolve req params) with
    | none =>
      unfold proxyRequest
      rw [ht]
      rfl
    | some t =>
      rw [ht, Option.bind_some] at hno
      refine proxyRequest_of_not_build ht ?_
      simp only [buildUpstreamUri, hno, Option.bind_eq_bind, Option.bind_none]
  · intro t a ht ha
    rw [huri] at hp
    obtain ⟨hpath, hq⟩ := rt.isPath_of_valid hlib hvalid hp
    rw [← huri] at hpath hq
    have hor : lib.IsQuery (t.query.or req.uri.query) := by
      cases htq : t.query with
      | none => exact hq
      | some q =>
        have hkept := hquery _ _ ht
        rw [htq] at hkept
        exact hkept
    have hext := @isPath_appendPath lib target req routePrefix hpath
    obtain ⟨u, hu, hscheme, hauth, hup, huq⟩ := buildUpstreamUri_spec hlib hempty ht ha hor hext
    have htp : t.path = [] ∨ t.path.head? = some '/' := (hlib.isPath_of_parse ht ha).imp id (·.1)
    refine ⟨u, proxyRequest_of_build ht hu, hscheme, hauth, huq, ?_, fun hbase => ?_⟩
    · rw [hup]
      exact confined_routePath htp (hext.imp id (·.1))
    · rw [hup, appendPath, hbase]
      rfl

/-- `/api/x?q` behind the target `/v1?k=1`: its query gives way. -/
theorem proxy_route_confined_query :
    let env : Platform := ⟨64, fun _ => []⟩
    let req : Request := { Request.new (.fromBytes []) with uri := .origin ⟨"/api/x?q".toList⟩ }
    ∃ u, proxyRequest env UriLib.plain (.ofString "http://up/v1?k=1".toList) [] req {} "/api".toList
      (fun _ => .elapsed) =
        forwardWith env {} u req (fun _ => .elapsed) ∧
      u.authority? = some ⟨"up".toList, rfl⟩ ∧ u.query = some "k=1".toList ∧
        Confined "/v1".toList u.path := by
  intro env req
  obtain ⟨-, hsent⟩ := @proxy_route_confined UriLib.plain env (.ofString "http://up/v1?k=1".toList) [] req
    {} "/api".toList
    (fun _ => .elapsed) (.origin "/api/x".toList (some "q".toList)) UriLib.plain_lawful
      UriLib.plain_keepsEmptyPath
    UriLib.plain_keepsQuery rfl (by decide) rfl
  obtain ⟨u, hu, -, hauth, hquery, hpath, -⟩ := hsent _ _ rfl rfl
  exact ⟨u, hu, hauth, hquery, hpath⟩

end AxumReverseProxy
