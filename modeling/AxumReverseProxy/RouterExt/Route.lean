import AxumReverseProxy.Http.RequestTarget
import AxumReverseProxy.Proxy.Mounting
import AxumReverseProxy.RouterExt.Template

/-!
# `proxy_route`

A route strips its literal prefix and joins on its own, without `ReverseProxy`. The two agree on what
is stripped (`remainder_eq_stripRoutePrefix`), the path `/` aside, and on every remainder that is not
empty; `proxy_route_join_iff` says when they agree on the whole.
-/

namespace AxumReverseProxy

/-- What a resolver makes of a request and its path parameters. -/
structure TargetResolver where
  resolve : Request → List (Str × Str) → Str
  isBaseUrl : Bool := false

/-- `impl TargetResolver for String`. -/
def TargetResolver.ofString (url : Str) : TargetResolver := ⟨fun _ _ => url, true⟩

def TemplateTarget.resolver (self : TemplateTarget) : TargetResolver where
  resolve _ params := self.resolve params

/-- The pattern up to its first `{`, without trailing slashes. -/
def routeLiteralPrefix (pattern : Str) : Str :=
  let literal := match pattern.splitOnce '{' with
    | some (literal, _) => literal
    | none => pattern
  literal.trimEndMatches '/'

/-- The path behind the literal part of a route, or all of it. -/
def stripRoutePrefix (path pre : Str) : Str :=
  if pre = [] then path
  else if path.startsWith pre then
    let rem := path.drop pre.length
    if rem = [] ∨ Str.startsWith rem ['/'] then rem else path
  else path

def buildUpstreamUri (lib : UriLib) (target original : Uri) (appendPath : Option Str) : Option Uri := do
  let scheme := (target.scheme?.getD .http).str
  let authority ← target.authority?
  let path := match appendPath with
    | none | some [] => target.path
    | some rest => target.path.trimEndMatches '/' ++ rest
  let pathAndQuery := match target.query.or original.query with
    | some q => path ++ '?' :: q
    | none => path
  lib.build scheme authority.str pathAndQuery

/-- The handler of a route; its `routePrefix` was taken from the pattern. -/
def proxyRequest (env : Platform) (lib : UriLib) (target : TargetResolver) (params : List (Str × Str))
    (req : Request) (policy : ProxyPolicy) (routePrefix : Str) (send : Request → SendOutcome) :
    Option Response :=
  let invalid := Response.withStatus .internalServerError (.fromStr "Invalid proxy target")
  match lib.parse (target.resolve req params) with
  | none => some invalid
  | some targetUri =>
    let appendPath := if target.isBaseUrl then some (stripRoutePrefix req.uri.path routePrefix) else none
    match buildUpstreamUri lib targetUri req.uri appendPath with
    | none => some invalid
    | some upstreamUri => forwardWith env policy upstreamUri req send

/-- `PartialEq` of `http::Uri`; of the stored texts only the path and the query count. -/
def Uri.Same (u v : Uri) : Prop :=
  u.scheme? = v.scheme? ∧ u.authority? = v.authority? ∧ u.path = v.path ∧ u.query = v.query

instance (u v : Uri) : Decidable (u.Same v) := inferInstanceAs (Decidable (_ ∧ _))

/-- A literal route prefix: `/`, or a base path. -/
def IsRoutePrefix (base : Str) : Prop := '{' ∉ base ∧ (base = ['/'] ∨ IsBase base)

instance (base : Str) : Decidable (IsRoutePrefix base) := inferInstanceAs (Decidable (_ ∧ _))

/-- The patterns made of a literal prefix, and the paths axum matches with them. -/
inductive RouteMatches (base : Str) : Str → Str → Prop
  | exact : RouteMatches base base base
  | rest {r : Str} : r ≠ [] → RouteMatches base (base ++ "/\x7b*rest\x7d".toList) (base ++ '/' :: r)
  | rootRest {r : Str} : base = ['/'] → r ≠ [] → RouteMatches base "/\x7b*rest\x7d".toList ('/' :: r)

variable {lib : UriLib} {base target pattern p r : Str} {q : Option Str} {proxy : ReverseProxy} {t : Uri}
  {a : Authority} {req : RequestTarget}

/-! ### What is stripped -/

theorem stripRoutePrefix_eq (p pre : Str) :
    stripRoutePrefix p pre = if pre ≠ [] ∧ Continues pre p then p.drop pre.length else p := by
  unfold stripRoutePrefix
  by_cases hb : pre = []
  · simp [hb]
  · rw [if_neg hb]
    by_cases hs : pre <+: p
    · obtain ⟨r, rfl⟩ := hs
      rw [if_pos (Str.startsWith_iff.2 (List.prefix_append _ _)), List.drop_left]
      refine if_congr ?_ rfl rfl
      rw [continues_append, Str.startsWith_iff]
      cases r <;> simp [hb, eq_comm]
    · rw [if_neg fun h => hs (Str.startsWith_iff.1 h), if_neg]
      rintro ⟨-, h⟩
      obtain ⟨r, rfl, -⟩ := h.eq_append
      exact hs (List.prefix_append _ _)

theorem isPath_stripRoutePrefix (pre : Str) (hp : lib.IsPath p) :
    stripRoutePrefix p pre = [] ∨ lib.IsPath (stripRoutePrefix p pre) := by
  rw [stripRoutePrefix_eq]
  split_ifs with h
  · obtain ⟨r, rfl, hr⟩ := h.2.eq_append
    rw [List.drop_left]
    refine hr.imp id fun hr => ⟨hr, ?_⟩
    have hall := hp.2
    rw [List.all_append, Bool.and_eq_true] at hall
    exact hall.2
  · exact .inr hp

theorem IsBase.stripRoutePrefix_append (hb : IsBase base) (hr : r = [] ∨ r.head? = some '/') :
    stripRoutePrefix (base ++ r) base = r := by
  rw [stripRoutePrefix_eq, if_pos ⟨hb.ne_nil, (continues_append base r).2 hr⟩, List.drop_left]

theorem remainder_eq_stripRoutePrefix (base p : Str) :
    remainder base p =
      if p = ['/'] ∧ base ≠ [] then [] else stripRoutePrefix p (base.trimEndMatches '/') := by
  rw [stripRoutePrefix_eq]; rfl

theorem trimEndMatches_append_slash (s : Str) : (s ++ ['/']).trimEndMatches '/' = s.trimEndMatches '/' :=
  List.rdropWhile_concat_pos _ _ _ (by decide)

theorem routeLiteralPrefix_eq (hb : '{' ∉ base) (hm : RouteMatches base pattern p) :
    routeLiteralPrefix pattern = base.trimEndMatches '/' := by
  unfold routeLiteralPrefix
  cases hm with
  | exact =>
    have h : base.splitOnce '{' = none := by
      unfold Str.splitOnce
      rw [List.dropWhile_eq_nil_iff.2 (decide_ne_of_not_mem hb)]
    rw [h]
  | rest hr =>
    have he : base ++ "/\x7b*rest\x7d".toList = (base ++ ['/']) ++ '{' :: "*rest\x7d".toList := by
      rw [List.append_assoc]; rfl
    rw [he, Str.splitOnce_append (by simpa using hb)]
    exact trimEndMatches_append_slash base
  | rootRest hroot hr => subst hroot; decide

theorem RouteMatches.head?_eq (hb : base = ['/'] ∨ IsBase base) (hm : RouteMatches base pattern p) :
    p.head? = some '/' := by
  have h : base.head? = some '/' := hb.elim (fun h => by rw [h]; rfl) (·.1)
  cases hm with
  | exact => exact h
  | rest hr => rw [List.head?_append, h]; rfl
  | rootRest => rfl

/-! ### What is joined -/

/-- The path a route sends a stripped path to. -/
def routePath (target : Uri) (r : Str) : Str :=
  if r ≠ [] then targetPath target ++ r else if target.path = [] then ['/'] else target.path

theorem buildUpstreamUri_spec {u : Uri} {appendPath : Option Str} (hlib : lib.Lawful)
    (hempty : lib.KeepsEmptyPath)
    (ht : lib.parse target = some t) (ha : t.authority? = some a) (hq : lib.IsQuery (t.query.or u.query))
    (hr : appendPath.getD [] = [] ∨ lib.IsPath (appendPath.getD [])) :
    ∃ v, buildUpstreamUri lib t u appendPath = some v ∧ v.scheme? = some (t.scheme?.getD .http) ∧
      v.authority? = some a ∧ v.path = routePath t (appendPath.getD []) ∧ v.query = t.query.or u.query := by
  have hbuild : buildUpstreamUri lib t u appendPath = lib.build (t.scheme?.getD .http).str a.str
      ((if appendPath.getD [] = [] then t.path else targetPath t ++ appendPath.getD []) ++
        queryText (t.query.or u.query)) := by
    unfold buildUpstreamUri
    rcases appendPath with _ | _ | ⟨c, r⟩
    · cases t.query.or u.query <;> simp [ha, queryText]
    · cases t.query.or u.query <;> simp [ha, queryText]
    · cases t.query.or u.query <;> simp [ha, queryText, targetPath]
  rw [hbuild]
  generalize appendPath.getD [] = r at hr
  by_cases hp : r = [] ∧ t.path = []
  · obtain ⟨rfl, hp⟩ := hp
    refine ⟨.absolute (t.scheme?.getD .http) a ⟨queryText (t.query.or u.query)⟩, ?_, rfl, rfl, ?_, ?_⟩
    · simp [UriLib.build, parseScheme_getD hlib ht, hlib.parseAuthority_of_parse ht ha, hp, hempty _ hq,
        Uri.fromParts]
    · rw [routePath, hp]; cases t.query.or u.query <;> rfl
    · cases t.query.or u.query <;> rfl
  · have hpath : lib.IsPath (if r = [] then t.path else targetPath t ++ r) := by
      split_ifs with h
      · exact (hlib.isPath_of_parse ht ha).resolve_left fun h' => hp ⟨h, h'⟩
      · have hr := hr.resolve_left h
        rcases isPath_targetPath hlib ht ha with hT | hT
        · rwa [hT]
        · exact hT.append hr.2
    have hm := hpath.question_not_mem hlib
    rw [build_eq hlib ht ha hpath hq]
    refine ⟨_, rfl, rfl, rfl, (PathAndQuery.path_mk hm hpath.ne_nil).trans ?_, PathAndQuery.query_mk hm⟩
    unfold routePath
    by_cases h : r = []
    · have h' : t.path ≠ [] := fun h' => hp ⟨h, h'⟩
      simp [h, h']
    · simp [h]

theorem buildUpstreamUri_eq_some (hlib : lib.Lawful) (hempty : lib.KeepsEmptyPath)
    (ht : lib.parse target = some t)
    (ha : t.authority? = some a) (hnq : t.query = none) {u : Uri} (hq : lib.IsQuery u.query)
    (hr : r = [] ∨ lib.IsPath r) :
    ∃ v, buildUpstreamUri lib t u (some r) = some v ∧ v.scheme? = some (t.scheme?.getD .http) ∧
      v.authority? = some a ∧ v.path = routePath t r ∧ v.query = u.query := by
  have hor : t.query.or u.query = u.query := by rw [hnq, Option.none_or]
  rw [← hor] at hq
  have hspec := @buildUpstreamUri_spec _ _ _ _ u (some r) hlib hempty ht ha hq hr
  rwa [hor] at hspec

theorem transformUri_spec (hlib : lib.Lawful) (hnew : ReverseProxy.new lib base target = some proxy)
    (ht : lib.parse target = some t) (ha : t.authority? = some a) (hbase : base ≠ []) (hreq : req.Valid lib)
    (hp : req.uri.path.head? = some '/') :
    ∃ v, proxy.transformUri lib req.uri.pathQ = some v ∧ v.scheme? = some (t.scheme?.getD .http) ∧
      v.authority? = some a ∧ v.path = upstreamPath t (remainder base req.uri.path) ∧
        v.query = req.uri.query := by
  obtain ⟨p, hpq, hq, hcase⟩ := req.pathQ_spec hlib hreq
  have hrem : '?' ∉ p ∧ remainder base p = remainder base req.uri.path ∧
      (remainder base p = [] ∨ lib.IsPath (remainder base p)) := by
    rcases hcase with ⟨hpath, rfl⟩ | ⟨rfl, hpath⟩ | ⟨rfl, rfl⟩
    · exact ⟨hpath.question_not_mem hlib, rfl, isPath_remainder base hpath⟩
    · have hslash : req.uri.path = ['/'] := hpath.resolve_left fun h => by rw [h] at hp; cases hp
      have hnil : remainder base ['/'] = [] := if_pos ⟨rfl, hbase⟩
      exact ⟨by simp, by rw [hslash, hnil, remainder_nil], .inl (remainder_nil base)⟩
    · exact absurd hp (by decide)
  obtain ⟨hm, hr, hpath⟩ := hrem
  rw [hpq, transformUri_of_remainder hlib hnew ht ha hm hpath hq, ← hr]
  have hup := isPath_upstreamPath hlib ht ha hpath
  have hup' := hup.question_not_mem hlib
  exact ⟨_, rfl, rfl, rfl, PathAndQuery.path_mk hup' hup.ne_nil, PathAndQuery.query_mk hup'⟩

/-! ### The two joins -/

theorem eq_trimEndMatches_append (s : Str) (c : Char) :
    ∃ k, s = s.trimEndMatches c ++ List.replicate k c := by
  refine ⟨(s.rtakeWhile (· == c)).length, ?_⟩
  have hall : s.rtakeWhile (· == c) = List.replicate (s.rtakeWhile (· == c)).length c := by
    refine List.eq_replicate_iff.2 ⟨rfl, fun d hd => ?_⟩
    have h := List.mem_rtakeWhile_imp hd
    exact eq_of_beq h
  rw [← hall]
  exact (List.rdropWhile_append_rtakeWhile ..).symm

theorem endsWith_slash_iff {s : Str} : s.endsWith ['/'] = true ↔ s.getLast? = some '/' := by
  rw [Str.endsWith_iff]
  constructor
  · rintro ⟨l, rfl⟩; simp
  · intro h
    obtain ⟨l, rfl⟩ := List.getLast?_eq_some_iff.1 h
    exact ⟨l, rfl⟩

theorem getLast?_of_endsWith {s : Str} (h : s.endsWith ['/', '/'] = true) : s.getLast? = some '/' := by
  obtain ⟨l, rfl⟩ := Str.endsWith_iff.1 h
  simp

theorem routePath_nil_iff (t : Uri) : routePath t [] = upstreamPath t [] ↔
    t.path.endsWith ['/', '/'] = false := by
  have hT : (targetPath t).getLast? ≠ some '/' := Str.getLast?_trimEndMatches_ne t.path '/'
  obtain ⟨k, hk⟩ := eq_trimEndMatches_append t.path '/'
  rw [← targetPath] at hk
  simp only [routePath, upstreamPath, ne_eq, not_true_eq_false, if_false]
  generalize targetPath t = T at hT hk
  rcases k with _ | _ | k
  · rw [List.replicate_zero, List.append_nil] at hk
    have hs : T.endsWith ['/'] = false := by rw [Bool.eq_false_iff, ne_eq, endsWith_slash_iff]; exact hT
    have hss : T.endsWith ['/', '/'] = false := Bool.eq_false_iff.2 fun h => hT (getLast?_of_endsWith h)
    rw [hk]
    by_cases h : T = []
    · subst h; decide
    · simp [h, hs, hss]
  · have hs : (T ++ ['/']).endsWith ['/'] = true := Str.endsWith_iff.2 (List.suffix_append ..)
    have hss : (T ++ ['/']).endsWith ['/', '/'] = false := by
      refine Bool.eq_false_iff.2 fun h => ?_
      obtain ⟨l, hl⟩ := Str.endsWith_iff.1 h
      have : l ++ ['/'] = T := List.append_cancel_right (by simpa using hl)
      rw [← this] at hT
      simp at hT
    rw [hk]
    by_cases h : T = []
    · subst h; decide
    · simp [h, hs, hss]
  · have hss : (T ++ List.replicate (k + 2) '/').endsWith ['/', '/'] = true := by
      rw [List.replicate_add, ← List.append_assoc]
      exact Str.endsWith_iff.2 (List.suffix_append ..)
    rw [hk, hss]
    refine iff_of_false (fun he => ?_) (by decide)
    have hlen := congrArg List.length he
    rw [if_neg (by simp), List.length_append, List.length_replicate] at hlen
    split_ifs at hlen with h1 h2
    · rw [List.length_singleton] at hlen; omega
    · rw [List.length_append, List.length_singleton] at hlen; omega
    · omega

theorem routePath_slash_iff (t : Uri) :
    routePath t ['/'] = upstreamPath t [] ↔ targetPath t = [] ∨ t.path.endsWith ['/'] = true := by
  have h : routePath t ['/'] = targetPath t ++ ['/'] := if_pos (by simp)
  rw [h]
  unfold upstreamPath
  by_cases hT : targetPath t = []
  · simp [hT]
  · by_cases hs : t.path.endsWith ['/'] = true
    · simp [hT, hs]
    · simp [hT, hs]

theorem routePath_of_ne_nil (hr : r ≠ []) : routePath t r = upstreamPath t r := by
  rw [routePath, if_pos hr, upstreamPath, if_pos hr]

theorem RequestTarget.isPath_of_valid (hlib : lib.Lawful) (hreq : req.Valid lib)
    (hp : req.uri.path.head? = some '/') :
    lib.IsPath req.uri.path ∧ lib.IsQuery req.uri.query := by
  obtain ⟨p, -, hq, ⟨h, rfl⟩ | ⟨-, h⟩ | ⟨-, rfl⟩⟩ := req.pathQ_spec hlib hreq
  · exact ⟨h, hq⟩
  · rw [h.resolve_left fun h => by rw [h] at hp; cases hp]
    exact ⟨hlib.isPath_slash, hq⟩
  · exact absurd hp (by decide)

theorem routePath_eq_iff_root (hm : RouteMatches ['/'] pattern p) :
    routePath t (stripRoutePrefix p (Str.trimEndMatches ['/'] '/')) = upstreamPath t (remainder ['/'] p) ↔
      (p = ['/'] → targetPath t = [] ∨ t.path.endsWith ['/'] = true) := by
  have htrim : Str.trimEndMatches ['/'] '/' = [] := by decide
  have hall : ∀ p, stripRoutePrefix p [] = p := fun p => if_pos rfl
  rw [remainder_eq_stripRoutePrefix, htrim, hall]
  cases hm with
  | exact => simp [routePath_slash_iff]
  | rest hr => simp [routePath_of_ne_nil]
  | rootRest _ hr => simp [routePath_of_ne_nil, hr]

theorem IsBase.routePath_eq_iff (hb : IsBase base) (hm : RouteMatches base pattern p) :
    routePath t (stripRoutePrefix p (base.trimEndMatches '/')) = upstreamPath t (remainder base p) ↔
      (p = base → t.path.endsWith ['/', '/'] = false) := by
  have hlen := hb.two_le_length
  have hroot : base ≠ ['/'] := hb.2.2
  rw [remainder_eq_stripRoutePrefix, hb.trimEndMatches_eq]
  cases hm with
  | exact =>
    have hs : stripRoutePrefix base base = [] := by
      simpa using hb.stripRoutePrefix_append (r := []) (.inl rfl)
    rw [hs, if_neg (fun h => hroot h.1), routePath_nil_iff]
    simp
  | @rest r hr =>
    have hne : ¬ (base ++ '/' :: r = ['/'] ∧ base ≠ []) := fun h => by
      have := congrArg List.length h.1
      simp only [List.length_append, List.length_cons, List.length_nil] at this
      omega
    rw [hb.stripRoutePrefix_append (.inr rfl), if_neg hne]
    refine iff_of_true (routePath_of_ne_nil (by simp)) fun h => ?_
    simp at h
  | rootRest h => exact absurd h hroot

/-- A route and a proxy under the same prefix send a request to the same URI, but for the bare prefix:
under `/` the target must have no path or end in a slash, under another prefix it must not end in two. -/
theorem proxy_route_join_iff (hlib : lib.Lawful) (hempty : lib.KeepsEmptyPath) (hbase : IsRoutePrefix base)
    (hnew : ReverseProxy.new lib base target = some proxy) (ht : lib.parse target = some t)
    (hnq : t.query = none)
    (hreq : req.Valid lib) (hm : RouteMatches base pattern req.uri.path) :
    (∃ u v, buildUpstreamUri lib t req.uri
          (some (stripRoutePrefix req.uri.path (routeLiteralPrefix pattern))) = some u ∧
        proxy.transformUri lib req.uri.pathQ = some v ∧ u.Same v) ↔
      (req.uri.path = base →
        if base = ['/'] then targetPath t = [] ∨ t.path.endsWith ['/'] = true
        else t.path.endsWith ['/', '/'] = false) := by
  obtain ⟨t', a, ht', ha, -⟩ := new_eq_some hnew
  obtain rfl : t' = t := Option.some.inj (ht'.symm.trans ht)
  have hne : base ≠ [] := hbase.2.elim (fun h => by simp [h]) IsBase.ne_nil
  have hp := hm.head?_eq hbase.2
  rw [routeLiteralPrefix_eq hbase.1 hm]
  obtain ⟨v, hv, hvs, hva, hvp, hvq⟩ := transformUri_spec hlib hnew ht ha hne hreq hp
  have hpath := req.isPath_of_valid hlib hreq hp
  have hstrip := isPath_stripRoutePrefix (base.trimEndMatches '/') hpath.1
  obtain ⟨u, hu, hus, hua, hup, huq⟩ := buildUpstreamUri_eq_some hlib hempty ht ha hnq (u := req.uri)
    hpath.2 hstrip
  have hsame : (∃ u v, buildUpstreamUri lib t' req.uri
        (some (stripRoutePrefix req.uri.path (base.trimEndMatches '/'))) = some u ∧
      proxy.transformUri lib req.uri.pathQ = some v ∧ u.Same v) ↔
      routePath t' (stripRoutePrefix req.uri.path (base.trimEndMatches '/')) =
        upstreamPath t' (remainder base req.uri.path) := by
    rw [← hup, ← hvp]
    constructor
    · rintro ⟨u', v', hu', hv', hs⟩
      rw [hu, Option.some.injEq] at hu'
      rw [hv, Option.some.injEq] at hv'
      rw [hu', hv']
      exact hs.2.2.1
    · intro h
      exact ⟨u, v, hu, hv, hus.trans hvs.symm, hua.trans hva.symm, h, huq.trans hvq.symm⟩
  rw [hsame]
  rcases hbase.2 with rfl | hb
  · rw [if_pos rfl]
    exact routePath_eq_iff_root hm
  · rw [if_neg hb.2.2]
    exact hb.routePath_eq_iff hm

/-- `/x` of `/{*rest}`, and of the base `/`. -/
theorem proxy_route_join_iff_root :
    ∃ u v, buildUpstreamUri UriLib.plain (.absolute .http ⟨"up".toList, rfl⟩ ⟨"/v1//".toList⟩)
          (RequestTarget.origin "/x".toList none).uri
          (some (stripRoutePrefix "/x".toList (routeLiteralPrefix "/\x7b*rest\x7d".toList))) = some u ∧
        (⟨['/'], "http://up/v1//".toList, "http".toList, "up".toList, "/v1".toList, true,
          {}⟩ : ReverseProxy).transformUri
          UriLib.plain (RequestTarget.origin "/x".toList none).uri.pathQ = some v ∧ u.Same v :=
  (@proxy_route_join_iff UriLib.plain ['/'] "http://up/v1//".toList "/\x7b*rest\x7d".toList _ _
    (.origin "/x".toList none) UriLib.plain_lawful UriLib.plain_keepsEmptyPath (by decide) rfl rfl
      rfl (by decide)
    (.rootRest rfl (by decide))).2 (fun h => absurd h (by decide))

/-- The route `/` puts a slash behind the target `/v1`, and the route `/api` keeps both slashes of
`/v1//`; the proxy does neither. -/
theorem proxy_route_joins_differently :
    (∃ t u proxy v, UriLib.plain.parse "http://up/v1".toList = some t ∧
      buildUpstreamUri UriLib.plain t (RequestTarget.origin ['/'] none).uri
        (some (stripRoutePrefix ['/'] (routeLiteralPrefix ['/']))) = some u ∧ u.path = "/v1/".toList ∧
      ReverseProxy.new UriLib.plain ['/'] "http://up/v1".toList = some proxy ∧
      proxy.transformUri UriLib.plain (RequestTarget.origin ['/'] none).uri.pathQ = some v ∧
      v.path = "/v1".toList) ∧
    ∃ t u proxy v, UriLib.plain.parse "http://up/v1//".toList = some t ∧
      buildUpstreamUri UriLib.plain t (RequestTarget.origin "/api".toList none).uri
        (some (stripRoutePrefix "/api".toList (routeLiteralPrefix "/api".toList))) = some u ∧
      u.path = "/v1//".toList ∧
      ReverseProxy.new UriLib.plain "/api".toList "http://up/v1//".toList = some proxy ∧
      proxy.transformUri UriLib.plain (RequestTarget.origin "/api".toList none).uri.pathQ = some v ∧
      v.path = "/v1/".toList :=
  ⟨⟨_, _, _, _, rfl, rfl, by decide, rfl, rfl, by decide⟩,
    _, _, _, _, rfl, rfl, by decide, rfl, rfl, by decide⟩

end AxumReverseProxy
