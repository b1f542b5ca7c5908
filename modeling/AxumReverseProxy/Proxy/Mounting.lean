import AxumReverseProxy.Proxy.PathJoin

/-!
# Nested and fallback mounting

`From<ReverseProxy> for Router` nests the proxy under its base path, so that it sees request paths
without it; as a fallback service it sees them whole. The same `transform_uri` runs on both and is
not told which. `transform_uri_mounting_iff` says for which remainders it answers alike.
-/

namespace AxumReverseProxy

inductive Mounting
  | nested
  | fallback
deriving DecidableEq

/-- `From<ReverseProxy> for Router`. -/
def ReverseProxy.mounting (proxy : ReverseProxy) : Mounting :=
  if proxy.path ∈ [[], ['/']] then .fallback else .nested

/-- The path the proxy sees of the external path `base ++ r`. `Router::nest` takes one `base` off
the front and leaves no path empty. -/
def Mounting.seenPath (base r : Str) : Mounting → Str
  | .nested => if r = [] then ['/'] else r
  | .fallback => base ++ r

/-- A base path: it starts with a slash, does not end in one, and is not `/`. -/
def IsBase (base : Str) : Prop := base.head? = some '/' ∧ base.getLast? ≠ some '/' ∧ base ≠ ['/']

instance (base : Str) : Decidable (IsBase base) := inferInstanceAs (Decidable (_ ∧ _))

variable {lib : UriLib} {base target r r' : Str} {q : Option Str} {proxy : ReverseProxy} {t : Uri}
  {a : Authority}

namespace IsBase

variable (h : IsBase base)
include h

theorem trimEndMatches_eq : base.trimEndMatches '/' = base := Str.trimEndMatches_eq_self h.2.1

theorem two_le_length : 2 ≤ base.length := by
  obtain ⟨h1, -, h3⟩ := h
  cases base with
  | nil => cases h1
  | cons c l =>
    cases l with
    | nil => cases h1; exact absurd rfl h3
    | cons d l => simp

theorem ne_nil : base ≠ [] := List.ne_nil_of_length_pos (by have := h.two_le_length; omega)

theorem two_le_of_continues (hr : Continues base r) : 2 ≤ r.length := by
  have := h.two_le_length
  rcases hr with rfl | hr
  · exact this
  · have := hr.length_le
    simp only [List.length_append] at this
    omega

theorem mounting_eq (hnew : ReverseProxy.new lib base target = some proxy) : proxy.mounting = .nested := by
  obtain ⟨t, a, -, -, hpath, -⟩ := new_eq_some hnew
  rw [ReverseProxy.mounting, hpath, if_neg]
  simp [h.ne_nil, h.2.2]

theorem remainder_fallback (hr : r = [] ∨ r.head? = some '/') : remainder base (base ++ r) = r := by
  refine remainder_of_continues (.inl fun he => ?_) (by rw [h.trimEndMatches_eq]; exact h.ne_nil) hr
    (by rw [h.trimEndMatches_eq])
  have := congrArg List.length he
  have := h.two_le_length
  simp only [List.length_append, List.length_singleton] at *
  omega

theorem remainder_nested :
    remainder base (Mounting.nested.seenPath base r) =
      if r = ['/'] then [] else if Continues base r then r.drop base.length else r := by
  by_cases h1 : r = []
  · have hc : ¬ Continues base [] := fun hc => absurd (h.two_le_of_continues hc) (by simp)
    rw [h1, Mounting.seenPath, if_pos rfl, remainder, if_pos ⟨rfl, h.ne_nil⟩, if_neg (by simp), if_neg hc]
  · simp [Mounting.seenPath, h1, remainder, h.trimEndMatches_eq, h.ne_nil]

end IsBase

/-! ### When two remainders have the same upstream path -/

theorem length_upstreamPath_le : (upstreamPath t r).length ≤ (targetPath t).length + max r.length 1 := by
  unfold upstreamPath
  split_ifs <;> grind

theorem upstreamPath_nil_eq_slash :
    upstreamPath t [] = upstreamPath t ['/'] ↔ targetPath t = [] ∨ t.path.endsWith ['/'] = true := by
  unfold upstreamPath
  by_cases hT : targetPath t = []
  · simp [hT]
  · by_cases hs : t.path.endsWith ['/'] = true <;> simp [hT, hs]

theorem IsBase.upstreamPath_append_ne (h : IsBase base) :
    upstreamPath t r ≠ upstreamPath t (base ++ r) := by
  intro he
  have hne : base ++ r ≠ [] := fun hn => h.ne_nil (List.append_eq_nil_iff.1 hn).1
  have hlen : (upstreamPath t (base ++ r)).length = (targetPath t).length + (base.length + r.length) := by
    rw [upstreamPath, if_pos hne, List.length_append, List.length_append]
  have := length_upstreamPath_le (t := t) (r := r)
  have := h.two_le_length
  rw [he, hlen] at *
  omega

theorem transformUri_congr_iff (hlib : lib.Lawful) (hnew : ReverseProxy.new lib base target = some proxy)
    (ht : lib.parse target = some t) (ha : t.authority? = some a) {p p' : Str} (hp : lib.IsPath p)
    (hp' : lib.IsPath p') (hq : lib.IsQuery q) :
    proxy.transformUri lib (p ++ queryText q) = proxy.transformUri lib (p' ++ queryText q) ↔
      upstreamPath t (remainder base p) = upstreamPath t (remainder base p') := by
  rw [transformUri_eq_some hlib hnew ht ha hp hq, transformUri_eq_some hlib hnew ht ha hp' hq]
  simp

/-- The proxy sends a request on alike under both mountings exactly when the remainder does not
itself begin with the base at a segment boundary and, where it is `/`, the target path is empty or
ends in a slash. -/
theorem transform_uri_mounting_iff (hlib : lib.Lawful) (hbase : IsBase base) (hcarry : lib.IsPath base)
    (hnew : ReverseProxy.new lib base target = some proxy) (ht : lib.parse target = some t)
    (hr : r = [] ∨ lib.IsPath r) (hq : lib.IsQuery q) :
    proxy.transformUri lib (Mounting.nested.seenPath base r ++ queryText q) =
        proxy.transformUri lib (Mounting.fallback.seenPath base r ++ queryText q) ↔
      ¬ Continues base r ∧ (r = ['/'] → targetPath t = [] ∨ t.path.endsWith ['/'] = true) := by
  obtain ⟨t', a, ht', ha, -⟩ := new_eq_some hnew
  obtain rfl : t' = t := Option.some.inj (ht'.symm.trans ht)
  have hnested : lib.IsPath (Mounting.nested.seenPath base r) := by
    unfold Mounting.seenPath
    simp only
    split_ifs with h
    · exact hlib.isPath_slash
    · exact hr.resolve_left h
  have hfallback : lib.IsPath (Mounting.fallback.seenPath base r) :=
    hcarry.append (hr.elim (by rintro rfl; rfl) (·.2))
  rw [transformUri_congr_iff hlib hnew ht ha hnested hfallback hq, hbase.remainder_nested,
    Mounting.seenPath, hbase.remainder_fallback (hr.imp id (·.1))]
  split_ifs with h1 h2
  · subst h1
    have hc : ¬ Continues base ['/'] := fun hc => absurd (hbase.two_le_of_continues hc) (by simp)
    simp [upstreamPath_nil_eq_slash, hc]
  · obtain ⟨r', rfl, -⟩ := h2.eq_append
    rw [List.drop_left]
    simp [h2, hbase.upstreamPath_append_ne]
  · simp [h1, h2]

theorem transform_uri_mounting_iff_api :
    (⟨"/api".toList, "http://up".toList, "http".toList, "up".toList, [], false,
      {}⟩ : ReverseProxy).transformUri
        UriLib.plain ("/users".toList ++ queryText (some "a=b".toList)) =
      (⟨"/api".toList, "http://up".toList, "http".toList, "up".toList, [], false,
        {}⟩ : ReverseProxy).transformUri
        UriLib.plain ("/api/users".toList ++ queryText (some "a=b".toList)) :=
  (@transform_uri_mounting_iff UriLib.plain "/api".toList "http://up".toList "/users".toList
    (some "a=b".toList) _ _ UriLib.plain_lawful (by decide) (by decide) rfl rfl (.inr (by decide))
    (by decide)).2 (by decide)

/-- `/api/api/x` under `/api`: the nested proxy strips the base a second time. -/
theorem transform_uri_mounting_differs :
    ∃ proxy, ReverseProxy.new UriLib.plain "/api".toList "http://up".toList = some proxy ∧
      (proxy.transformUri UriLib.plain (Mounting.nested.seenPath "/api".toList "/api/x".toList)).map
        Uri.path =
        some "/x".toList ∧
      (proxy.transformUri UriLib.plain (Mounting.fallback.seenPath "/api".toList "/api/x".toList)).map
        Uri.path =
        some "/api/x".toList :=
  ⟨_, rfl, by decide, by decide⟩

end AxumReverseProxy
