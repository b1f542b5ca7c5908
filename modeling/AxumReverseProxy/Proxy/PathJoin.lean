import AxumReverseProxy.Proxy.Reverse

/-!
# The path-join law

What `transform_uri` computes, said in terms of the base `B`, the target and the request path `P`:
the remainder of `P` behind `B` (`remainder`), put behind the target path (`upstreamPath`). See the
README, "Path Transform Semantics".
-/

namespace AxumReverseProxy

/-- `P` is `B'` or continues it with a slash. -/
def Continues (base p : Str) : Prop := p = base ∨ base ++ ['/'] <+: p

instance (base p : Str) : Decidable (Continues base p) := inferInstanceAs (Decidable (_ ∨ _))

/-- The target path `T`, without trailing slashes. -/
def targetPath (target : Uri) : Str := target.path.trimEndMatches '/'

/-- The remainder `R` of a request path under a base path. -/
def remainder (base p : Str) : Str :=
  let base' := base.trimEndMatches '/'
  if p = ['/'] ∧ base ≠ [] then []
  else if base' ≠ [] ∧ Continues base' p then p.drop base'.length
  else p

def upstreamPath (target : Uri) (r : Str) : Str :=
  if r ≠ [] then targetPath target ++ r
  else if targetPath target = [] then ['/']
  else if target.path.endsWith ['/'] then targetPath target ++ ['/']
  else targetPath target

variable {lib : UriLib} {base target p r : Str} {q : Option Str} {proxy : ReverseProxy} {t : Uri}
  {a : Authority}

/-! ### The remainder -/

theorem continues_append (base r : Str) : Continues base (base ++ r) ↔ r = [] ∨ r.head? = some '/' := by
  unfold Continues
  rw [List.append_right_eq_self, List.prefix_append_right_inj]
  cases r with
  | nil => simp
  | cons c r => simp [eq_comm]

theorem Continues.eq_append (h : Continues base p) :
    ∃ r, p = base ++ r ∧ (r = [] ∨ r.head? = some '/') := by
  rcases h with rfl | ⟨r, rfl⟩
  · exact ⟨[], by simp, .inl rfl⟩
  · exact ⟨'/' :: r, by simp, .inr rfl⟩

theorem remainder_of_continues (hp : p ≠ ['/'] ∨ base = []) (hb : base.trimEndMatches '/' ≠ [])
    (hr : r = [] ∨ r.head? = some '/') (h : p = base.trimEndMatches '/' ++ r) : remainder base p = r := by
  subst h
  unfold remainder
  simp only
  rw [if_neg (by rintro ⟨h1, h2⟩; exact hp.elim (· h1) h2), if_pos ⟨hb, (continues_append _ _).2 hr⟩,
    List.drop_left]

theorem remainder_nil (base : Str) : remainder base [] = [] := by
  unfold remainder
  simp

theorem remainder_spec (base : Str) (hp : p.head? = some '/') :
    remainder base p <:+ p ∧ (remainder base p = [] ∨ (remainder base p).head? = some '/') := by
  unfold remainder
  simp only
  split_ifs with h1 h2
  · exact ⟨List.nil_suffix, .inl rfl⟩
  · obtain ⟨r, hr, hr'⟩ := h2.2.eq_append
    rw [hr, List.drop_left]
    exact ⟨List.suffix_append _ _, hr'⟩
  · exact ⟨List.suffix_rfl, .inr hp⟩

theorem remainingPath_eq (proxy : ReverseProxy) (p : Str) :
    proxy.remainingPath p = remainder proxy.path p := by
  unfold ReverseProxy.remainingPath remainder
  simp only
  refine if_congr Iff.rfl rfl ?_
  generalize proxy.path.trimEndMatches '/' = base
  by_cases hb : base = []
  · simp [hb]
  · by_cases hs : base <+: p
    · obtain ⟨r, rfl⟩ := hs
      rw [if_pos ⟨hb, Str.startsWith_iff.2 (List.prefix_append _ _)⟩, List.drop_left]
      refine if_congr ?_ rfl rfl
      rw [continues_append, Str.startsWith_iff]
      simp only [hb, ne_eq, not_false_eq_true, true_and]
      cases r <;> simp [eq_comm]
    · rw [if_neg fun h => hs (Str.startsWith_iff.1 h.2), if_neg]
      rintro ⟨-, h⟩
      obtain ⟨r, rfl, -⟩ := h.eq_append
      exact hs (List.prefix_append _ _)

/-! ### The join -/

theorem new_eq_some (h : ReverseProxy.new lib base target = some proxy) :
    ∃ t a, lib.parse target = some t ∧ t.authority? = some a ∧ proxy.path = base ∧
      proxy.scheme = (t.scheme?.getD .http).str ∧ proxy.authority = a.str ∧
      ∀ r, proxy.joinTarget r = upstreamPath t r := by
  simp only [ReverseProxy.new, Option.bind_eq_bind, Option.bind_eq_some_iff, Option.some.injEq] at h
  obtain ⟨t, ht, a, ha, rfl⟩ := h
  refine ⟨t, a, ht, ha, rfl, rfl, rfl, fun r => ?_⟩
  have hbase : (if t.path = ['/'] then [] else t.path.trimEndMatches '/') = targetPath t := by
    split
    · next h => rw [targetPath, h]; rfl
    · rfl
  simp only [ReverseProxy.joinTarget, hbase, upstreamPath]
  by_cases hr : r = []
  · by_cases hT : targetPath t = []
    · simp [hr, hT]
    · have hs : t.path ≠ ['/'] := fun h => hT (by rw [targetPath, h]; rfl)
      simp [hr, hT, hs]
  · rw [if_neg hr, if_pos hr]

theorem isPath_targetPath (hlib : lib.Lawful) (ht : lib.parse target = some t)
    (ha : t.authority? = some a) :
    targetPath t = [] ∨ lib.IsPath (targetPath t) := by
  rcases hlib.isPath_of_parse ht ha with h | h
  · exact .inl (by rw [targetPath, h]; rfl)
  · by_cases hT : targetPath t = []
    · exact .inl hT
    · have hpre := Str.trimEndMatches_isPrefix t.path '/'
      refine .inr ⟨?_, List.all_eq_true.2 fun c hc => List.all_eq_true.1 h.2 c (hpre.subset hc)⟩
      rw [← h.1, ← hpre.choose_spec]
      exact (List.head?_append_of_ne_nil _ hT).symm

theorem isPath_upstreamPath (hlib : lib.Lawful) (ht : lib.parse target = some t)
    (ha : t.authority? = some a) (hr : r = [] ∨ lib.IsPath r) : lib.IsPath (upstreamPath t r) := by
  have hT := isPath_targetPath hlib ht ha
  unfold upstreamPath
  split_ifs with h1 h2 h3
  · have hr := hr.resolve_left h1
    rcases hT with hT | hT
    · rwa [hT]
    · exact hT.append hr.2
  · exact hlib.isPath_slash
  · exact (hT.resolve_left h2).append (by simp [hlib.pathChar_slash])
  · exact hT.resolve_left h2

theorem isPath_remainder (base : Str) (hp : lib.IsPath p) :
    remainder base p = [] ∨ lib.IsPath (remainder base p) := by
  obtain ⟨hs, hr⟩ := remainder_spec base hp.1
  refine hr.imp id fun hr => ⟨hr, List.all_eq_true.2 fun c hc => List.all_eq_true.1 hp.2 c (hs.subset hc)⟩

theorem transformUri_eq (hp : '?' ∉ p) :
    proxy.transformUri lib (p ++ queryText q) =
      lib.build proxy.scheme proxy.authority (proxy.joinTarget (remainder proxy.path p) ++
        queryText q) := by
  unfold ReverseProxy.transformUri
  rw [splitOnce_question hp]
  cases q with
  | none => simp [queryText, remainingPath_eq]
  | some q => simp [queryText, remainingPath_eq]

theorem parseScheme_getD (hlib : lib.Lawful) (ht : lib.parse target = some t) :
    lib.parseScheme (t.scheme?.getD .http).str = some (t.scheme?.getD .http) := by
  cases hs : t.scheme? with
  | none => exact hlib.parseScheme_http
  | some s => exact hlib.parseScheme_of_parse ht hs

theorem build_eq (hlib : lib.Lawful) (ht : lib.parse target = some t) (ha : t.authority? = some a)
    (hp : lib.IsPath p) (hq : lib.IsQuery q) :
    lib.build (t.scheme?.getD .http).str a.str (p ++ queryText q) =
      some (.absolute (t.scheme?.getD .http) a ⟨p ++ queryText q⟩) := by
  simp [UriLib.build, parseScheme_getD hlib ht, hlib.parseAuthority_of_parse ht ha,
    hlib.parsePathAndQuery_eq hp hq, Uri.fromParts]

theorem transformUri_of_remainder (hlib : lib.Lawful) (hnew : ReverseProxy.new lib base target = some proxy)
    (ht : lib.parse target = some t) (ha : t.authority? = some a) (hp : '?' ∉ p)
    (hr : remainder base p = [] ∨ lib.IsPath (remainder base p)) (hq : lib.IsQuery q) :
    proxy.transformUri lib (p ++ queryText q) =
      some (.absolute (t.scheme?.getD .http) a ⟨upstreamPath t (remainder base p) ++ queryText q⟩) := by
  obtain ⟨t', a', ht', ha', hpath, hs, hau, hj⟩ := new_eq_some hnew
  obtain rfl : t' = t := Option.some.inj (ht'.symm.trans ht)
  obtain rfl : a' = a := Option.some.inj (ha'.symm.trans ha)
  rw [transformUri_eq hp, hs, hau, hpath, hj]
  exact build_eq hlib ht ha (isPath_upstreamPath hlib ht ha hr) hq

theorem transformUri_eq_some (hlib : lib.Lawful) (hnew : ReverseProxy.new lib base target = some proxy)
    (ht : lib.parse target = some t) (ha : t.authority? = some a) (hp : lib.IsPath p) (hq : lib.IsQuery q) :
    proxy.transformUri lib (p ++ queryText q) =
      some (.absolute (t.scheme?.getD .http) a ⟨upstreamPath t (remainder base p) ++ queryText q⟩) :=
  transformUri_of_remainder hlib hnew ht ha (hp.question_not_mem hlib) (isPath_remainder base hp) hq

theorem doubledSlash_upstreamPath (h : DoubledSlash (upstreamPath t r)) :
    DoubledSlash (targetPath t) ∨ DoubledSlash r := by
  have hT := Str.getLast?_trimEndMatches_ne t.path '/'
  unfold upstreamPath at h
  split_ifs at h with h1 h2 h3
  · exact Str.doubledSlash_append hT h
  · exact absurd h (by decide)
  · exact .inl ((Str.doubledSlash_append hT h).resolve_right (by decide))
  · exact .inl h

/-- The path-join law: scheme and authority are the target's, the query is the request's, and the
path is the target path with the remainder behind it. -/
theorem transform_uri_join_law (hlib : lib.Lawful) (hnew : ReverseProxy.new lib base target = some proxy)
    (hp : lib.IsPath p) (hq : lib.IsQuery q) :
    ∃ t a u, lib.parse target = some t ∧ t.authority? = some a ∧
      proxy.transformUri lib (p ++ queryText q) = some u ∧
      u.scheme? = some (t.scheme?.getD .http) ∧ u.authority? = some a ∧ u.query = q ∧
      u.path = upstreamPath t (remainder base p) ∧
      (remainder base p = [] ∨ (remainder base p).head? = some '/') ∧
      (DoubledSlash u.path → DoubledSlash (targetPath t) ∨ DoubledSlash p) := by
  obtain ⟨t, a, ht, ha, -⟩ := new_eq_some hnew
  have hpath := isPath_upstreamPath hlib ht ha (isPath_remainder base hp)
  have hquest := hpath.question_not_mem hlib
  obtain ⟨hs, hr⟩ := remainder_spec base hp.1
  have hu : (Uri.absolute (t.scheme?.getD .http) a
      ⟨upstreamPath t (remainder base p) ++ queryText q⟩).path = upstreamPath t (remainder base p) :=
    PathAndQuery.path_mk hquest hpath.ne_nil
  refine ⟨t, a, _, ht, ha, transformUri_eq_some hlib hnew ht ha hp hq, rfl, rfl,
    PathAndQuery.query_mk hquest, hu, hr, fun h => ?_⟩
  rw [hu] at h
  exact (doubledSlash_upstreamPath h).imp id fun h => h.trans hs.isInfix

/-- `/api?x=1` under `/api` goes to the target path itself. -/
theorem transform_uri_join_law_query_only :
    ∃ u, (⟨"/api".toList, "http://up/v1".toList, "http".toList, "up".toList, "/v1".toList, false, {}⟩ :
        ReverseProxy).transformUri UriLib.plain ("/api".toList ++ queryText (some "x=1".toList)) = some u ∧
      u.path = "/v1".toList ∧ u.query = some "x=1".toList := by
  obtain ⟨t, a, u, ht, -, hu, -, -, hq, hpath, -⟩ :=
    @transform_uri_join_law UriLib.plain "/api".toList "http://up/v1".toList "/api".toList
      (some "x=1".toList) _ UriLib.plain_lawful rfl (by decide) (by decide)
  refine ⟨u, hu, ?_, hq⟩
  cases ht
  exact hpath

end AxumReverseProxy
