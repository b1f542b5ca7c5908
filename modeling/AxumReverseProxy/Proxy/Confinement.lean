import AxumReverseProxy.Http.RequestTarget
import AxumReverseProxy.Proxy.PathJoin

/-!
# Upstream path confinement

The remainder of a path that starts with a slash is empty or starts with one, so that the path sent
upstream stays under the target path. The asterisk form has a path without a slash: unless the base
is `*` itself it is put behind the target path as it stands (`transform_uri_confined_iff`).
-/

namespace AxumReverseProxy

/-- The path is `T`, or `T` continued with a slash; it starts with a slash when `T` is empty. -/
def Confined (T p : Str) : Prop := Continues T p ∧ (T = [] → p.head? = some '/')

instance (T p : Str) : Decidable (Confined T p) := inferInstanceAs (Decidable (_ ∧ _))

variable {lib : UriLib} {base target p r : Str} {q : Option Str} {proxy : ReverseProxy} {t : Uri}
  {a : Authority} {req : RequestTarget}

theorem confined_append (T : Str) (hr : r.head? = some '/') : Confined T (T ++ r) := by
  refine ⟨(continues_append T r).2 (.inr hr), ?_⟩
  rintro rfl
  exact hr

theorem not_confined_append (T : Str) (hne : r ≠ []) (hr : r.head? ≠ some '/') : ¬ Confined T (T ++ r) :=
  fun h => ((continues_append T r).1 h.1).elim hne hr

theorem confined_upstreamPath (hr : r = [] ∨ r.head? = some '/') :
    Confined (targetPath t) (upstreamPath t r) := by
  unfold upstreamPath
  split_ifs with h1 h2 h3
  · exact confined_append _ (hr.resolve_left h1)
  · rw [h2]; exact confined_append [] rfl
  · exact confined_append _ rfl
  · exact ⟨.inl rfl, fun h => absurd h h2⟩

theorem remainder_asterisk (base : Str) :
    remainder base ['*'] = if base.trimEndMatches '/' = ['*'] then [] else ['*'] := by
  unfold remainder
  simp only
  rw [if_neg (by rintro ⟨h, -⟩; cases h)]
  by_cases h : base.trimEndMatches '/' = ['*']
  · rw [h]; rfl
  · rw [if_neg h, if_neg]
    rintro ⟨hne, hc | hc⟩
    · exact h hc.symm
    · have := hc.length_le
      have := List.length_pos_iff.2 hne
      simp only [List.length_append, List.length_singleton] at *
      omega

theorem transformUri_asterisk (hlib : lib.Lawful) (hstar : lib.KeepsAsterisk)
    (hnew : ReverseProxy.new lib base target = some proxy) (ht : lib.parse target = some t)
    (hb : base.trimEndMatches '/' ≠ ['*']) :
    ∃ u, proxy.transformUri lib RequestTarget.asterisk.uri.pathQ = some u ∧
      u.path = targetPath t ++ ['*'] := by
  obtain ⟨t', a, ht', ha, hpath, hs, hau, hj⟩ := new_eq_some hnew
  obtain rfl : t' = t := Option.some.inj (ht'.symm.trans ht)
  have hrem : remainder base ['*'] = ['*'] := by rw [remainder_asterisk, if_neg hb]
  have hup : upstreamPath t' ['*'] = targetPath t' ++ ['*'] := if_pos (by simp)
  show ∃ u, proxy.transformUri lib (['*'] ++ queryText none) = some u ∧ _
  rw [transformUri_eq (by decide), hs, hau, hpath, hj, hrem, hup]
  by_cases hT : targetPath t' = []
  · refine ⟨.absolute (t'.scheme?.getD .http) a ⟨['*']⟩, ?_, by rw [hT]; rfl⟩
    rw [hT]
    simp [UriLib.build, parseScheme_getD hlib ht, hlib.parseAuthority_of_parse ht ha, queryText, hstar.1,
      Uri.fromParts]
  · have hp : lib.IsPath (targetPath t' ++ ['*']) :=
      ((isPath_targetPath hlib ht ha).resolve_left hT).append (by simp [hstar.2])
    rw [build_eq hlib ht ha hp fun _ h => (by cases h)]
    exact ⟨_, rfl, PathAndQuery.path_mk (hp.question_not_mem hlib) hp.ne_nil⟩

/-- Requests stay under the target path, in every form but the asterisk one. -/
theorem transform_uri_confined_iff (hlib : lib.Lawful) (hstar : lib.KeepsAsterisk)
    (hnew : ReverseProxy.new lib base target = some proxy) (ht : lib.parse target = some t)
    (hreq : req.Valid lib) :
    (∃ u, proxy.transformUri lib req.uri.pathQ = some u ∧ Confined (targetPath t) u.path) ↔
      (req = .asterisk → base.trimEndMatches '/' = ['*']) := by
  obtain ⟨t', a, ht', ha, -⟩ := new_eq_some hnew
  obtain rfl : t' = t := Option.some.inj (ht'.symm.trans ht)
  have hconf : ∀ p, '?' ∉ p → (remainder base p = [] ∨ lib.IsPath (remainder base p)) →
      req.uri.pathQ = p ++ queryText req.uri.query → lib.IsQuery req.uri.query →
      ∃ u, proxy.transformUri lib req.uri.pathQ = some u ∧ Confined (targetPath t') u.path := by
    intro p hp hr hpq hq
    have hup := isPath_upstreamPath hlib ht ha hr
    rw [hpq, transformUri_of_remainder hlib hnew ht ha hp hr hq]
    refine ⟨_, rfl, ?_⟩
    show Confined _ (PathAndQuery.path _)
    rw [PathAndQuery.path_mk (hup.question_not_mem hlib) hup.ne_nil]
    exact confined_upstreamPath (hr.imp id (·.1))
  obtain ⟨p, hpq, hq, ⟨hp, hpath⟩ | ⟨rfl, hpath⟩ | ⟨rfl, rfl⟩⟩ := req.pathQ_spec hlib hreq
  · refine iff_of_true (hconf p (hp.question_not_mem hlib) (isPath_remainder base hp) hpq hq) ?_
    rintro rfl
    subst hpath
    exact absurd hp.1 (by decide)
  · refine iff_of_true (hconf [] (by simp) (.inl (remainder_nil base)) hpq hq) ?_
    rintro rfl
    exact absurd hpath (by decide)
  · by_cases hb : base.trimEndMatches '/' = ['*']
    · refine iff_of_true (hconf ['*'] (by decide) (.inl ?_) hpq hq) fun _ => hb
      rw [remainder_asterisk, if_pos hb]
    · refine iff_of_false ?_ fun h => hb (h rfl)
      rintro ⟨u, hu, hc⟩
      obtain ⟨u', hu', hpath⟩ := transformUri_asterisk hlib hstar hnew ht hb
      obtain rfl : u' = u := Option.some.inj (hu'.symm.trans hu)
      rw [hpath] at hc
      exact not_confined_append _ (by simp) (by simp) hc

/-- `/api/x` under `/api`, as an absolute target of another host. -/
theorem transform_uri_confined_iff_api :
    ∃ u, (⟨"/api".toList, "http://up/v1".toList, "http".toList, "up".toList, "/v1".toList, false, {}⟩ :
        ReverseProxy).transformUri UriLib.plain
          (RequestTarget.absolute .http ⟨"h".toList, rfl⟩ "/api/x".toList
          none).uri.pathQ = some u ∧ Confined "/v1".toList u.path :=
  (@transform_uri_confined_iff UriLib.plain "/api".toList "http://up/v1".toList _ _
    (.absolute .http ⟨"h".toList, rfl⟩ "/api/x".toList none) UriLib.plain_lawful
      UriLib.plain_keepsAsterisk rfl rfl
    (by decide)).2 (by rintro h; cases h)

/-- `OPTIONS *` leaves the target path `/v1` for its sibling `/v1*`. -/
theorem transform_uri_asterisk_escapes :
    ∃ proxy u, ReverseProxy.new UriLib.plain "/api".toList "http://up/v1".toList = some proxy ∧
      proxy.transformUri UriLib.plain RequestTarget.asterisk.uri.pathQ = some u ∧ u.path = "/v1*".toList ∧
      ¬ Confined "/v1".toList u.path :=
  ⟨_, _, rfl, rfl, by decide, by decide⟩

end AxumReverseProxy
