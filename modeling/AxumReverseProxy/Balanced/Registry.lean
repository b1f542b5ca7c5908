import AxumReverseProxy.Balanced.Proxy

/-!
# What discovery is for

The items of the discovery stream fold into a `Registry`: an insertion-ordered map of endpoints and
the next identity for a `ServiceMetrics`. An item that names no usable target changes nothing. The
discovery task refines the registry for as long as it runs (`Discovery.Refines.poll`).
-/

namespace AxumReverseProxy

open OrderedMap

variable {κ : Type} [DecidableEq κ]

def usableTarget (lib : UriLib) (target : Str) : Bool := ((lib.parse target).bind (·.authority?)).isSome

structure Registry (κ : Type) where
  services : OrderedMap κ Endpoint
  nextMetrics : MetricsId

namespace Registry

def apply (cfg : BalancerConfig) (r : Registry κ) : Discovered κ → Registry κ
  | .change (.insert key target) =>
    match cfg.endpoint target r.nextMetrics with
    | some endpoint => ⟨r.services.insert key endpoint, r.nextMetrics + 1⟩
    | none => r
  | .change (.remove key) => ⟨r.services.remove key, r.nextMetrics⟩
  | .error => r

end Registry

def registry (cfg : BalancerConfig) (items : List (Discovered κ)) : Registry κ :=
  items.foldl (Registry.apply cfg) ⟨.empty, 0⟩

def Discovered.Unusable (lib : UriLib) (item : Discovered κ) : Prop :=
  ∃ key target, item = .change (.insert key target) ∧ usableTarget lib target = false

variable {cfg : BalancerConfig} {items items' : List (Discovered κ)} {item : Discovered κ} {k : κ}
  {m : MetricsId} {target : Str}

@[simp] theorem registry_nil : registry cfg ([] : List (Discovered κ)) = ⟨.empty, 0⟩ := rfl

theorem registry_concat (item : Discovered κ) :
    registry cfg (items ++ [item]) = (registry cfg items).apply cfg item := by
  rw [registry, List.foldl_append]; rfl

/-! ### Endpoints -/

theorem endpoint_isSome : (cfg.endpoint target m).isSome = usableTarget cfg.lib target := by
  unfold BalancerConfig.endpoint usableTarget ReverseProxy.new
  cases cfg.lib.parse target with
  | none => rfl
  | some t => cases h : t.authority? <;> simp [h]

theorem endpoint_metrics {e : Endpoint} (h : cfg.endpoint target m = some e) : e.metrics = m := by
  obtain ⟨proxy, -, rfl⟩ := Option.map_eq_some_iff.1 h
  rfl

theorem endpoint_of_usable (h : usableTarget cfg.lib target = true) (m : MetricsId) :
    ∃ e, cfg.endpoint target m = some e ∧ e.metrics = m := by
  rw [← endpoint_isSome (m := m)] at h
  obtain ⟨e, he⟩ := Option.isSome_iff_exists.1 h
  exact ⟨e, he, endpoint_metrics he⟩

theorem endpoint_of_unusable (h : usableTarget cfg.lib target = false) (m : MetricsId) :
    cfg.endpoint target m = none := by
  rw [← endpoint_isSome (m := m)] at h
  simpa using h

theorem Registry.apply_cases (cfg : BalancerConfig) (r : Registry κ) (item : Discovered κ) :
    (∃ key target e, item = .change (.insert key target) ∧ cfg.endpoint target r.nextMetrics = some e ∧
      r.apply cfg item = ⟨r.services.insert key e, r.nextMetrics + 1⟩) ∨
    (∃ key, item = .change (.remove key) ∧ r.apply cfg item = ⟨r.services.remove key, r.nextMetrics⟩) ∨
    ((item = .error ∨ item.Unusable cfg.lib) ∧ r.apply cfg item = r) := by
  rcases item with (⟨key, target⟩ | key) | -
  · cases hu : usableTarget cfg.lib target with
    | true =>
      obtain ⟨e, he, -⟩ := endpoint_of_usable hu r.nextMetrics
      exact .inl ⟨key, target, e, rfl, he, by simp [Registry.apply, he]⟩
    | false =>
      have he := endpoint_of_unusable hu r.nextMetrics
      exact .inr (.inr ⟨.inr ⟨key, target, rfl, hu⟩, by simp [Registry.apply, he]⟩)
  · exact .inr (.inl ⟨key, rfl, rfl⟩)
  · exact .inr (.inr ⟨.inl rfl, rfl⟩)

/-! ### The list of the task -/

theorem insertEndpoint_cons_ne {j : κ} {x e : Endpoint} {l : List (κ × Endpoint)} (h : j ≠ k) :
    insertEndpoint ((j, x) :: l) k e = (j, x) :: insertEndpoint l k e := by
  unfold insertEndpoint
  rw [List.findIdx?_cons, if_neg (by simpa using h)]
  cases List.findIdx? (fun e => decide (e.1 = k)) l <;> rfl

theorem insertEndpoint_of_mem {a b : List (κ × Endpoint)} {old e : Endpoint} (ha : k ∉ a.map (·.1)) :
    insertEndpoint (a ++ (k, old) :: b) k e = a ++ (k, e) :: b := by
  induction a with
  | nil =>
    unfold insertEndpoint
    rw [List.nil_append, List.findIdx?_cons, if_pos (by simp)]
    rfl
  | cons x a ih =>
    rw [List.map_cons, List.mem_cons, not_or] at ha
    rw [List.cons_append, insertEndpoint_cons_ne (Ne.symm ha.1), ih ha.2, List.cons_append]

theorem insertEndpoint_of_not_mem {l : List (κ × Endpoint)} {e : Endpoint} (h : k ∉ l.map (·.1)) :
    insertEndpoint l k e = l ++ [(k, e)] := by
  induction l with
  | nil => rfl
  | cons x l ih =>
    rw [List.map_cons, List.mem_cons, not_or] at h
    rw [insertEndpoint_cons_ne (Ne.symm h.1), ih h.2, List.cons_append]

theorem insertEndpoint_entries (s : OrderedMap κ Endpoint) (k : κ) (e : Endpoint) :
    insertEndpoint s.entries k e = (s.insert k e).entries := by
  by_cases h : k ∈ s.keys
  · obtain ⟨a, old, b, h1, h2, ha⟩ := entries_insert_of_mem (v := e) h
    rw [h1, h2, insertEndpoint_of_mem ha]
  · rw [entries_insert_of_not_mem h, insertEndpoint_of_not_mem (by rwa [map_fst_entries])]

/-- The task keeps the entries of the registry, and has published their values. -/
structure Discovery.Refines (d : Discovery κ) (r : Registry κ) : Prop where
  task : d.task = .running r.services.entries
  snapshot : d.snapshot = r.services.values
  nextMetrics : d.nextMetrics = r.nextMetrics

theorem Discovery.Refines.poll {d : Discovery κ} {r : Registry κ} (h : d.Refines r)
    (hu : ¬ item.Unusable cfg.lib) : (d.poll cfg item).Refines (r.apply cfg item) := by
  obtain ⟨ht, hs, hn⟩ := h
  rcases r.apply_cases cfg item with ⟨key, target, e, rfl, he, hr⟩ | ⟨key, rfl, hr⟩ | ⟨hi, hr⟩
  · have hp : d.poll cfg (.change (.insert key target)) =
        { d with nextMetrics := d.nextMetrics + 1 }.publish (insertEndpoint r.services.entries key e) := by
      simp only [Discovery.poll, ht, hn, he]
    rw [hr, hp, insertEndpoint_entries]
    exact ⟨rfl, rfl, congrArg (· + 1) hn⟩
  · have hp : d.poll cfg (.change (.remove key)) =
      d.publish (r.services.entries.filter fun e => e.1 ≠ key) := by
      simp only [Discovery.poll, ht]
    rw [hr, hp, ← entries_remove]
    exact ⟨rfl, rfl, hn⟩
  · obtain rfl := hi.resolve_right hu
    have hp : d.poll cfg .error = d := by simp only [Discovery.poll, ht]
    rw [hr, hp]
    exact ⟨ht, hs, hn⟩

theorem Discovery.Refines.poll_unusable {d : Discovery κ} {r : Registry κ} (h : d.Refines r)
    (hu : item.Unusable cfg.lib) : d.poll cfg item = { d with task := .panicked } := by
  obtain ⟨key, target, rfl, hu⟩ := hu
  simp only [Discovery.poll, h.task, endpoint_of_unusable hu]

theorem Discovery.poll_panicked {d : Discovery κ} (h : d.task = .panicked) : d.poll cfg item = d := by
  simp only [Discovery.poll, h]

/-! ### The history of a registry -/

def Discovered.Touches (item : Discovered κ) (k : κ) : Prop := ∃ c, item = .change c ∧ c.key = k

theorem Registry.lookup_apply_of_not_touches {r : Registry κ} (h : ¬ item.Touches k) :
    (r.apply cfg item).services.lookup k = r.services.lookup k := by
  rcases r.apply_cases cfg item with ⟨key, target, e, rfl, -, hr⟩ | ⟨key, rfl, hr⟩ | ⟨-, hr⟩
  · rw [hr]; exact lookup_insert_ne fun hk => h ⟨_, rfl, hk.symm⟩
  · rw [hr]; exact lookup_remove_ne fun hk => h ⟨_, rfl, hk.symm⟩
  · rw [hr]

theorem lookup_registry_append (h : ∀ item ∈ items', ¬ item.Touches k) :
    (registry cfg (items ++ items')).services.lookup k = (registry cfg items).services.lookup k := by
  induction items' using List.reverseRecOn with
  | nil => rw [List.append_nil]
  | append_singleton items' item ih =>
    rw [← List.append_assoc, registry_concat,
      Registry.lookup_apply_of_not_touches (h item (List.mem_append_right _ (List.mem_singleton_self _)))]
    exact ih fun x hx => h x (List.mem_append_left _ hx)

/-- `e` has been the endpoint under `k` at some point. -/
def Seen (cfg : BalancerConfig) (items : List (Discovered κ)) (k : κ) (e : Endpoint) : Prop :=
  ∃ pre, pre <+: items ∧ (registry cfg pre).services.lookup k = some e

theorem Seen.now {e : Endpoint} (h : (registry cfg items).services.lookup k = some e) :
    Seen cfg items k e :=
  ⟨items, List.prefix_rfl, h⟩

theorem Seen.mono {e : Endpoint} (h : Seen cfg items k e) (hp : items <+: items') :
    Seen cfg items' k e := by
  obtain ⟨pre, hpre, he⟩ := h
  exact ⟨pre, hpre.trans hp, he⟩

theorem seen_concat {e : Endpoint} (h : Seen cfg (items ++ [item]) k e) :
    Seen cfg items k e ∨ ∃ target, item = .change (.insert k target) ∧
      cfg.endpoint target (registry cfg items).nextMetrics = some e := by
  obtain ⟨pre, hpre, he⟩ := h
  rcases List.prefix_concat_iff.1 hpre with rfl | hpre
  · rw [registry_concat] at he
    rcases (registry cfg items).apply_cases cfg item with ⟨key, target, e', rfl, he', hr⟩ |
      ⟨key, rfl, hr⟩ | ⟨-, hr⟩
    · rw [hr] at he
      by_cases hk : k = key
      · subst hk
        rw [lookup_insert_self, Option.some.injEq] at he
        exact .inr ⟨target, rfl, he ▸ he'⟩
      · rw [lookup_insert_ne hk] at he
        exact .inl (.now he)
    · rw [hr] at he
      by_cases hk : k = key
      · subst hk
        rw [lookup_remove_self] at he
        cases he
      · rw [lookup_remove_ne hk] at he
        exact .inl (.now he)
    · rw [hr] at he
      exact .inl (.now he)
  · exact .inl ⟨pre, hpre, he⟩

theorem not_seen_nil {e : Endpoint} : ¬ Seen cfg [] k e := by
  rintro ⟨pre, hpre, he⟩
  rw [List.prefix_nil.1 hpre] at he
  cases he

theorem nextMetrics_le_concat (item : Discovered κ) :
    (registry cfg items).nextMetrics ≤ (registry cfg (items ++ [item])).nextMetrics := by
  rw [registry_concat]
  rcases (registry cfg items).apply_cases cfg item with ⟨key, target, e, -, -, hr⟩ | ⟨key, -, hr⟩ | ⟨-, hr⟩
  · rw [hr]; exact Nat.le_succ _
  · rw [hr]
  · rw [hr]

/-- No identity of a `ServiceMetrics` in use is given out again. -/
theorem Seen.metrics_lt {e : Endpoint} (h : Seen cfg items k e) :
    e.metrics < (registry cfg items).nextMetrics := by
  induction items using List.reverseRecOn generalizing k e with
  | nil => exact absurd h not_seen_nil
  | append_singleton items item ih =>
    rcases seen_concat h with h | ⟨target, rfl, he⟩
    · exact Nat.lt_of_lt_of_le (ih h) (nextMetrics_le_concat item)
    · rw [endpoint_metrics he, registry_concat]
      simp [Registry.apply, he]

/-- A `ServiceMetrics` belongs to one endpoint under one key, in the whole history. -/
theorem Seen.eq_of_metrics {e e' : Endpoint} {k' : κ} (h : Seen cfg items k e) (h' : Seen cfg items k' e')
    (hm : e.metrics = e'.metrics) : k = k' ∧ e = e' := by
  induction items using List.reverseRecOn with
  | nil => exact absurd h not_seen_nil
  | append_singleton items item ih =>
    rcases seen_concat h with hs | ⟨target, hi, he⟩ <;> rcases seen_concat h' with hs' | ⟨target', hi', he'⟩
    · exact ih hs hs'
    · have hlt := hs.metrics_lt
      rw [hm, endpoint_metrics he'] at hlt
      exact absurd hlt (Nat.lt_irrefl _)
    · have hlt := hs'.metrics_lt
      rw [← hm, endpoint_metrics he] at hlt
      exact absurd hlt (Nat.lt_irrefl _)
    · cases hi.symm.trans hi'
      exact ⟨rfl, Option.some.inj (he.symm.trans he')⟩

/-! ### Live keys -/

/-- A usable target was inserted under `k`, and `k` was not removed since. -/
def Live (lib : UriLib) (items : List (Discovered κ)) (k : κ) : Prop :=
  ∃ pre target post, items = pre ++ .change (.insert k target) :: post ∧ usableTarget lib target = true ∧
    .change (.remove k) ∉ post

omit [DecidableEq κ] in
theorem live_concat {lib : UriLib} : Live lib (items ++ [item]) k ↔
    (∃ target, item = .change (.insert k target) ∧ usableTarget lib target = true) ∨
      Live lib items k ∧ item ≠ .change (.remove k) := by
  constructor
  · rintro ⟨pre, target, post, he, hu, hr⟩
    rcases List.eq_nil_or_concat' post with rfl | ⟨post, x, rfl⟩
    · obtain ⟨-, hi⟩ := List.append_inj' he rfl
      exact .inl ⟨target, List.singleton_inj.1 hi, hu⟩
    · rw [← List.cons_append, ← List.append_assoc] at he
      obtain ⟨rfl, hi⟩ := List.append_inj' he rfl
      obtain rfl := List.singleton_inj.1 hi
      rw [List.mem_append, not_or, List.mem_singleton] at hr
      exact .inr ⟨⟨pre, target, post, rfl, hu, hr.1⟩, Ne.symm hr.2⟩
  · rintro (⟨target, rfl, hu⟩ | ⟨⟨pre, target, post, rfl, hu, hr⟩, hi⟩)
    · exact ⟨items, target, [], rfl, hu, List.not_mem_nil⟩
    · refine ⟨pre, target, post ++ [item], by simp, hu, ?_⟩
      rw [List.mem_append, not_or, List.mem_singleton]
      exact ⟨hr, Ne.symm hi⟩

theorem mem_keys_registry (cfg : BalancerConfig) :
    k ∈ (registry cfg items).services.keys ↔ Live cfg.lib items k := by
  induction items using List.reverseRecOn with
  | nil =>
    refine iff_of_false List.not_mem_nil ?_
    rintro ⟨pre, target, post, he, -⟩
    simp at he
  | append_singleton items item ih =>
    rw [live_concat, ← ih, registry_concat]
    rcases (registry cfg items).apply_cases cfg item with ⟨key, target, e, rfl, he, hr⟩ |
      ⟨key, rfl, hr⟩ | ⟨hi, hr⟩
    · have hu : usableTarget cfg.lib target = true := by rw [← endpoint_isSome, he]; rfl
      rw [hr, mem_keys_insert]
      constructor
      · rintro (rfl | h)
        · exact .inl ⟨target, rfl, hu⟩
        · exact .inr ⟨h, by simp⟩
      · rintro (⟨_, h, -⟩ | ⟨h, -⟩)
        · cases h; exact .inl rfl
        · exact .inr h
    · rw [hr, mem_keys_remove]
      constructor
      · rintro ⟨hk, h⟩
        exact .inr ⟨h, fun h => hk (by cases h; rfl)⟩
      · rintro (⟨_, h, -⟩ | ⟨h, hk⟩)
        · cases h
        · exact ⟨fun h => hk (by rw [h]), h⟩
    · rw [hr]
      rcases hi with rfl | ⟨key, target, rfl, hu⟩
      · simp
      · constructor
        · intro h
          exact .inr ⟨h, by simp⟩
        · rintro (⟨_, h, h'⟩ | ⟨h, -⟩)
          · cases h; rw [hu] at h'; cases h'
          · exact h

end AxumReverseProxy
