import AxumReverseProxy.Balanced.Proxy
import Mathlib.Data.Nat.Find

/-!
# Power of two choices

`p2c_select` draws an index, and draws again until it has another one. On a stream of draws it ends as
soon as some draw differs from the first (`find?_draws`), and returns the less loaded of the two
(`p2c_prefers_less_loaded`).
-/

namespace AxumReverseProxy

/-- The load of an endpoint under `P2cPendingRequests`. -/
def pendingLoad (pendingRequests : MetricsId → Nat) (e : Endpoint) : Nat :=
  pendingRequests e.metrics % 2 ^ 64

/-- `p2c_select` under `P2cPendingRequests`, with the first `m` numbers of a stream of draws. -/
def p2cOnStream (snapshot : Snapshot) (pendingRequests decayedEwma : MetricsId → Nat)
    (draws : Nat → Nat) (m : Nat) :
    Option Nat :=
  p2cSelect snapshot (fun e => load .p2cPendingRequests (pendingRequests e.metrics) (decayedEwma e.metrics))
    ((List.range m).map draws)

variable {snapshot : Snapshot} {pendingRequests decayedEwma : MetricsId → Nat}
  {draws : Nat → Nat} {k m : Nat}

/-- The loop draws up to the first number that differs from the first one. -/
theorem find?_draws (hk : draws k ≠ draws 0) (hmin : ∀ j < k, draws j = draws 0) (hm : k < m) :
    ((List.range m).map draws).head? = some (draws 0) ∧
      (((List.range m).map draws).tail.find? fun i => i ≠ draws 0) = some (draws k) := by
  obtain ⟨m, rfl⟩ : ∃ n, m = n + 1 := ⟨m - 1, by omega⟩
  have hfind : (((List.range (m + 1)).map draws).find? fun i => i ≠ draws 0) = some (draws k) := by
    refine List.find?_eq_some_iff_getElem.2
      ⟨by simpa using hk, k, by simpa using hm, by simp, fun j hj => ?_⟩
    simpa using hmin j hj
  rw [List.range_succ_eq_map, List.map_cons] at hfind ⊢
  refine ⟨rfl, ?_⟩
  rwa [List.find?_cons_of_neg (by simp)] at hfind

theorem p2cOnStream_eq (pendingRequests decayedEwma : MetricsId → Nat) (h1 : snapshot.length ≠ 1)
    (hrange : ∀ j, draws j < snapshot.length) (hk : draws k ≠ draws 0) (hmin : ∀ j < k, draws j = draws 0)
    (hm : k < m) :
    p2cOnStream snapshot pendingRequests decayedEwma draws m = some
      (if pendingLoad pendingRequests (snapshot.get ⟨draws 0, hrange 0⟩) ≤
          pendingLoad pendingRequests (snapshot.get ⟨draws k, hrange k⟩) then draws 0 else draws k) := by
  obtain ⟨hhead, htail⟩ := find?_draws hk hmin hm
  unfold p2cOnStream p2cSelect
  simp only [if_neg h1, hhead, htail, Option.bind_eq_bind, Option.bind_some,
    List.getElem?_eq_getElem (hrange 0), List.getElem?_eq_getElem (hrange k)]
  rfl

/-- The selection ends, whatever is left of the stream, with `i`. -/
def P2cReturns (snapshot : Snapshot) (pendingRequests decayedEwma : MetricsId → Nat)
    (draws : Nat → Nat) (i : Nat) :
    Prop :=
  ∃ m₀, ∀ m ≥ m₀, p2cOnStream snapshot pendingRequests decayedEwma draws m = some i

theorem p2cReturns_single (h1 : snapshot.length = 1) :
    P2cReturns snapshot pendingRequests decayedEwma draws 0 :=
  ⟨0, fun _ _ => if_pos h1⟩

/-- The index returned and another one drawn, which is no less loaded. -/
theorem p2cReturns_of_differ (h1 : snapshot.length ≠ 1) (hrange : ∀ j, draws j < snapshot.length)
    (hdiff : ∃ k, draws k ≠ draws 0) :
    ∃ a b, P2cReturns snapshot pendingRequests decayedEwma draws (draws a) ∧ draws b ≠ draws a ∧
      pendingLoad pendingRequests (snapshot.get ⟨draws a, hrange a⟩) ≤
        pendingLoad pendingRequests (snapshot.get ⟨draws b, hrange b⟩) := by
  obtain ⟨k, hk, hmin⟩ : ∃ k, draws k ≠ draws 0 ∧ ∀ j < k, draws j = draws 0 :=
    ⟨Nat.find hdiff, Nat.find_spec hdiff, fun j hj => not_not.1 (Nat.find_min hdiff hj)⟩
  have heq := fun m (hm : m ≥ k + 1) =>
    p2cOnStream_eq pendingRequests decayedEwma h1 hrange hk hmin hm
  by_cases hle : pendingLoad pendingRequests (snapshot.get ⟨draws 0, hrange 0⟩) ≤
      pendingLoad pendingRequests (snapshot.get ⟨draws k, hrange k⟩)
  · refine ⟨0, k, ⟨k + 1, fun m hm => ?_⟩, hk, hle⟩
    rw [heq m hm, if_pos hle]
  · refine ⟨k, 0, ⟨k + 1, fun m hm => ?_⟩, hk.symm, Nat.le_of_not_le hle⟩
    rw [heq m hm, if_neg hle]

/-- On every stream that goes on to draw a second index the selection returns an index in range, and
another index drawn is no less loaded; so the busiest endpoint is never returned, and of two the less
loaded one is. -/
theorem p2c_prefers_less_loaded (snapshot : Snapshot) (pendingRequests decayedEwma : MetricsId → Nat)
    (draws : Nat → Nat) (hne : snapshot ≠ []) (hrange : ∀ k, draws k < snapshot.length)
    (hdiff : 2 ≤ snapshot.length → ∃ k, draws k ≠ draws 0) :
    ∃ (i : Nat) (hi : i < snapshot.length), P2cReturns snapshot pendingRequests decayedEwma draws i ∧
      (2 ≤ snapshot.length → ∃ (j : Nat) (hj : j < snapshot.length), j ≠ i ∧ (∃ k, draws k = i) ∧
        (∃ k, draws k = j) ∧
        pendingLoad pendingRequests snapshot[i] ≤ pendingLoad pendingRequests snapshot[j]) ∧
      (2 ≤ snapshot.length → ∀ (a : Nat) (ha : a < snapshot.length),
        (∀ (b : Nat) (hb : b < snapshot.length), b ≠ a →
          pendingLoad pendingRequests snapshot[b] < pendingLoad pendingRequests snapshot[a]) → i ≠ a) ∧
      (snapshot.length = 2 → ∀ (a : Nat) (ha : a < snapshot.length),
        (∀ (b : Nat) (hb : b < snapshot.length), b ≠ a →
          pendingLoad pendingRequests snapshot[a] < pendingLoad pendingRequests snapshot[b]) → i = a) := by
  have hpos : 0 < snapshot.length := List.length_pos_of_ne_nil hne
  by_cases h1 : snapshot.length = 1
  · refine ⟨0, hpos, p2cReturns_single h1, ?_, ?_, ?_⟩ <;> intro h <;> omega
  · have h2 : 2 ≤ snapshot.length := by omega
    obtain ⟨x, y, hret, hxy, hle⟩ := p2cReturns_of_differ h1 hrange (hdiff h2)
    refine ⟨draws x, hrange x, hret, fun _ => ⟨draws y, hrange y, hxy, ⟨x, rfl⟩, ⟨y, rfl⟩, hle⟩, ?_, ?_⟩
    · rintro - a ha hbusiest rfl
      exact absurd hle (Nat.not_le.2 (hbusiest _ (hrange y) hxy))
    · intro hn a ha hleast
      by_contra hne
      -- the other one of the two is then the less loaded
      have hya : draws y = a := by
        have := hrange x
        have := hrange y
        omega
      subst hya
      exact absurd hle (Nat.not_le.2 (hleast _ (hrange x) hne))

/-- Two endpoints with three requests pending on the first and one on the second, the first drawn twice. -/
theorem p2c_prefers_less_loaded_two :
    let proxy : ReverseProxy := ⟨['/'], "http://up".toList, "http".toList, "up".toList, [], false, {}⟩
    let pending : MetricsId → Nat := fun m => if m = 0 then 3 else 1
    P2cReturns [⟨proxy, 0⟩, ⟨proxy, 1⟩] pending (fun _ => 0) (fun k => k / 2 % 2) 1 := by
  intro proxy pending
  obtain ⟨i, hi, hret, -, -, htwo⟩ := p2c_prefers_less_loaded [⟨proxy, 0⟩, ⟨proxy, 1⟩] pending (fun _ => 0)
    (fun k => k / 2 % 2) (List.cons_ne_nil _ _) (fun k => Nat.mod_lt _ (by decide)) fun _ => ⟨2, by decide⟩
  have h1 : i = 1 := htwo rfl 1 (by decide) fun b hb hne => by
    obtain rfl : b = 0 := by simp at hb; omega
    show 1 < 3
    decide
  rwa [h1] at hret

end AxumReverseProxy
