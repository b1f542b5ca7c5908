import Mathlib.Data.Int.CardIntervalMod

/-!
# Taking turns

Tickets are numbered in the order they are drawn, and ticket `t` goes to place `t % n`. Any `n`
consecutive tickets go to each place once, and after any number of consecutive tickets the places
differ by at most one (`fair_turns`).
-/

namespace Turns

/-- The places of `len` consecutive tickets, the first of them numbered `start`. -/
def turns (n start len : ℕ) : List ℕ := (List.range' start len).map (· % n)

/-- Any `n` consecutive tickets of the list go to each of the `n` places once, and any number of them
go to two places about equally often. -/
structure Fair (n : ℕ) (places : List ℕ) : Prop where
  window : ∀ w, w <:+: places → w.length = n → ∀ i < n, w.count i = 1
  balanced : ∀ w, w <:+: places → ∀ i < n, ∀ j < n, w.count i ≤ w.count j + 1

variable {n start len i j : ℕ} {w : List ℕ}

@[simp] theorem length_turns (n start len : ℕ) : (turns n start len).length = len := by simp [turns]

theorem turns_append (n start a b : ℕ) :
    turns n start (a + b) = turns n start a ++ turns n (start + a) b := by
  rw [turns, ← List.range'_append_1, List.map_append]; rfl

theorem turns_succ (n start len : ℕ) : turns n start (len + 1) = turns n start len ++ [(start + len) % n] :=
  turns_append n start len 1

theorem exists_of_infix (h : w <:+: turns n start len) : ∃ s, w = turns n s w.length := by
  obtain ⟨pre, post, h⟩ := h
  have hlen : len = pre.length + w.length + post.length := by
    have hl := length_turns n start len
    rw [← h] at hl
    simpa [Nat.add_assoc] using hl.symm
  rw [hlen, turns_append, turns_append] at h
  have := (List.append_inj h (by simp)).1
  exact ⟨_, (List.append_inj this (by simp)).2⟩

theorem count_turns (start len : ℕ) (hi : i < n) :
    (turns n start len).count i + Nat.count (· ≡ i [MOD n]) start = Nat.count (· ≡ i [MOD n])
    (start + len) := by
  induction len with
  | zero => simp [turns]
  | succ len ih =>
    rw [turns_succ, List.count_append, List.count_singleton, ← Nat.add_assoc, Nat.count_succ, ← ih]
    have h : ((start + len) % n == i) = true ↔ start + len ≡ i [MOD n] := by
      rw [beq_iff_eq, Nat.ModEq, Nat.mod_eq_of_lt hi]
    by_cases hm : start + len ≡ i [MOD n]
    · rw [if_pos (h.2 hm), if_pos hm]; omega
    · rw [if_neg fun hc => hm (h.1 hc), if_neg hm]; omega

theorem count_turns_eq (start len : ℕ) (hi : i < n) :
    (turns n start len).count i + (start / n + if i < start % n then 1 else 0) =
      (start + len) / n + if i < (start + len) % n then 1 else 0 := by
  have h := count_turns start len hi
  have hn : 0 < n := Nat.zero_lt_of_lt hi
  rwa [Nat.count_modEq_card _ hn, Nat.count_modEq_card _ hn, Nat.mod_eq_of_lt hi] at h

theorem count_turns_self (hi : i < n) : (turns n start n).count i = 1 := by
  have h := count_turns_eq start n hi
  rw [Nat.add_div_right _ (Nat.zero_lt_of_lt hi), Nat.add_mod_right] at h
  omega

theorem count_turns_le (hi : i < n) (hj : j < n) :
    (turns n start len).count i ≤ (turns n start len).count j + 1 := by
  have h1 := count_turns_eq start len hi
  have h2 := count_turns_eq start len hj
  split_ifs at h1 h2 <;> omega

theorem fair_turns (n start len : ℕ) : Fair n (turns n start len) := by
  refine ⟨fun w hw hlen i hi => ?_, fun w hw i hi j hj => ?_⟩
  · obtain ⟨s, hs⟩ := exists_of_infix hw
    rw [hs, hlen]
    exact count_turns_self hi
  · obtain ⟨s, hs⟩ := exists_of_infix hw
    rw [hs]
    exact count_turns_le hi hj

/-! ### Tickets known up to a modulus -/

/-- Each of the `n` places gets one of `n` consecutive tickets that are known only modulo `m`. -/
def Covers (m n c : ℕ) : Prop := ∀ i < n, ∃ k < n, (c + k) % m % n = i

theorem mem_turns {t : ℕ} : t ∈ turns n start len ↔ ∃ k < len, (start + k) % n = t := by
  simp only [turns, List.mem_map, List.mem_range'_1]
  constructor
  · rintro ⟨x, ⟨hle, hlt⟩, rfl⟩
    exact ⟨x - start, by omega, by rw [Nat.add_sub_cancel' hle]⟩
  · rintro ⟨k, hk, rfl⟩
    exact ⟨start + k, by omega, rfl⟩

theorem exists_turn (start : ℕ) (hi : i < n) : ∃ k < n, (start + k) % n = i :=
  mem_turns.1 (List.count_pos_iff.1 (by rw [count_turns_self hi]; exact Nat.one_pos))

/-- Two tickets with one place leave another place without any. -/
theorem not_covers {m c k k' : ℕ} (hk : k < k') (hk' : k' < n) (h : (c + k) % m % n = (c + k') % m % n) :
    ¬ Covers m n c := by
  intro hc
  have hn : 0 < n := Nat.zero_lt_of_lt hk'
  let place (j : Fin n) : Fin n := ⟨(c + j) % m % n, Nat.mod_lt _ hn⟩
  have hsurj : Function.Surjective place := fun i => by
    obtain ⟨j, hj, hji⟩ := hc i i.isLt
    exact ⟨⟨j, hj⟩, Fin.ext hji⟩
  have heq := Finite.injective_iff_surjective.2 hsurj (Fin.ext h : place ⟨k, hk.trans hk'⟩ =
    place ⟨k', hk'⟩)
  exact absurd (congrArg Fin.val heq) (Nat.ne_of_lt hk)

/-- The tickets cover the places exactly when the modulus does not come between them, or comes at the
end of a round. -/
theorem covers_iff {m : ℕ} (hm : 0 < m) (c : ℕ) : Covers m n c ↔ n ∣ m ∨ c % m + n ≤ m := by
  constructor
  · intro hc
    by_contra hnot
    rw [not_or, Nat.not_le] at hnot
    have hlt := Nat.mod_lt c hm
    have hn : 0 < n := by omega
    have hr : 0 < m % n := Nat.pos_of_ne_zero fun h => hnot.1 (Nat.dvd_of_mod_eq_zero h)
    have hrn := Nat.mod_lt m hn
    have hq := Nat.div_add_mod m n
    have hmod : ∀ k, (c + k) % m = (c % m + k) % m := fun k => (Nat.mod_add_mod c m k).symm
    generalize m / n = q at hq
    generalize m % n = r at hr hrn hq
    generalize c % m = c' at hnot hlt hmod
    by_cases hcase : m - c' ≤ r
    · -- the first ticket has the place of ticket `r`, which comes behind the modulus
      refine not_covers hr hrn ?_ hc
      have h0 : (c' + 0) % m = n * q + (r - (m - c')) := by rw [Nat.add_zero, Nat.mod_eq_of_lt hlt]; omega
      have h1 : (c' + r) % m = r - (m - c') := by
        rw [show c' + r = r - (m - c') + m by omega, Nat.add_mod_right]
        exact Nat.mod_eq_of_lt (by omega)
      rw [hmod, hmod, h0, h1, Nat.mul_add_mod]
    · -- ticket `m - c' - r` has place 0, and so has the first one behind the modulus
      refine not_covers (show m - c' - r < m - c' by omega) (by omega) ?_ hc
      have h0 : (c' + (m - c' - r)) % m = n * q := by
        rw [show c' + (m - c' - r) = n * q by omega]
        exact Nat.mod_eq_of_lt (by omega)
      have h1 : (c' + (m - c')) % m = 0 := by rw [Nat.add_sub_cancel' (by omega), Nat.mod_self]
      rw [hmod, hmod, h0, h1, Nat.mul_mod_right, Nat.zero_mod]
  · rintro (hd | hle) i hi
    · obtain ⟨k, hk, hki⟩ := exists_turn c hi
      exact ⟨k, hk, by rw [Nat.mod_mod_of_dvd _ hd]; exact hki⟩
    · obtain ⟨k, hk, hki⟩ := exists_turn (c % m) hi
      refine ⟨k, hk, ?_⟩
      rw [← Nat.mod_add_mod, Nat.mod_eq_of_lt (show c % m + k < m by omega)]
      exact hki

end Turns
