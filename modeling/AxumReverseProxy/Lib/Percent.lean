import Mathlib.Data.List.Infix

/-!
# Percent-encoding

A decoder reads `%` and two hex digits as one byte and everything else as it stands, so that it changes
every text with an escape (`decode_eq_self_iff`). An encoder that keeps `%` hides none of them: the
decoder makes of the encoded bytes what it would have made of the bytes (`decode_encode_of_keep`).
-/

namespace Percent

def IsHex (b : UInt8) : Prop := 48 ≤ b.toNat ∧ b.toNat ≤ 57 ∨ 65 ≤ b.toNat ∧ b.toNat ≤ 70 ∨
    97 ≤ b.toNat ∧ b.toNat ≤ 102

instance (b : UInt8) : Decidable (IsHex b) := inferInstanceAs (Decidable (_ ∨ _))

/-- The value of a hex digit of either case. -/
def hexValue (b : UInt8) : ℕ :=
  if b.toNat ≤ 57 then b.toNat - 48 else if b.toNat ≤ 70 then b.toNat - 55 else b.toNat - 87

def hexDigit (n : ℕ) : UInt8 := .ofNat (if n < 10 then 48 + n else 55 + n)

def decode : List UInt8 → List UInt8
  | b :: h :: l :: bs =>
    if b = 37 ∧ IsHex h ∧ IsHex l then .ofNat (16 * hexValue h + hexValue l) :: decode bs
    else b :: decode (h :: l :: bs)
  | bs => bs

def escape (b : UInt8) : List UInt8 := [37, hexDigit (b.toNat / 16), hexDigit (b.toNat % 16)]

/-- All bytes but those to keep are escaped. -/
def encode (keep : UInt8 → Bool) (bs : List UInt8) : List UInt8 :=
  bs.flatMap fun b => if keep b then [b] else escape b

def HasEscape (bs : List UInt8) : Prop := ∃ h l, IsHex h ∧ IsHex l ∧ [37, h, l] <:+: bs

variable {keep : UInt8 → Bool} {bs t : List UInt8} {b h l : UInt8}

/-! ### One step -/

/-- The bytes begin with an escape. -/
def StartsEscape (bs : List UInt8) : Prop := ∃ h l t, bs = 37 :: h :: l :: t ∧ IsHex h ∧ IsHex l

theorem decode_escaped (hh : IsHex h) (hl : IsHex l) (bs : List UInt8) :
    decode (37 :: h :: l :: bs) = .ofNat (16 * hexValue h + hexValue l) :: decode bs := by
  rw [decode, if_pos ⟨rfl, hh, hl⟩]

theorem decode_cons_of_not_escape (hb : ¬ StartsEscape (b :: bs)) : decode (b :: bs) = b :: decode bs := by
  match bs with
  | [] => rfl
  | [_] => rfl
  | h :: l :: bs =>
    rw [decode, if_neg]
    rintro ⟨rfl, hh, hl⟩
    exact hb ⟨h, l, bs, rfl, hh, hl⟩

theorem not_startsEscape_of_ne (hb : b ≠ 37) (bs : List UInt8) : ¬ StartsEscape (b :: bs) := by
  rintro ⟨_, _, _, h, -⟩
  exact hb (List.cons.inj h).1

/-- Going through the bytes as the decoder does. -/
theorem escape_induction {P : List UInt8 → Prop} (nil : P [])
    (escaped : ∀ h l t, IsHex h → IsHex l → P t → P (37 :: h :: l :: t))
    (plain : ∀ b t, ¬ StartsEscape (b :: t) → P t → P (b :: t)) (bs : List UInt8) : P bs := by
  match bs with
  | [] => exact nil
  | b :: t =>
    by_cases hb : StartsEscape (b :: t)
    · obtain ⟨h, l, t', heq, hh, hl⟩ := hb
      have : t'.length ≤ t.length := by
        have := congrArg List.length heq
        simp only [List.length_cons] at this
        omega
      rw [heq]
      exact escaped h l t' hh hl (escape_induction nil escaped plain t')
    · exact plain b t hb (escape_induction nil escaped plain t)
termination_by bs.length

/-! ### What decoding changes -/

theorem hasEscape_cons_iff : HasEscape (b :: t) ↔ StartsEscape (b :: t) ∨ HasEscape t := by
  constructor
  · rintro ⟨h, l, hh, hl, hin⟩
    rcases List.infix_cons_iff.1 hin with ⟨r, hr⟩ | hin
    · exact .inl ⟨h, l, r, hr.symm, hh, hl⟩
    · exact .inr ⟨h, l, hh, hl, hin⟩
  · rintro (⟨h, l, r, hr, hh, hl⟩ | ⟨h, l, hh, hl, hin⟩)
    · exact ⟨h, l, hh, hl, hr ▸ (List.prefix_append [37, h, l] r).isInfix⟩
    · exact ⟨h, l, hh, hl, hin.trans (List.suffix_cons ..).isInfix⟩

theorem length_decode_le (bs : List UInt8) : (decode bs).length ≤ bs.length := by
  induction bs using escape_induction with
  | nil => exact Nat.le_refl _
  | escaped h l t hh hl ih =>
    rw [decode_escaped hh hl]
    simp only [List.length_cons]
    omega
  | plain b t hb ih =>
    rw [decode_cons_of_not_escape hb]
    exact Nat.succ_le_succ ih

theorem decode_eq_self_iff : decode bs = bs ↔ ¬ HasEscape bs := by
  induction bs using escape_induction with
  | nil => exact iff_of_true rfl fun ⟨h, l, _, _, hin⟩ => List.cons_ne_nil _ _ (List.infix_nil.1 hin)
  | escaped h l t hh hl ih =>
    have hlen := length_decode_le t
    refine iff_of_false (fun heq => ?_) (not_not.2 (hasEscape_cons_iff.2 (.inl ⟨h, l, t, rfl, hh, hl⟩)))
    have := congrArg List.length heq
    rw [decode_escaped hh hl] at this
    simp only [List.length_cons] at this
    omega
  | plain b t hb ih =>
    rw [decode_cons_of_not_escape hb, hasEscape_cons_iff, List.cons.injEq, ih]
    simp [hb]

/-! ### Decoding what was encoded -/

theorem encode_append (bs bs' : List UInt8) : encode keep (bs ++ bs') = encode keep bs ++ encode keep bs' :=
  List.flatMap_append

theorem encode_cons_of_keep (hb : keep b = true) : encode keep (b :: bs) = b :: encode keep bs := by
  simp [encode, hb]

theorem encode_cons_of_not_keep (hb : keep b = false) :
    encode keep (b :: bs) = escape b ++ encode keep bs := by
  simp [encode, hb]

theorem isHex_hexDigit : ∀ n < 16, IsHex (hexDigit n) ∧ hexValue (hexDigit n) = n := by decide

theorem decode_escape_append (b : UInt8) (bs : List UInt8) : decode (escape b ++ bs) = b :: decode bs := by
  have hlt := b.toNat_lt
  obtain ⟨hh, hhv⟩ := isHex_hexDigit (b.toNat / 16) (by omega)
  obtain ⟨hl, hlv⟩ := isHex_hexDigit (b.toNat % 16) (by omega)
  have hb : 16 * (b.toNat / 16) + b.toNat % 16 = b.toNat := by omega
  rw [escape, List.cons_append, List.cons_append, List.cons_append, List.nil_append,
    decode_escaped hh hl, hhv, hlv, hb, UInt8.ofNat_toNat]

theorem exists_of_encode_eq_cons (hh : IsHex h) (heq : encode keep bs = h :: t) :
    ∃ bs', bs = h :: bs' ∧ t = encode keep bs' := by
  match bs with
  | [] => cases heq
  | b :: bs =>
    cases hb : keep b with
    | true =>
      rw [encode_cons_of_keep hb] at heq
      obtain ⟨rfl, rfl⟩ := List.cons.inj heq
      exact ⟨bs, rfl, rfl⟩
    | false =>
      rw [encode_cons_of_not_keep hb] at heq
      obtain rfl : 37 = h := (List.cons.inj heq).1
      exact absurd hh (by decide)

/-- Escaping brings no escape that was not there. -/
theorem startsEscape_of_encode (hb : StartsEscape (37 :: encode keep bs)) : StartsEscape (37 :: bs) := by
  obtain ⟨h, l, t, heq, hh, hl⟩ := hb
  obtain ⟨bs, rfl, hbs⟩ := exists_of_encode_eq_cons hh (List.cons.inj heq).2
  obtain ⟨bs, rfl, -⟩ := exists_of_encode_eq_cons hl hbs.symm
  exact ⟨h, l, bs, rfl, hh, hl⟩

theorem decode_encode_of_keep (h37 : keep 37 = true) (hhex : ∀ b, IsHex b → keep b = true)
    (bs : List UInt8) :
    decode (encode keep bs) = decode bs := by
  induction bs using escape_induction with
  | nil => rfl
  | escaped h l t hh hl ih =>
    rw [encode_cons_of_keep h37, encode_cons_of_keep (hhex h hh), encode_cons_of_keep (hhex l hl),
      decode_escaped hh hl, decode_escaped hh hl, ih]
  | plain b t hb ih =>
    rw [decode_cons_of_not_escape hb]
    cases hk : keep b with
    | false => rw [encode_cons_of_not_keep hk, decode_escape_append, ih]
    | true =>
      rw [encode_cons_of_keep hk]
      by_cases hne : b = 37
      · subst hne
        rw [decode_cons_of_not_escape fun he => hb (startsEscape_of_encode he), ih]
      · rw [decode_cons_of_not_escape (not_startsEscape_of_ne hne _), ih]

end Percent
