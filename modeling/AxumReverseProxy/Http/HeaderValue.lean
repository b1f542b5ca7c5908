import AxumReverseProxy.Rust.Str

/-!
# `http::HeaderValue` and `http::HeaderName`

A field value is a list of bytes, none of them a control byte other than the tab; only a value of
visible ASCII bytes is readable as a `str` (`toStr`). A field name is a lower-case token.
-/

namespace AxumReverseProxy

/-- Bytes a field value may hold: no control byte but the tab, and no `DEL`. -/
def isValidByte (b : UInt8) : Bool := (32 ≤ b.toNat && b.toNat ≠ 127) || b.toNat = 9

def isVisibleByte (b : UInt8) : Bool := (32 ≤ b.toNat && b.toNat < 127) || b.toNat = 9

structure HeaderValue where
  bytes : List UInt8
  valid : bytes.all isValidByte = true
deriving DecidableEq

def Str.asBytes (s : Str) : List UInt8 := s.flatMap String.utf8EncodeChar

namespace HeaderValue

/-- The bytes read as characters, one for one. -/
def latin1 (v : HeaderValue) : Str := v.bytes.map fun b => Char.ofNat b.toNat

/-- The value as a `str`, if its bytes are all visible ASCII. -/
def toStr (v : HeaderValue) : Option Str := if v.bytes.all isVisibleByte then some v.latin1 else none

def fromStr (s : Str) : Option HeaderValue :=
  if h : s.asBytes.all isValidByte = true then some ⟨s.asBytes, h⟩ else none

def Readable (v : HeaderValue) : Prop := v.bytes.all isVisibleByte = true

instance (v : HeaderValue) : Decidable v.Readable := inferInstanceAs (Decidable (_ = true))

variable {v : HeaderValue} {s : Str}

theorem toStr_of_readable (h : v.Readable) : v.toStr = some v.latin1 := if_pos h

theorem toStr_of_not_readable (h : ¬ v.Readable) : v.toStr = none := if_neg h

theorem toStr_eq_some : v.toStr = some s ↔ v.Readable ∧ v.latin1 = s := by
  by_cases h : v.Readable
  · simp [toStr_of_readable h, h]
  · simp [toStr_of_not_readable h, h]

/-! ### Bytes and characters -/

theorem toNat_ofByte (b : UInt8) : (Char.ofNat b.toNat).toNat = b.toNat := by
  have h : b.toNat.isValidChar := .inl (by have := UInt8.toNat_lt b; omega)
  rw [Char.ofNat, dif_pos h]; rfl

theorem visible_latin1_iff : v.latin1.Visible ↔ v.Readable := by
  simp [Str.Visible, latin1, Readable, Str.isVisibleAscii, isVisibleByte, toNat_ofByte]

theorem toStr_visible (h : v.toStr = some s) : s.Visible := by
  obtain ⟨hr, rfl⟩ := toStr_eq_some.1 h
  exact visible_latin1_iff.2 hr

theorem utf8EncodeChar_of_ascii {c : Char} (h : c.toNat ≤ 127) :
    String.utf8EncodeChar c = [UInt8.ofNat c.toNat] := by
  simp only [String.utf8EncodeChar]; rw [if_pos (show c.val.toNat ≤ 127 from h)]; rfl

theorem asBytes_cons_of_ascii {c : Char} (h : c.toNat ≤ 127) (s : Str) :
    Str.asBytes (c :: s) = UInt8.ofNat c.toNat :: s.asBytes := by
  rw [Str.asBytes, List.flatMap_cons, utf8EncodeChar_of_ascii h]; rfl

theorem toNat_byteOfAscii {c : Char} (h : c.toNat ≤ 127) : (UInt8.ofNat c.toNat).toNat = c.toNat := by
  rw [UInt8.toNat_ofNat']; omega

theorem asBytes_of_visible (hs : s.Visible) : s.asBytes = s.map fun c => UInt8.ofNat c.toNat := by
  induction s with
  | nil => rfl
  | cons c s ih =>
    have hc := Str.toNat_lt_of_visible (hs c (by simp))
    rw [asBytes_cons_of_ascii (by omega), ih fun d hd => hs d (by simp [hd]), List.map_cons]

theorem all_visible_asBytes (hs : s.Visible) : s.asBytes.all isVisibleByte = true := by
  rw [asBytes_of_visible hs, List.all_eq_true]
  intro b hb
  obtain ⟨c, hc, rfl⟩ := List.mem_map.1 hb
  have hv := hs c hc
  have hlt := Str.toNat_lt_of_visible hv
  unfold isVisibleByte; unfold Str.isVisibleAscii at hv
  rw [toNat_byteOfAscii (by omega)]; exact hv

theorem isValidByte_of_visible {b : UInt8} (h : isVisibleByte b = true) : isValidByte b = true := by
  simp only [isVisibleByte, isValidByte, Bool.or_eq_true, Bool.and_eq_true, decide_eq_true_eq,
    ne_eq, decide_not, Bool.not_eq_true', decide_eq_false_iff_not] at h ⊢
  omega

def ofVisible (s : Str) (hs : s.Visible) : HeaderValue :=
  ⟨s.asBytes, List.all_eq_true.2 fun b hb =>
    isValidByte_of_visible (List.all_eq_true.1 (all_visible_asBytes hs) b hb)⟩

theorem fromStr_of_visible (hs : s.Visible) : fromStr s = some (ofVisible s hs) :=
  dif_pos (ofVisible s hs).valid

theorem readable_ofVisible (hs : s.Visible) : (ofVisible s hs).Readable := all_visible_asBytes hs

@[simp] theorem latin1_ofVisible (hs : s.Visible) : (ofVisible s hs).latin1 = s := by
  simp only [latin1, ofVisible, asBytes_of_visible hs, List.map_map]
  refine (List.map_congr_left fun c hc => ?_).trans (List.map_id s)
  have := Str.toNat_lt_of_visible (hs c hc)
  simp only [Function.comp, toNat_byteOfAscii (show c.toNat ≤ 127 by omega)]
  exact Char.ofNat_toNat c

@[simp] theorem toStr_ofVisible (hs : s.Visible) : (ofVisible s hs).toStr = some s := by
  rw [toStr_of_readable (readable_ofVisible hs), latin1_ofVisible]

theorem fromStr_eq_some_iff : fromStr s = some v ↔ s.asBytes = v.bytes := by
  rw [fromStr, Option.dite_none_right_eq_some]
  constructor
  · rintro ⟨hs, h⟩
    cases h; rfl
  · intro h
    have hv := v.valid
    refine ⟨by rwa [h], ?_⟩
    cases v
    simp only [Option.some.injEq, HeaderValue.mk.injEq]
    exact h

theorem fromStr_isSome_iff : (fromStr s).isSome = true ↔ s.asBytes.all isValidByte = true := by
  rw [fromStr]; split <;> simp_all

/-- Visible text in front of a text has no part in whether it can be a field value. -/
theorem fromStr_append_isSome_iff {pre : Str} (h : pre.Visible) :
    (fromStr (pre ++ s)).isSome = true ↔ (fromStr s).isSome = true := by
  have hpre : pre.asBytes.all isValidByte = true := (ofVisible pre h).valid
  rw [fromStr_isSome_iff, fromStr_isSome_iff, Str.asBytes, List.flatMap_append, List.all_append,
    Bool.and_eq_true]
  exact and_iff_right hpre

theorem fromStr_append_eq_iff {pre : Str} (h : pre.Visible) (hs : fromStr s = some v) :
    fromStr (pre ++ s) = some v ↔ pre = [] := by
  rw [fromStr_eq_some_iff] at hs ⊢
  rw [Str.asBytes, List.flatMap_append, ← Str.asBytes, ← Str.asBytes, hs, List.append_left_eq_self,
    asBytes_of_visible h, List.map_eq_nil_iff]

def fromStatic (s : String) (hs : Str.Visible s.toList := by decide) : HeaderValue :=
  ofVisible s.toList hs

end HeaderValue

def isOws (c : Char) : Bool := c = ' ' || c = '\t'

/-! ### Field names -/

def isTchar (c : Char) : Bool :=
  c.isAlphanum || c ∈ "!#$%&'*+-.^_`|~".toList

def Str.IsToken (s : Str) : Prop := s ≠ [] ∧ ∀ c ∈ s, isTchar c = true

instance (s : Str) : Decidable s.IsToken := inferInstanceAs (Decidable (_ ∧ _))

theorem toNat_of_isTchar {c : Char} (h : isTchar c = true) : 33 ≤ c.toNat ∧ c.toNat ≤ 126 := by
  simp only [isTchar, Bool.or_eq_true, decide_eq_true_eq] at h
  rcases h with h | h
  · delta Char.isAlphanum Char.isAlpha Char.isUpper Char.isLower Char.isDigit at h
    simp only [Bool.or_eq_true, Bool.and_eq_true, decide_eq_true_eq, ge_iff_le, UInt32.le_iff_toNat_le] at h
    have : c.toNat = c.val.toNat := rfl
    have hb : 'A'.val.toNat = 65 ∧ 'Z'.val.toNat = 90 ∧ 'a'.val.toNat = 97 ∧ 'z'.val.toNat = 122 ∧
        '0'.val.toNat = 48 ∧ '9'.val.toNat = 57 := by decide
    omega
  · exact (by decide : ∀ c ∈ "!#$%&'*+-.^_`|~".toList, 33 ≤ c.toNat ∧ c.toNat ≤ 126) c h

namespace Str.IsToken

variable {s : Str} (h : s.IsToken)
include h

theorem visible : s.Visible := fun c hc => by
  have := toNat_of_isTchar (h.2 c hc)
  simp only [Str.isVisibleAscii, Bool.or_eq_true, Bool.and_eq_true, decide_eq_true_eq]
  omega

theorem isWhitespace_eq_false : ∀ c ∈ s, Str.isWhitespace c = false := fun c hc => by
  have := toNat_of_isTchar (h.2 c hc)
  simp only [Str.isWhitespace, Bool.or_eq_false_iff, Bool.and_eq_false_iff, decide_eq_false_iff_not]
  omega

theorem not_mem {c : Char} (hc : isTchar c = false) : c ∉ s := fun hm => by
  rw [h.2 c hm] at hc; cases hc

end Str.IsToken

structure HeaderName where
  str : Str
  valid : str.IsToken ∧ str.map Char.toLower = str
deriving DecidableEq

end AxumReverseProxy
