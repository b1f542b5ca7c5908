import AxumReverseProxy.Lib.Replace
import AxumReverseProxy.Rust.Str

/-!
# `TemplateTarget`

Parameter values are percent-encoded and put in the place of their placeholders, one parameter after
the other.
-/

namespace AxumReverseProxy

/-- The ASCII characters that are percent-encoded in parameter values. -/
def TEMPLATE_ENCODE_SET (c : Char) : Bool := c.toNat < 32 || c.toNat = 127 || c ∈ " @#?\\[]".toList

def hexDigit (n : Nat) : Char := "0123456789ABCDEF".toList.getD n '0'

def percentEncodeByte (b : UInt8) : Str := ['%', hexDigit (b.toNat / 16), hexDigit (b.toNat % 16)]

/-- `utf8_percent_encode(value, TEMPLATE_ENCODE_SET)`. -/
def utf8PercentEncode (value : Str) : Str :=
  value.flatMap fun c =>
    if c.toNat < 128 && !TEMPLATE_ENCODE_SET c then [c]
    else (String.utf8EncodeChar c).flatMap percentEncodeByte

def placeholder (key : Str) : Str := '{' :: key ++ ['}']

structure TemplateTarget where
  template : Str
deriving DecidableEq

def TemplateTarget.resolve (self : TemplateTarget) (params : List (Str × Str)) : Str :=
  params.foldl (fun result (key, value) =>
    Replace.replaceAll (placeholder key) (utf8PercentEncode value) result) self.template

def substitutions (params : List (Str × Str)) : List (Str × Str) :=
  params.map fun p => (placeholder p.1, utf8PercentEncode p.2)

variable {params : List (Str × Str)} {value key : Str} {c : Char}

theorem resolve_eq (t : TemplateTarget) :
    t.resolve params = Replace.replaceEach (substitutions params) t.template := by
  rw [TemplateTarget.resolve, Replace.replaceEach, substitutions, List.foldl_map]

example : (TemplateTarget.mk "https://cdn/\x7bid\x7d".toList).resolve [("id".toList, "a?b".toList)] =
    "https://cdn/a%3Fb".toList := by decide

/-! ### Encoded values -/

theorem hexDigit_mem (n : Nat) : hexDigit n ∈ "0123456789ABCDEF".toList := by
  rw [hexDigit, List.getD_eq_getElem?_getD]
  cases h : "0123456789ABCDEF".toList[n]? with
  | none => decide
  | some d => exact List.mem_of_getElem? h

theorem mem_percentEncodeByte {b : UInt8} (h : c ∈ percentEncodeByte b) :
    c ∈ "%0123456789ABCDEF".toList := by
  simp only [percentEncodeByte, List.mem_cons, List.not_mem_nil, or_false] at h
  rcases h with rfl | rfl | rfl
  · decide
  · exact List.mem_cons_of_mem _ (hexDigit_mem _)
  · exact List.mem_cons_of_mem _ (hexDigit_mem _)

theorem mem_utf8PercentEncode (hc : c ∉ "%0123456789ABCDEF".toList) :
    c ∈ utf8PercentEncode value ↔ c ∈ value ∧ c.toNat < 128 ∧ TEMPLATE_ENCODE_SET c = false := by
  simp only [utf8PercentEncode, List.mem_flatMap]
  constructor
  · rintro ⟨d, hd, h⟩
    split at h
    · next hs =>
      obtain rfl := List.mem_singleton.1 h
      simpa [hd] using hs
    · obtain ⟨b, -, hb⟩ := List.mem_flatMap.1 h
      exact absurd (mem_percentEncodeByte hb) hc
  · rintro ⟨hm, hlt, hset⟩
    exact ⟨c, hm, by simp [hlt, hset]⟩

theorem not_mem_utf8PercentEncode (hset : TEMPLATE_ENCODE_SET c = true)
    (hc : c ∉ "%0123456789ABCDEF".toList) :
    c ∉ utf8PercentEncode value := fun h => by
  have := ((mem_utf8PercentEncode hc).1 h).2.2
  rw [hset] at this; cases this

theorem mem_placeholder : c ∈ placeholder key ↔ c = '{' ∨ c ∈ key ∨ c = '}' := by
  simp [placeholder]

end AxumReverseProxy
