import AxumReverseProxy.Rust.Str

/-!
# `std::net` addresses and `std::time::Duration`

Only what the crate prints: `IpAddr`'s `Display` (an IPv6 address with its longest run of zero
segments compressed) and `Duration`'s `Debug`.
-/

namespace AxumReverseProxy

structure Ipv4Addr where
  octets : UInt8 × UInt8 × UInt8 × UInt8
deriving DecidableEq, Repr

structure Ipv6Addr where
  segments : List UInt16
  len : segments.length = 8
deriving DecidableEq, Repr

inductive IpAddr
  | V4 (ip : Ipv4Addr)
  | V6 (ip : Ipv6Addr)
deriving DecidableEq, Repr

structure SocketAddr where
  ip : IpAddr
  port : UInt16
deriving DecidableEq, Repr

def Ipv4Addr.display (ip : Ipv4Addr) : Str :=
  let (a, b, c, d) := ip.octets
  Str.join ([a, b, c, d].map fun o => Nat.toDigits 10 o.toNat) ['.']

namespace Ipv6Addr

/-- `to_ipv4_mapped`: the address in `::ffff:0:0/96`, if it is one. -/
def toIpv4Mapped (ip : Ipv6Addr) : Option Ipv4Addr :=
  match ip.segments with
  | [0, 0, 0, 0, 0, 0xffff, ab, cd] =>
    some ⟨((ab >>> 8).toUInt8, ab.toUInt8, (cd >>> 8).toUInt8, cd.toUInt8)⟩
  | _ => none

/-- A run of zero segments: where it starts and how long it is. -/
structure Span where
  start : Nat := 0
  len : Nat := 0

/-- The first longest run of zero segments. -/
def zeroes (segments : List UInt16) : Span :=
  (segments.zipIdx.foldl (fun (longest, current) (segment, i) =>
    if segment = 0 then
      let current : Span := ⟨if current.len = 0 then i else current.start, current.len + 1⟩
      (if current.len > longest.len then current else longest, current)
    else (longest, ⟨0, 0⟩)) ((⟨0, 0⟩ : Span), (⟨0, 0⟩ : Span))).1

def fmtSubslice (segments : List UInt16) : Str :=
  Str.join (segments.map fun s => Nat.toDigits 16 s.toNat) [':']

def display (ip : Ipv6Addr) : Str :=
  match ip.toIpv4Mapped with
  | some ipv4 => "::ffff:".toList ++ ipv4.display
  | none =>
    let z := zeroes ip.segments
    if z.len > 1 then
      fmtSubslice (ip.segments.take z.start) ++ "::".toList ++
        fmtSubslice (ip.segments.drop (z.start + z.len))
    else fmtSubslice ip.segments

end Ipv6Addr

def IpAddr.display : IpAddr → Str
  | .V4 ip => ip.display
  | .V6 ip => ip.display

example : (⟨[0x2001, 0xdb8, 0, 0, 0, 0, 0, 1], rfl⟩ : Ipv6Addr).display = "2001:db8::1".toList := by
  decide

/-! ### The characters of a printed address -/

def isIpChar (c : Char) : Bool := c ∈ "0123456789abcdef.:".toList

theorem visible_of_isIpChar {c : Char} (hc : isIpChar c = true) :
    Str.isVisibleAscii c = true ∧ Str.isWhitespace c = false :=
  (by decide : ∀ c ∈ "0123456789abcdef.:".toList, Str.isVisibleAscii c = true ∧
    Str.isWhitespace c = false) c
    (of_decide_eq_true hc)

theorem isIpChar_digitChar {d : Nat} (h : d < 16) : isIpChar (Nat.digitChar d) = true := by
  exact (by decide : ∀ d : Fin 16, isIpChar (Nat.digitChar d) = true) ⟨d, h⟩

theorem isIpChar_toDigits {b : Nat} (h1 : 1 < b) (hb : b ≤ 16) (n : Nat) :
    ∀ c ∈ Nat.toDigits b n, isIpChar c = true := by
  induction n using Nat.strong_induction_on with
  | _ n ih =>
    intro c hc
    rw [Nat.toDigits_eq_if h1] at hc
    split at hc
    · rw [List.mem_singleton.1 hc]; exact isIpChar_digitChar (by omega)
    · rcases List.mem_append.1 hc with hc | hc
      · exact ih (n / b) (Nat.div_lt_self (by omega) h1) c hc
      · rw [List.mem_singleton.1 hc]
        exact isIpChar_digitChar (Nat.lt_of_lt_of_le (Nat.mod_lt n (by omega)) hb)

theorem Ipv4Addr.isDigit_display (ip : Ipv4Addr) : ∀ c ∈ ip.display, c.isDigit = true ∨ c = '.' := by
  refine Str.forall_mem_join (fun p hp c hc => .inl ?_) (by simp)
  obtain ⟨o, -, rfl⟩ := List.mem_map.1 hp
  exact Nat.isDigit_of_mem_toDigits (by decide) (by decide) hc

theorem Ipv4Addr.display_ne_nil (ip : Ipv4Addr) : ip.display ≠ [] := by
  have h : '.' ∈ ip.display := by
    simp [display, Str.join, List.intercalate_cons_cons]
  exact List.ne_nil_of_mem h

theorem Ipv4Addr.isIpChar_display (ip : Ipv4Addr) : ∀ c ∈ ip.display, isIpChar c = true := by
  refine Str.forall_mem_join (fun p hp => ?_) (by decide)
  obtain ⟨o, -, rfl⟩ := List.mem_map.1 hp
  exact isIpChar_toDigits (by decide) (by decide) _

namespace Ipv6Addr

theorem isIpChar_fmtSubslice (segments : List UInt16) : ∀ c ∈ fmtSubslice segments, isIpChar c = true := by
  refine Str.forall_mem_join (fun p hp => ?_) (by decide)
  obtain ⟨s, -, rfl⟩ := List.mem_map.1 hp
  exact isIpChar_toDigits (by decide) (by decide) _

theorem isIpChar_display (ip : Ipv6Addr) : ∀ c ∈ ip.display, isIpChar c = true := by
  intro c hc
  unfold display at hc
  split at hc
  · rcases List.mem_append.1 hc with hc | hc
    · exact (by decide : ∀ c ∈ "::ffff:".toList, isIpChar c = true) c hc
    · exact Ipv4Addr.isIpChar_display _ c hc
  · simp only at hc
    split at hc
    · rcases List.mem_append.1 hc with hc | hc
      · rcases List.mem_append.1 hc with hc | hc
        · exact isIpChar_fmtSubslice _ c hc
        · exact (by decide : ∀ c ∈ "::".toList, isIpChar c = true) c hc
      · exact isIpChar_fmtSubslice _ c hc
    · exact isIpChar_fmtSubslice _ c hc

end Ipv6Addr

theorem IpAddr.isIpChar_display : ∀ (ip : IpAddr), ∀ c ∈ ip.display, isIpChar c = true
  | .V4 ip => ip.isIpChar_display
  | .V6 ip => ip.isIpChar_display

namespace IpAddr

variable (ip : IpAddr)

theorem display_visible : ip.display.Visible :=
    fun c hc => (visible_of_isIpChar (ip.isIpChar_display c hc)).1

theorem not_mem_display {c : Char} (hc : isIpChar c = false) : c ∉ ip.display := fun h => by
  rw [ip.isIpChar_display c h] at hc; cases hc

theorem commaElements_display : ip.display.commaElements = [ip.display] := by
  rw [Str.commaElements_of_not_mem (ip.not_mem_display (by decide)),
    Str.trim_of_forall fun c hc => (visible_of_isIpChar (ip.isIpChar_display c hc)).2]

end IpAddr

/-! ### Printed addresses tell addresses apart -/

theorem toDigits_injective {m n : Nat} (h : Nat.toDigits 10 m = Nat.toDigits 10 n) : m = n := by
  rw [← @Nat.ofDigitChars_ten_toDigits m, h, Nat.ofDigitChars_ten_toDigits]

theorem Ipv4Addr.display_injective {a b : Ipv4Addr} (h : a.display = b.display) : a = b := by
  have hdot : ∀ os : List UInt8, ∀ s ∈ os.map fun o => Nat.toDigits 10 o.toNat, '.' ∉ s := by
    intro os s hs hm
    obtain ⟨o, -, rfl⟩ := List.mem_map.1 hs
    exact absurd (Nat.isDigit_of_mem_toDigits (by decide) (by decide) hm) (by decide)
  obtain ⟨⟨a1, a2, a3, a4⟩⟩ := a
  obtain ⟨⟨b1, b2, b3, b4⟩⟩ := b
  have hs := congrArg (fun s : Str => s.splitOn '.') h
  simp only [Ipv4Addr.display, Str.join] at hs
  rw [List.splitOn_intercalate '.' (hdot [a1, a2, a3, a4]) (by simp),
    List.splitOn_intercalate '.' (hdot [b1, b2, b3, b4]) (by simp)] at hs
  simp only [List.map_cons, List.map_nil, List.cons.injEq, and_true] at hs
  obtain ⟨h1, h2, h3, h4⟩ := hs
  rw [UInt8.toNat.inj (toDigits_injective h1), UInt8.toNat.inj (toDigits_injective h2),
    UInt8.toNat.inj (toDigits_injective h3), UInt8.toNat.inj (toDigits_injective h4)]

namespace SocketAddr

/-- An IPv6 address stands in brackets in front of the port. -/
def display (addr : SocketAddr) : Str :=
  match addr.ip with
  | .V4 ip => ip.display ++ ':' :: Nat.toDigits 10 addr.port.toNat
  | .V6 ip => '[' :: ip.display ++ ']' :: ':' :: Nat.toDigits 10 addr.port.toNat

theorem display_eq_v4 {ip : Ipv4Addr} {port : UInt16} {addr : SocketAddr}
    (h : addr.display = display ⟨.V4 ip, port⟩) : addr = ⟨.V4 ip, port⟩ := by
  have hcolon : ∀ ip : Ipv4Addr, ':' ∉ ip.display := fun ip hm => by
    rcases ip.isDigit_display _ hm with h | h <;> exact absurd h (by decide)
  obtain ⟨ip' | ip', port'⟩ := addr
  · have hs := congrArg (fun s : Str => s.splitOnce ':') h
    simp only [display] at hs
    rw [Str.splitOnce_append (hcolon ip'), Str.splitOnce_append (hcolon ip)] at hs
    simp only [Option.some.injEq, Prod.mk.injEq] at hs
    rw [Ipv4Addr.display_injective hs.1, UInt16.toNat.inj (toDigits_injective hs.2)]
  · exfalso
    have hm : '[' ∈ display ⟨.V4 ip, port⟩ := by rw [← h]; exact List.mem_cons_self ..
    rcases List.mem_append.1 hm with hm | hm
    · rcases ip.isDigit_display _ hm with h | h <;> exact absurd h (by decide)
    · rcases List.mem_cons.1 hm with h | hm
      · exact absurd h (by decide)
      · exact absurd (Nat.isDigit_of_mem_toDigits (by decide) (by decide) hm) (by decide)

end SocketAddr

namespace Ipv6Addr

theorem length_le_count_fmtSubslice (segments : List UInt16) :
    segments.length ≤ (fmtSubslice segments).count ':' + 1 := by
  induction segments with
  | nil => simp
  | cons s segments ih =>
    cases segments with
    | nil => simp
    | cons t segments =>
      have hjoin : fmtSubslice (s :: t :: segments) =
          Nat.toDigits 16 s.toNat ++ ':' :: fmtSubslice (t :: segments) := rfl
      rw [hjoin, List.count_append, List.count_cons_self, List.length_cons]
      omega

theorem two_le_count_display (ip : Ipv6Addr) : 2 ≤ ip.display.count ':' := by
  unfold display
  split
  · rw [List.count_append]
    have h : List.count ':' "::ffff:".toList = 3 := by decide
    omega
  · simp only
    split
    · rw [List.count_append, List.count_append]
      have h : List.count ':' "::".toList = 2 := by decide
      omega
    · have h := length_le_count_fmtSubslice ip.segments
      rw [ip.len] at h
      omega

end Ipv6Addr

/-! ### Durations -/

structure Duration where
  nanos : Nat
deriving DecidableEq, Repr

namespace Duration

def ofSecs (n : Nat) : Duration := ⟨n * 1000000000⟩

def min (a b : Duration) : Duration := ⟨Nat.min a.nanos b.nanos⟩

/-- The digits of `frac / (10 * divisor)` after the point, without trailing zeros. -/
def fmtFrac : Nat → Nat → Nat → Str
  | 0, _, _ => []
  | fuel + 1, frac, divisor =>
    if frac = 0 ∨ divisor = 0 then []
    else Nat.digitChar (frac / divisor) :: fmtFrac fuel (frac % divisor) (divisor / 10)

def fmtDecimal (int frac divisor : Nat) : Str :=
  if frac = 0 then Nat.toDigits 10 int
  else Nat.toDigits 10 int ++ '.' :: fmtFrac 9 frac divisor

/-- `Duration`'s `Debug`, in the largest unit that keeps the integer part positive. -/
def debug (d : Duration) : Str :=
  let secs := d.nanos / 1000000000
  let nanos := d.nanos % 1000000000
  if secs > 0 then fmtDecimal secs nanos 100000000 ++ "s".toList
  else if nanos ≥ 1000000 then fmtDecimal (nanos / 1000000) (nanos % 1000000) 100000 ++ "ms".toList
  else if nanos ≥ 1000 then fmtDecimal (nanos / 1000) (nanos % 1000) 100 ++ "µs".toList
  else fmtDecimal nanos 0 1 ++ "ns".toList

end Duration

end AxumReverseProxy
