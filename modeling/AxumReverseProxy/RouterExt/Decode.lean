import AxumReverseProxy.Http.HeaderValue
import AxumReverseProxy.Lib.Percent
import AxumReverseProxy.RouterExt.Simultaneous

/-!
# What the upstream decodes

`TEMPLATE_ENCODE_SET` leaves `%` as it is. The upstream, decoding a substituted text, gets the value
decoded once more (`decode_utf8PercentEncode`): the value itself exactly when there is no escape in it.
And what it decodes is the text put in for the value only where `resolve` does not look at it again.
-/

namespace AxumReverseProxy
open Replace

variable {s value value' key : Str} {c : Char} {b : UInt8}

/-- The bytes that `TEMPLATE_ENCODE_SET` leaves as they are. -/
def keepsByte (b : UInt8) : Bool := b.toNat < 128 && !TEMPLATE_ENCODE_SET (Char.ofNat b.toNat)

/-! ### Bytes of a text -/

theorem asBytes_cons (c : Char) (s : Str) :
    Str.asBytes (c :: s) = String.utf8EncodeChar c ++ s.asBytes := rfl

theorem asBytes_append (s t : Str) : Str.asBytes (s ++ t) = s.asBytes ++ t.asBytes := List.flatMap_append

theorem asBytes_injective : Function.Injective Str.asBytes := by
  intro s t h
  have henc : List.utf8Encode s = List.utf8Encode t := congrArg List.toByteArray h
  have hdec := congrArg ByteArray.utf8Decode? henc
  rw [List.utf8Decode?_utf8Encode, List.utf8Decode?_utf8Encode] at hdec
  exact congrArg Array.toList (Option.some.inj hdec)

/-- A character that is not ASCII has no byte of ASCII. -/
theorem le_of_mem_utf8EncodeChar (hc : ¬ c.toNat ≤ 127) (hb : b ∈ String.utf8EncodeChar c) :
    128 ≤ b.toNat := by
  simp only [String.utf8EncodeChar] at hb
  rw [if_neg (show ¬ c.val.toNat ≤ 127 from hc)] at hb
  split at hb
  · simp only [List.mem_cons, List.not_mem_nil, or_false] at hb
    rcases hb with rfl | rfl <;> rw [UInt8.toNat_ofNat'] <;> omega
  · split at hb
    · simp only [List.mem_cons, List.not_mem_nil, or_false] at hb
      rcases hb with rfl | rfl | rfl <;> rw [UInt8.toNat_ofNat'] <;> omega
    · simp only [List.mem_cons, List.not_mem_nil, or_false] at hb
      rcases hb with rfl | rfl | rfl | rfl <;> rw [UInt8.toNat_ofNat'] <;> omega

theorem keepsByte_of_ascii (hc : c.toNat ≤ 127) :
    keepsByte (UInt8.ofNat c.toNat) = !TEMPLATE_ENCODE_SET c := by
  rw [keepsByte, HeaderValue.toNat_byteOfAscii hc, Char.ofNat_toNat, decide_eq_true (by omega),
    Bool.true_and]

theorem keepsByte_of_isHex (hb : Percent.IsHex b) : keepsByte b = true := by
  have hall : ∀ n < 128, 48 ≤ n ∧ n ≤ 57 ∨ 65 ≤ n ∧ n ≤ 70 ∨ 97 ≤ n ∧ n ≤ 102 →
      (!TEMPLATE_ENCODE_SET (Char.ofNat n)) = true := by decide
  have hlt : b.toNat < 128 := by
    unfold Percent.IsHex at hb
    omega
  rw [keepsByte, hall _ hlt hb, decide_eq_true hlt, Bool.true_and]

/-! ### The encoder, byte by byte -/

theorem byte_hexDigit : ∀ n < 16, (hexDigit n).toNat ≤ 127 ∧ UInt8.ofNat (hexDigit n).toNat =
    Percent.hexDigit n := by
  decide

theorem asBytes_percentEncodeByte (b : UInt8) : (percentEncodeByte b).asBytes = Percent.escape b := by
  have hlt := b.toNat_lt
  obtain ⟨hh, hhv⟩ := byte_hexDigit (b.toNat / 16) (by omega)
  obtain ⟨hl, hlv⟩ := byte_hexDigit (b.toNat % 16) (by omega)
  rw [percentEncodeByte, HeaderValue.asBytes_cons_of_ascii (by decide),
    HeaderValue.asBytes_cons_of_ascii hh, HeaderValue.asBytes_cons_of_ascii hl, hhv, hlv]
  rfl

theorem asBytes_flatMap_percentEncodeByte (bs : List UInt8) (h : ∀ b ∈ bs, keepsByte b = false) :
    Str.asBytes (bs.flatMap percentEncodeByte) = Percent.encode keepsByte bs := by
  induction bs with
  | nil => rfl
  | cons b bs ih =>
    rw [List.flatMap_cons, asBytes_append, asBytes_percentEncodeByte,
      Percent.encode_cons_of_not_keep (h b (List.mem_cons_self ..)),
        ih fun b' hb' => h b' (List.mem_cons_of_mem _ hb')]

theorem asBytes_utf8PercentEncode (value : Str) :
    (utf8PercentEncode value).asBytes = Percent.encode keepsByte value.asBytes := by
  induction value with
  | nil => rfl
  | cons c value ih =>
    rw [utf8PercentEncode, List.flatMap_cons, asBytes_append, ← utf8PercentEncode, ih, asBytes_cons,
      Percent.encode_append]
    congr 1
    by_cases hc : c.toNat ≤ 127
    · rw [HeaderValue.utf8EncodeChar_of_ascii hc]
      cases hset : TEMPLATE_ENCODE_SET c with
      | true =>
        rw [if_neg (by simp)]
        refine asBytes_flatMap_percentEncodeByte _ (List.forall_mem_singleton.2 ?_)
        rw [keepsByte_of_ascii hc, hset, Bool.not_true]
      | false =>
        rw [if_pos (by simp; omega), Percent.encode_cons_of_keep
          (by rw [keepsByte_of_ascii hc, hset, Bool.not_false])]
        exact HeaderValue.asBytes_cons_of_ascii hc []
    · rw [if_neg (by simp; omega)]
      refine asBytes_flatMap_percentEncodeByte _ fun b hb => ?_
      have := le_of_mem_utf8EncodeChar hc hb
      rw [keepsByte, decide_eq_false (by omega), Bool.false_and]

/-- The upstream decodes the value, encoded or not. -/
theorem decode_utf8PercentEncode (value : Str) :
    Percent.decode (utf8PercentEncode value).asBytes = Percent.decode value.asBytes := by
  rw [asBytes_utf8PercentEncode]
  exact Percent.decode_encode_of_keep (by decide) (fun _ => keepsByte_of_isHex) _

/-! ### Values that come back -/

/-- The text put in the place of a placeholder decodes to the value. -/
def DecodesBack (value : Str) : Prop := Percent.decode (utf8PercentEncode value).asBytes = value.asBytes

instance (value : Str) : Decidable (DecodesBack value) := inferInstanceAs (Decidable (_ = _))

theorem decodesBack_iff : DecodesBack value ↔ ¬ Percent.HasEscape value.asBytes := by
  rw [DecodesBack, decode_utf8PercentEncode]
  exact Percent.decode_eq_self_iff

/-- After each parameter there stands the template with the placeholders that it has itself replaced, each
by the encoded value of its parameter. -/
def TemplateTarget.PutsInPlace (self : TemplateTarget) (params : List (Str × Str)) : Prop :=
  ∀ first, first <+: params → self.resolve first = replaceAtOnce (substitutions first) self.template

instance (t : TemplateTarget) (params : List (Str × Str)) : Decidable (t.PutsInPlace params) :=
  decidable_of_iff (∀ first ∈ params.inits,
    t.resolve first = replaceAtOnce (substitutions first) t.template)
    (by simp [TemplateTarget.PutsInPlace])

/-- Every value stands in the place of its placeholders, as a text that decodes to it. -/
structure TemplateTarget.DecodesInPlace (t : TemplateTarget) (params : List (Str × Str)) : Prop where
  inPlace : t.PutsInPlace params
  decodes : ∀ p ∈ params, placeholder p.1 <:+: t.template → DecodesBack p.2

/-- The values put in before a parameter make no new placeholder of it, unless that is its own value. -/
def TemplateTarget.NotExpanded (self : TemplateTarget) (params : List (Str × Str)) : Prop :=
  ∀ first p rest, params = first ++ p :: rest →
    utf8PercentEncode p.2 = placeholder p.1 ∨
      occurrences (placeholder p.1) (replaceAtOnce (substitutions first) self.template) =
        occurrences (placeholder p.1) self.template

/-- No value with a placeholder in the template has a `%` before two hex digits. -/
def TemplateTarget.NoEscape (self : TemplateTarget) (params : List (Str × Str)) : Prop :=
  ∀ p ∈ params, placeholder p.1 <:+: self.template → ¬ Percent.HasEscape p.2.asBytes

variable {t : TemplateTarget} {params before after : List (Str × Str)}

theorem putsInPlace_iff (hs : Separate (substitutions params)) :
    t.PutsInPlace params ↔ t.NotExpanded params := by
  have hsplit : ∀ {first p rest}, params = first ++ p :: rest → Separate (substitutions (first ++ [p])) ∧
      first ++ [p] <+: params := by
    rintro first p rest rfl
    have hpre : first ++ [p] <+: first ++ p :: rest := ⟨rest, by simp⟩
    exact ⟨separate_of_subperm hs hpre.sublist.subperm, hpre⟩
  constructor
  · intro h first p rest heq
    obtain ⟨hsep, hpre⟩ := hsplit heq
    exact (resolve_concat_iff hsep (h first ((List.prefix_append ..).trans hpre))).1 (h _ hpre)
  · intro h first hfirst
    induction first using List.reverseRecOn with
    | nil => exact (replaceAtOnce_nil_params _).symm
    | append_singleton first p ih =>
      obtain ⟨rest, hrest⟩ := hfirst
      rw [List.append_assoc, List.singleton_append] at hrest
      obtain ⟨hsep, hpre⟩ := hsplit hrest.symm
      exact (resolve_concat_iff hsep (ih ((List.prefix_append ..).trans hpre))).2
        (h first p rest hrest.symm)

theorem decodesInPlace_iff (hs : Separate (substitutions params)) :
    t.DecodesInPlace params ↔ t.NotExpanded params ∧ t.NoEscape params := by
  rw [← putsInPlace_iff hs]
  exact ⟨fun h => ⟨h.inPlace, fun p hp hin => decodesBack_iff.1 (h.decodes p hp hin)⟩,
    fun h => ⟨h.1, fun p hp hin => decodesBack_iff.2 (h.2 p hp hin)⟩⟩

/-- One parameter taken out of its place in the list. -/
theorem separate_middle (hn : (key :: (before ++ after).map (·.1)).Nodup)
    (ha : PlaceholdersApart ((key, value') :: (before ++ after))) (value : Str) :
    Separate (substitutions (before ++ (key, value) :: after)) ∧
      Separate (substitutions (before ++ after ++ [(key, value)])) := by
  have hsep : Separate (substitutions ((key, value) :: (before ++ after))) := separate_substitutions hn ha
  exact ⟨separate_of_subperm hsep List.perm_middle.subperm,
    separate_of_subperm hsep (List.perm_append_singleton ..).subperm⟩

/-- Two values in place resolve to the same text only if their own texts are the same. -/
theorem encoded_eq_of_resolve_eq (hn : (key :: (before ++ after).map (·.1)).Nodup)
    (ha : PlaceholdersApart ((key, value) :: (before ++ after))) (hin : placeholder key <:+: t.template)
    (h : t.PutsInPlace (before ++ (key, value) :: after))
    (h' : t.PutsInPlace (before ++ (key, value') :: after))
    (heq : t.resolve (before ++ (key, value) :: after) = t.resolve (before ++ (key, value') :: after)) :
    utf8PercentEncode value = utf8PercentEncode value' := by
  have hresolve : ∀ v : Str, t.PutsInPlace (before ++ (key, v) :: after) →
      t.resolve (before ++ (key, v) :: after) =
        replaceAtOnce (substitutions (before ++ after) ++ [(placeholder key, utf8PercentEncode v)])
          t.template := by
    intro v hv
    obtain ⟨-, hsep⟩ := separate_middle hn ha v
    have hperm : (before ++ after ++ [(key, v)]).Perm (before ++ (key, v) :: after) :=
      (List.perm_append_singleton ..).trans List.perm_middle.symm
    rw [hv _ List.prefix_rfl, ← substitutions_singleton (p := (key, v)), ← substitutions_append]
    exact (replaceAtOnce_perm hsep.apart hsep.nodup (hperm.map _) _).symm
  rw [hresolve value h, hresolve value' h'] at heq
  exact (oneMore_of_separate (separate_middle hn ha value).2).eq_of_replaceAtOnce_eq hin heq

end AxumReverseProxy
