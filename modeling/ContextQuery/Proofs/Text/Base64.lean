import ContextQuery.Text.Base64
import Mathlib.Data.List.Basic

namespace ContextQuery.Text

def base64Value (c : Char) : Nat :=
  if 97 ≤ c.toNat then c.toNat - 71
  else if 65 ≤ c.toNat then c.toNat - 65
  else if 48 ≤ c.toNat then c.toNat + 4
  else if c = '+' then 62
  else 63

theorem base64Value_base64Digit {n : Nat} (h : n < 64) : base64Value (base64Digit n) = n := by
  have hall : ∀ n < 64, base64Value (base64Digit n) = n := by decide +kernel
  exact hall n h

theorem base64Digit_ne_pad {n : Nat} (h : n < 64) : base64Digit n ≠ '=' := by
  have hall : ∀ n < 64, base64Digit n ≠ '=' := by decide +kernel
  exact hall n h

def base64Decode : List Char → List Nat
  | w :: x :: y :: z :: rest =>
    let first := base64Value w * 4 + base64Value x / 16
    let second := base64Value x % 16 * 16 + base64Value y / 4
    if y = '=' then [first]
    else if z = '=' then [first, second]
    else first :: second :: (base64Value y % 4 * 64 + base64Value z) :: base64Decode rest
  | _ => []

theorem base64Decode_base64Bytes {bytes : List Nat} (h : ∀ b ∈ bytes, b < 256) :
    base64Decode (base64Bytes bytes) = bytes := by
  fun_induction base64Bytes bytes with
  | case1 => rfl
  | case2 a =>
    have ha : a < 256 := h a (by simp)
    simp (disch := omega) only [base64Decode, base64Value_base64Digit, ↓reduceIte,
      List.cons.injEq, and_true]
    omega
  | case3 a b =>
    have ha : a < 256 := h a (by simp)
    have hb : b < 256 := h b (by simp)
    simp (disch := omega) only [base64Decode, base64Value_base64Digit, base64Digit_ne_pad,
      ↓reduceIte, List.cons.injEq, and_true]
    omega
  | case4 a b c rest ih =>
    have ha : a < 256 := h a (by simp)
    have hb : b < 256 := h b (by simp)
    have hc : c < 256 := h c (by simp)
    simp (disch := omega) only [base64Decode, base64Value_base64Digit, base64Digit_ne_pad,
      ↓reduceIte, List.cons.injEq]
    exact ⟨by omega, by omega, by omega, ih fun d hd => h d (by simp [hd])⟩

theorem utf8Bytes_lt (s : String) : ∀ b ∈ utf8Bytes s, b < 256 := by
  intro b hb
  obtain ⟨byte, -, rfl⟩ := List.mem_map.1 hb
  exact byte.toNat_lt

theorem utf8Bytes_injective : Function.Injective utf8Bytes := by
  intro s t h
  have hbytes := (List.map_inj_right fun a b => UInt8.toNat_inj.1).1 h
  exact String.toByteArray_inj.1 (ByteArray.ext (Array.toList_inj.1 hbytes))

theorem base64_injective : Function.Injective base64 := by
  intro s t h
  have hdigits : base64Bytes (utf8Bytes s) = base64Bytes (utf8Bytes t) := String.ofList_injective h
  apply utf8Bytes_injective
  rw [← base64Decode_base64Bytes (utf8Bytes_lt s), hdigits,
    base64Decode_base64Bytes (utf8Bytes_lt t)]

end ContextQuery.Text
