import Mathlib.Data.List.Basic
/-!
# UTF-16

The two conversions the `String` bridges rest on: `str::encode_utf16` on the way to the guest
and `String::from_utf16` on the way back. Both come from the Rust standard library and are
modelled from the Unicode encoding they implement: a scalar value below `0x10000` is one code
unit, any other is a surrogate pair, and decoding refuses an unpaired surrogate.

Decoding undoes encoding on every string (`decodeUtf16_encodeUtf16`), and what decodes is an
encoding (`encodeUtf16_of_decodeUtf16`).
-/

namespace GraphNode.Runtime

/-- Modelled from the spec: `char::encode_utf16`. -/
def encodeUtf16Char (c : Char) : List UInt16 :=
  if c.toNat < 0x10000 then [UInt16.ofNat c.toNat]
  else
    [UInt16.ofNat (0xD800 + (c.toNat - 0x10000) / 0x400),
      UInt16.ofNat (0xDC00 + (c.toNat - 0x10000) % 0x400)]

/-- Modelled from the spec: `str::encode_utf16`. -/
def encodeUtf16 (s : String) : List UInt16 := s.data.flatMap encodeUtf16Char

/-- Modelled from the spec: `String::from_utf16`, `none` on an unpaired surrogate. -/
def decodeUtf16 : List UInt16 → Option (List Char)
  | [] => some []
  | u :: rest =>
    if u.toNat < 0xD800 ∨ 0xDFFF < u.toNat then (decodeUtf16 rest).map (Char.ofNat u.toNat :: ·)
    else if u.toNat ≤ 0xDBFF then
      match rest with
      | u' :: rest' =>
        if 0xDC00 ≤ u'.toNat ∧ u'.toNat ≤ 0xDFFF then
          (decodeUtf16 rest').map
            (Char.ofNat (0x10000 + (u.toNat - 0xD800) * 0x400 + (u'.toNat - 0xDC00)) :: ·)
        else none
      | [] => none
    else none

theorem decodeUtf16_cons (u : UInt16) (rest : List UInt16) :
    decodeUtf16 (u :: rest) =
      if u.toNat < 0xD800 ∨ 0xDFFF < u.toNat then
        (decodeUtf16 rest).map (Char.ofNat u.toNat :: ·)
      else if u.toNat ≤ 0xDBFF then
        match rest with
        | u' :: rest' =>
          if 0xDC00 ≤ u'.toNat ∧ u'.toNat ≤ 0xDFFF then
            (decodeUtf16 rest').map
              (Char.ofNat (0x10000 + (u.toNat - 0xD800) * 0x400 + (u'.toNat - 0xDC00)) :: ·)
          else none
        | [] => none
      else none := by
  cases rest <;> rfl

theorem toNat_uint16_ofNat {n : Nat} (h : n < 0x10000) : (UInt16.ofNat n).toNat = n :=
  UInt16.toNat_ofNat_of_lt h

/-- A surrogate pair recombines to the scalar value it was split from. -/
theorem surrogate_combine {n : Nat} (h₁ : 0x10000 ≤ n) (h₂ : n < 0x110000) :
    0x10000 + (0xD800 + (n - 0x10000) / 0x400 - 0xD800) * 0x400 +
      (0xDC00 + (n - 0x10000) % 0x400 - 0xDC00) = n := by
  omega

/-- Decoding a character's code units gives the character back, ahead of whatever follows. -/
theorem decodeUtf16_encodeUtf16Char_append (c : Char) (rest : List UInt16) :
    decodeUtf16 (encodeUtf16Char c ++ rest) = (decodeUtf16 rest).map (c :: ·) := by
  have hv : c.toNat < 0xD800 ∨ (0xDFFF < c.toNat ∧ c.toNat < 0x110000) := c.valid
  unfold encodeUtf16Char
  split
  · rename_i hlt
    simp only [List.singleton_append, decodeUtf16_cons, toNat_uint16_ofNat hlt,
      if_pos (by omega : c.toNat < 0xD800 ∨ 0xDFFF < c.toNat), Char.ofNat_toNat]
  · rename_i hge
    have hhi := toNat_uint16_ofNat (by omega : 0xD800 + (c.toNat - 0x10000) / 0x400 < 0x10000)
    have hlo := toNat_uint16_ofNat (by omega : 0xDC00 + (c.toNat - 0x10000) % 0x400 < 0x10000)
    have hpair : 0xDC00 ≤ 0xDC00 + (c.toNat - 0x10000) % 0x400 ∧
        0xDC00 + (c.toNat - 0x10000) % 0x400 ≤ 0xDFFF := by omega
    simp only [List.cons_append, List.nil_append, decodeUtf16_cons, hhi, hlo,
      if_neg (by omega : ¬(0xD800 + (c.toNat - 0x10000) / 0x400 < 0xD800 ∨
        0xDFFF < 0xD800 + (c.toNat - 0x10000) / 0x400)),
      if_pos (by omega : 0xD800 + (c.toNat - 0x10000) / 0x400 ≤ 0xDBFF), if_pos hpair,
      surrogate_combine (by omega : 0x10000 ≤ c.toNat) (by omega : c.toNat < 0x110000),
      Char.ofNat_toNat]

theorem decodeUtf16_encodeUtf16 (s : String) : decodeUtf16 (encodeUtf16 s) = some s.data := by
  obtain ⟨cs⟩ := s
  induction cs with
  | nil => rfl
  | cons c cs ih =>
    simp only [encodeUtf16, List.flatMap_cons] at ih ⊢
    rw [decodeUtf16_encodeUtf16Char_append, ih]
    rfl

theorem ofNat_toNat_uint16 (u : UInt16) : UInt16.ofNat u.toNat = u :=
  UInt16.toNat.inj (toNat_uint16_ofNat u.toNat_lt_size)

theorem toNat_charOfNat {n : Nat} (h : n < 0xD800 ∨ (0xDFFF < n ∧ n < 0x110000)) :
    (Char.ofNat n).toNat = n := by
  rw [Char.ofNat, dif_pos h]
  rfl

/-- A code unit outside the surrogates is the encoding of the character it decodes to. -/
theorem encodeUtf16Char_ofNat_unit {u : UInt16} (hu : u.toNat < 0xD800 ∨ 0xDFFF < u.toNat) :
    encodeUtf16Char (Char.ofNat u.toNat) = [u] := by
  have hlt : u.toNat < 0x10000 := u.toNat_lt_size
  rw [encodeUtf16Char, toNat_charOfNat (by omega), if_pos hlt, ofNat_toNat_uint16]

/-- A surrogate pair is the encoding of the character it decodes to. -/
theorem encodeUtf16Char_ofNat_pair {u u' : UInt16} (hu : 0xD800 ≤ u.toNat ∧ u.toNat ≤ 0xDBFF)
    (hu' : 0xDC00 ≤ u'.toNat ∧ u'.toNat ≤ 0xDFFF) :
    encodeUtf16Char (Char.ofNat (0x10000 + (u.toNat - 0xD800) * 0x400 + (u'.toNat - 0xDC00))) =
      [u, u'] := by
  have hhi : 0xD800 + (0x10000 + (u.toNat - 0xD800) * 0x400 + (u'.toNat - 0xDC00) - 0x10000) /
      0x400 = u.toNat := by omega
  have hlo : 0xDC00 + (0x10000 + (u.toNat - 0xD800) * 0x400 + (u'.toNat - 0xDC00) - 0x10000) %
      0x400 = u'.toNat := by omega
  rw [encodeUtf16Char, toNat_charOfNat (by omega), if_neg (by omega), hhi, hlo,
    ofNat_toNat_uint16, ofNat_toNat_uint16]

/-- Decoding accepts only encodings: code units that decode are the encoding of what they
decode to. With `decodeUtf16_encodeUtf16`, `String::from_utf16` and `encode_utf16` are inverse
bijections between valid UTF-16 and strings. -/
theorem encodeUtf16_of_decodeUtf16 {us : List UInt16} {cs : List Char}
    (h : decodeUtf16 us = some cs) : encodeUtf16 ⟨cs⟩ = us := by
  induction us using decodeUtf16.induct generalizing cs with
  | case1 =>
    cases h
    rfl
  | case2 u rest hu ih =>
    rw [decodeUtf16_cons, if_pos hu] at h
    obtain ⟨cs', hcs', rfl⟩ := Option.map_eq_some'.mp h
    change encodeUtf16Char _ ++ encodeUtf16 ⟨cs'⟩ = _
    rw [encodeUtf16Char_ofNat_unit hu, ih hcs']
    rfl
  | case3 u hu hle u' rest' hu' ih =>
    rw [decodeUtf16_cons, if_neg hu, if_pos hle] at h
    simp only [if_pos hu'] at h
    obtain ⟨cs', hcs', rfl⟩ := Option.map_eq_some'.mp h
    change encodeUtf16Char _ ++ encodeUtf16 ⟨cs'⟩ = _
    rw [encodeUtf16Char_ofNat_pair ⟨by omega, hle⟩ hu', ih hcs']
    rfl
  | case4 u hu hle u' rest' hu' =>
    rw [decodeUtf16_cons, if_neg hu, if_pos hle] at h
    simp only [if_neg hu'] at h
    cases h
  | case5 u hu hle =>
    rw [decodeUtf16_cons, if_neg hu, if_pos hle] at h
    cases h
  | case6 u rest hu hle =>
    rw [decodeUtf16_cons, if_neg hu, if_neg hle] at h
    cases h

/-- A high surrogate with nothing after it is refused. -/
example : decodeUtf16 [0xD800] = none := by decide

end GraphNode.Runtime
