import Mathlib
import TclHost.Double.Exact
/-! # The bits of a double

A double is determined by its bits, and every pattern whose magnitude is not beyond infinity is
the one of a double: packing takes back unpacking.  So a double is a sign and a magnitude, and the
magnitude of a finite one is its significand counted from the place of its exponent.
-/
namespace TclHost.Double

open Float.Model Float.Model.UnpackedFloat

theorem toNat_unpackMantissa (b : BitVec 64) :
    (@unpackMantissa Format.binary64 b).toNat = b.toNat % 2 ^ 52 := by
  simp [unpackMantissa]

theorem toNat_unpackExponent (b : BitVec 64) :
    (@unpackExponent Format.binary64 b).toNat = b.toNat / 2 ^ 52 % 2 ^ 11 := by
  simp [unpackExponent, Nat.shiftRight_eq_div_pow]

theorem toNat_unpackSign (b : BitVec 64) :
    (@unpackSign Format.binary64 b).toNat = b.toNat / 2 ^ 63 % 2 := by
  simp [unpackSign, Nat.shiftRight_eq_div_pow]

theorem toNat_packComponents (s : Sign) (e : BitVec 11) (m : BitVec 52) :
    (packComponents Format.binary64 s e m).toNat =
      (s.toBitVec.toNat * 2 ^ 11 + e.toNat) * 2 ^ 52 + m.toNat := by
  rw [packComponents, BitVec.toNat_append, BitVec.toNat_append,
    ← Nat.shiftLeft_add_eq_or_of_lt e.isLt, ← Nat.shiftLeft_add_eq_or_of_lt m.isLt,
    Nat.shiftLeft_eq, Nat.shiftLeft_eq]

theorem toBitVec_ofBitVec (b : BitVec 1) : (Sign.ofBitVec b).toBitVec = b := by
  revert b
  decide

theorem packComponents_unpack (b : BitVec 64) :
    packComponents Format.binary64 (Sign.ofBitVec (@unpackSign Format.binary64 b))
      (@unpackExponent Format.binary64 b) (@unpackMantissa Format.binary64 b) = b := by
  apply BitVec.eq_of_toNat_eq
  rw [toNat_packComponents, toBitVec_ofBitVec, toNat_unpackMantissa, toNat_unpackExponent,
    toNat_unpackSign]
  have := b.isLt
  omega

theorem pack_subnormal (s : Sign) {m : BitVec 52} (h : 0 < m.toNat) :
    UnpackedFloat.pack Format.binary64 (.finite s m.toNat (-1074) h) =
      packComponents Format.binary64 s 0#11 m := by
  have hlog : m.toNat.log2 + 1 ≠ Format.binary64.mantissaBits := by
    have hlt := (Nat.log2_lt (Nat.ne_of_gt h)).mpr m.isLt
    have hbits : Format.binary64.mantissaBits = 53 := rfl
    omega
  rw [UnpackedFloat.pack]
  dsimp only
  rw [if_neg (by decide), if_neg hlog, BitVec.ofNat_toNat, BitVec.setWidth_eq]

theorem pack_normal (s : Sign) {e : BitVec 11} (he : e ≠ -1#11) (m : BitVec 52)
    (h : 0 < (1#1 ++ m).toNat) :
    UnpackedFloat.pack Format.binary64 (.finite s (1#1 ++ m).toNat ((e.toNat : Int) - 1075) h) =
      packComponents Format.binary64 s e m := by
  have hmantissa : (1#1 ++ m).toNat = 2 ^ 52 + m.toNat := by
    rw [BitVec.toNat_append, ← Nat.shiftLeft_add_eq_or_of_lt m.isLt]
    rfl
  have hlog : (1#1 ++ m).toNat.log2 + 1 = Format.binary64.mantissaBits := by
    have hlt := m.isLt
    rw [(Nat.log2_eq_iff (k := 52) (Nat.ne_of_gt h)).mpr (by omega)]
    rfl
  have hbiased : ((e.toNat : Int) - 1075 + Format.binary64.exponentBias + (52 : Nat)).toNat
      = e.toNat := by
    have hbias : Format.binary64.exponentBias = 1023 := rfl
    omega
  have hlt : ¬2 ^ 11 ≤ e.toNat + 1 := by
    have hne : e.toNat ≠ 2047 := fun h => he (BitVec.eq_of_toNat_eq h)
    have := e.isLt
    omega
  have hm : BitVec.ofNat 52 (1#1 ++ m).toNat = m := by
    apply BitVec.eq_of_toNat_eq
    rw [BitVec.toNat_ofNat, hmantissa]
    have := m.isLt
    omega
  rw [UnpackedFloat.pack]
  dsimp only
  rw [hbiased, if_neg hlt, if_pos hlog, hm, BitVec.ofNat_toNat,
    BitVec.setWidth_eq]

theorem pack_unpack {b : BitVec 64} (h : Format.binary64.Valid b) :
    UnpackedFloat.pack Format.binary64 (UnpackedFloat.unpack Format.binary64 b) = b := by
  have hb := packComponents_unpack b
  unfold UnpackedFloat.unpack
  dsimp only
  split
  · next he =>
    split
    · next hm =>
      rw [he, hm] at hb
      exact hb
    · next hm => exact (h.eq_packedNaN he hm).symm
  · next he =>
    split
    · next hzero =>
      split
      · next hm =>
        rw [hzero, hm] at hb
        exact hb
      · next hm =>
        rw [hzero] at hb
        rw [hzero]
        exact (pack_subnormal _ _).trans hb
    · next hnormal =>
      exact (pack_normal _ he _ _).trans hb

theorem ofBits_toBits (x : Float) : Float.ofBits x.toBits = x := by
  obtain ⟨⟨bits, valid⟩⟩ := x
  have hpack := pack_unpack valid
  simp only [Float.ofBits, Float.toBits, Float.Model.ofBits, Float.Model.pack, hpack]

theorem toBits_ofBits {b : UInt64} (h : Format.binary64.Valid b.toBitVec) :
    (Float.ofBits b).toBits = b := by
  simp only [Float.ofBits, Float.toBits, Float.Model.ofBits, Float.Model.pack, pack_unpack h]

/-- A pattern whose magnitude is not beyond infinity is the one of a double. -/
theorem valid_of_magnitude {b : BitVec 64} (h : b.toNat % 2 ^ 63 ≤ infinityBits) :
    Format.binary64.Valid b := by
  refine ⟨fun he hm => absurd (BitVec.eq_of_toNat_eq ?_) hm⟩
  have hexponent : b.toNat / 2 ^ 52 % 2 ^ 11 = 2047 :=
    (toNat_unpackExponent b).symm.trans (congrArg BitVec.toNat he)
  have hmantissa : b.toNat % 2 ^ 52 = 0 := by
    rw [infinityBits] at h
    omega
  exact (toNat_unpackMantissa b).trans hmantissa

theorem toNat_toBits_ofMagnitudeBits (negative : Bool) {bits : Nat} (h : bits ≤ infinityBits) :
    (ofMagnitudeBits negative bits).toBits.toNat = if negative then 2 ^ 63 + bits else bits := by
  have hlt : (if negative then 2 ^ 63 + bits else bits) < 2 ^ 64 := by
    rw [infinityBits] at h
    split <;> omega
  have hbits : (UInt64.ofNat (if negative then 2 ^ 63 + bits else bits)).toNat =
      if negative then 2 ^ 63 + bits else bits :=
    UInt64.toNat_ofNat_of_lt hlt
  rw [ofMagnitudeBits, toBits_ofBits, hbits]
  refine valid_of_magnitude ?_
  rw [UInt64.toNat_toBitVec, hbits]
  rw [infinityBits] at h ⊢
  split <;> omega

theorem rank?_ofMagnitudeBits (negative : Bool) {bits : Nat} (h : bits ≤ infinityBits) :
    rank? (ofMagnitudeBits negative bits) = some (if negative then -(bits : Int) else bits) := by
  have hlt : bits < 2 ^ 63 := Nat.lt_of_le_of_lt h (by decide)
  rw [rank?, toNat_toBits_ofMagnitudeBits negative h]
  cases negative with
  | false =>
    have hmod : bits % 2 ^ 63 = bits := Nat.mod_eq_of_lt hlt
    simp only [Bool.false_eq_true, if_false, hmod, if_neg (Nat.not_lt.mpr h), if_pos hlt]
  | true =>
    have hmod : (2 ^ 63 + bits) % 2 ^ 63 = bits := by omega
    have hnot : ¬2 ^ 63 + bits < 2 ^ 63 := by omega
    simp only [if_true, hmod, if_neg (Nat.not_lt.mpr h), if_neg hnot]

theorem eq_ofMagnitudeBits (x : Float) :
    x = ofMagnitudeBits (x.toBits.toNat / 2 ^ 63 % 2 == 1) (x.toBits.toNat % 2 ^ 63) := by
  have hlt := x.toBits.toNat_lt
  have hbits : (if x.toBits.toNat / 2 ^ 63 % 2 == 1 then 2 ^ 63 + x.toBits.toNat % 2 ^ 63
      else x.toBits.toNat % 2 ^ 63) = x.toBits.toNat := by
    split <;> simp_all <;> omega
  rw [ofMagnitudeBits, hbits, UInt64.ofNat_toNat, ofBits_toBits]

/-- The significand and the exponent of a finite double: the significand has as many bits as
there are, unless the exponent is the least one. -/
structure Canonical (significand : Nat) (exponent : Int) : Prop where
  lower : -1074 ≤ exponent
  upper : exponent ≤ 971
  bound : significand < 2 ^ 53
  full : exponent = -1074 ∨ 2 ^ 52 ≤ significand

def finiteBits (significand : Nat) (exponent : Int) : Nat :=
  (exponent + 1074).toNat * 2 ^ 52 + significand

theorem Canonical.finiteBits_lt {m : Nat} {e : Int} (h : Canonical m e) :
    finiteBits m e < infinityBits := by
  obtain ⟨hlower, hupper, hbound, -⟩ := h
  rw [finiteBits, infinityBits]
  omega

/-- What a double denotes determines it. -/
theorem datum_cases (x : Float) :
    (datum x = .nan ∧ x = nan) ∨
    (∃ negative, datum x = .infinite negative ∧ x = ofMagnitudeBits negative infinityBits) ∨
    ∃ negative m e, datum x = .finite negative m e ∧ Canonical m e ∧
      x = ofMagnitudeBits negative (finiteBits m e) := by
  have hx := eq_ofMagnitudeBits x
  have hlt := x.toBits.toNat_lt
  rw [datum, datumOfBits]
  generalize hnegative : (x.toBits.toNat / 2 ^ 63 % 2 == 1) = negative at hx ⊢
  split
  · next hbiased =>
    split
    · next hfraction =>
      refine .inr (.inl ⟨negative, rfl, hx.trans (congrArg _ ?_)⟩)
      rw [infinityBits]
      omega
    · next hfraction =>
      refine .inl ⟨rfl, ?_⟩
      have he : @unpackExponent Format.binary64 x.toBits.toBitVec = -1#11 :=
        BitVec.eq_of_toNat_eq ((toNat_unpackExponent _).trans hbiased)
      have hm : @unpackMantissa Format.binary64 x.toBits.toBitVec ≠ 0#52 := fun h =>
        hfraction ((toNat_unpackMantissa _).symm.trans (congrArg BitVec.toNat h))
      have hbits : x.toBits = 0x7FF8000000000000 :=
        UInt64.toBitVec_inj.mp (x.toModel.valid.eq_packedNaN he hm)
      rw [nan, ← hbits, ofBits_toBits]
  · next hbiased =>
    split
    · next hzero =>
      refine .inr (.inr ⟨negative, _, _, rfl, ⟨by omega, by omega, by omega, .inl rfl⟩, ?_⟩)
      refine hx.trans (congrArg _ ?_)
      rw [finiteBits]
      omega
    · next hnormal =>
      refine .inr (.inr ⟨negative, _, _, rfl, ⟨by omega, by omega, by omega, .inr (by omega)⟩, ?_⟩)
      refine hx.trans (congrArg _ ?_)
      rw [finiteBits]
      omega

end TclHost.Double
