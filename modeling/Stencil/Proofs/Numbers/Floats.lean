import Mathlib
import Stencil.Number.Basic
import Stencil.Proofs.Numbers.Nearest

/-!
# Words as floating-point numbers

The floating-point number of a word is the word rounded to 53 binary digits.  The conversion shifts
digits out one by one and keeps two bits of what it shifts out, the first digit and whether another
one was set; the two tell how the shifted number compares with the quotient.

## Main definitions

* `Represents` — a mantissa with its two bits stands for a quotient.
* `Stores` — a floating-point number holds an integer.

## Main results

* `Represents.roundedMantissa` — rounding by the two bits gives the nearest quotient.
* `stores_ofInteger` — the number of a word holds the rounded word.
* `order?_of_stores`, `truncate_of_stores` — what comparing and truncating see of it.
-/

namespace Stencil.Number

open Float.Model Float.Model.UnpackedFloat

/-- The mantissa and its two bits stand for the quotient of `n` by `d`: the first bit for a
remainder of at least one half, the second for one that is neither zero nor one half. -/
structure Represents (em : ExtendedMantissa) (n d : Nat) : Prop where
  mantissa : em.mantissa = n / d
  roundBit : em.roundBit = decide (d ≤ 2 * (n % d))
  stickyBit : em.stickyBit = decide (2 * (n % d) % d ≠ 0)

/-- A floating-point number holds an integer: zero, or a mantissa of 53 digits with the exponent
that makes it the integer. -/
inductive Stores : UnpackedFloat → Int → Prop
  | zero (s : Sign) : Stores (.zero s) 0
  | finite (s : Sign) {m k n : Nat} (hpos : 0 < m) (hlow : 2 ^ 52 ≤ m) (hhigh : m < 2 ^ 53)
      (hexp : k ≤ 1000) (h : m * 2 ^ k = n * 2 ^ 52) :
      Stores (.finite s m ((k : Int) - 52) hpos) (s.apply n)

variable {em : ExtendedMantissa} {n d m t : Nat} {e i j : Int}

/-! ### Shifting -/

namespace Represents

theorem start (n : Nat) : Represents (.ofMantissaAndAccuracy n .exact) n 1 where
  mantissa := (Nat.div_one n).symm
  roundBit := by simp [ExtendedMantissa.ofMantissaAndAccuracy, Nat.mod_one]
  stickyBit := by simp [ExtendedMantissa.ofMantissaAndAccuracy, Nat.mod_one]

/-- One more digit is shifted out. -/
theorem shiftRightOne (h : Represents em n d) (hd : 0 < d) :
    Represents em.shiftRightOne n (d * 2) := by
  have hlt := Nat.mod_lt n hd
  have hmod : n % (d * 2) = n % d + d * (n / d % 2) := Nat.mod_mul
  refine ⟨?_, ?_, ?_⟩
  · rw [ExtendedMantissa.shiftRightOne, h.mantissa, Nat.div_div_eq_div_mul]
  · rw [ExtendedMantissa.shiftRightOne, h.mantissa, hmod, Bool.eq_iff_iff]
    obtain hb | hb := Nat.mod_two_eq_zero_or_one (n / d) <;> simp [hb] <;> omega
  · -- the digits behind the new first one are all those of the old remainder
    have hzero : 2 * (n % d) % d ≠ 0 ∨ d ≤ 2 * (n % d) ↔ n % d ≠ 0 := by
      obtain hl | hl := Nat.lt_or_ge (2 * (n % d)) d
      · rw [Nat.mod_eq_of_lt hl]
        omega
      · omega
    have hnew : 2 * (n % d + d * (n / d % 2)) % (d * 2) = 2 * (n % d) := by
      rw [Nat.mul_add, Nat.mul_left_comm, ← Nat.mul_assoc, Nat.mul_comm 2,
        Nat.add_mul_mod_self_left, Nat.mod_eq_of_lt (by omega)]
    rw [ExtendedMantissa.shiftRightOne, h.roundBit, h.stickyBit, hmod, hnew, Bool.eq_iff_iff]
    simp only [Bool.or_eq_true, decide_eq_true_eq]
    omega

theorem shiftRight (h : Represents em n d) (hd : 0 < d) (t : Nat) :
    Represents (em >>> t) n (d * 2 ^ t) := by
  induction t with
  | zero =>
    rw [Nat.pow_zero, Nat.mul_one]
    exact h
  | succ t ih =>
    rw [Nat.pow_succ, ← Nat.mul_assoc]
    exact ih.shiftRightOne (by positivity)

/-- **Rounding by the two bits gives the nearest quotient.** -/
theorem roundedMantissa (h : Represents em n d) (hd : 0 < d) :
    em.roundedMantissa = nearestQuotient n d := by
  have hlt := Nat.mod_lt n hd
  obtain ⟨q, b, s⟩ := em
  obtain ⟨hq, hb, hs⟩ := h
  dsimp only at hq hb hs
  obtain hlow | heq | hhigh := Nat.lt_trichotomy (2 * (n % d)) d
  · -- less than one half
    have hb' : b = false := by simpa [hb] using hlow
    rw [nearestQuotient, if_pos (Or.inl hlow), hb', ← hq]
    cases s <;> rfl
  · -- one half: the parity decides
    have hb' : b = true := by simpa [hb] using heq.ge
    have hs' : s = false := by simp [hs, heq]
    rw [hb', hs']
    obtain he | ho := Nat.mod_two_eq_zero_or_one (n / d)
    · rw [nearestQuotient, if_pos (Or.inr ⟨heq, he⟩), ← hq]
      show q + q % 2 = q
      rw [hq, he, Nat.add_zero]
    · rw [nearestQuotient, if_neg (by omega), ← hq]
      show q + q % 2 = q + 1
      rw [hq, ho]
  · -- more than one half
    have hb' : b = true := by simpa [hb] using hhigh.le
    have hs' : s = true := by
      rw [hs, decide_eq_true_eq, Nat.mod_eq_sub_mod hhigh.le, Nat.mod_eq_of_lt (by omega)]
      omega
    rw [nearestQuotient, if_neg (by omega), hb', hs', ← hq]
    rfl

end Represents

/-! ### Rounding -/

theorem targetExponent_binary64 (he : -1074 ≤ e) (hm : 52 ≤ m.log2) :
    Format.binary64.targetExponent (totalExponent m e) = e + (m.log2 - 52 : Nat) := by
  have hbits : Format.binary64.mantissaBits = 53 := rfl
  have hmin : Format.binary64.minExponent = -1074 := rfl
  rw [Format.targetExponent, totalExponent, hbits, hmin]
  omega

/-- The shift that leaves 53 digits of a number. -/
theorem shiftToTargetExponent_binary64 (he : -1074 ≤ e) (hm : 52 ≤ m.log2) :
    shiftToTargetExponent .binary64 m e .exact =
      (ExtendedMantissa.ofMantissaAndAccuracy m .exact >>> (m.log2 - 52),
        e + (m.log2 - 52 : Nat)) := by
  have hshift : (e + (m.log2 - 52 : Nat) - e).toNat = m.log2 - 52 := by omega
  rw [shiftToTargetExponent, targetExponent_binary64 he hm, shiftToExponent, hshift]

/-- The shifted number as a quotient by the last place. -/
theorem represents_shifted (m : Nat) :
    Represents (ExtendedMantissa.ofMantissaAndAccuracy m .exact >>> (m.log2 - 52)) m
      (lastPlace m) := by
  have h := (Represents.start m).shiftRight Nat.one_pos (m.log2 - 52)
  rwa [Nat.one_mul] at h

/-- **A number of at least 53 digits is rounded to 53 digits.** -/
theorem roundWithAccuracy_exact (s : Sign) (he : -1074 ≤ e) (hm : 52 ≤ m.log2) :
    ∃ k q, ∃ hpos : 0 < q,
      roundWithAccuracy .binary64 s m e .exact = .finite s q (e + (k : Nat)) hpos ∧
      2 ^ 52 ≤ q ∧ q < 2 ^ 53 ∧ k ≤ m.log2 ∧ q * 2 ^ k = nearest m := by
  obtain ⟨q, hq⟩ : ∃ q, q = nearestQuotient m (lastPlace m) := ⟨_, rfl⟩
  have hlow : 2 ^ 52 ≤ q := hq ▸ (le_div_lastPlace hm).trans (le_nearestQuotient _ _)
  have hhigh : q ≤ 2 ^ 53 := hq ▸ (nearestQuotient_le _ _).trans (div_lastPlace_lt m)
  have hlog : 52 ≤ q.log2 := (Nat.le_log2 (by omega)).mpr hlow
  have hlog' : q.log2 < 54 := (Nat.log2_lt (by omega)).mpr (by omega)
  have hround := (represents_shifted m).roundedMantissa (lastPlace_pos m)
  have hshifted := (represents_shifted q).mantissa
  have hkept := le_div_lastPlace hlog
  refine ⟨m.log2 - 52 + (q.log2 - 52), q / lastPlace q, by omega, ?_, hkept, div_lastPlace_lt q,
    by omega, ?_⟩
  · -- the second shift takes one digit when the rounding has carried over, and none otherwise
    rw [roundWithAccuracy, shiftToTargetExponent_binary64 he hm]
    dsimp only
    rw [hround, ← hq, shiftToTargetExponent_binary64 (by omega) hlog]
    dsimp only
    rw [dif_neg (by omega)]
    simp only [hshifted, Nat.cast_add, Int.add_assoc]
  · calc q / lastPlace q * 2 ^ (m.log2 - 52 + (q.log2 - 52))
      _ = q / lastPlace q * lastPlace q * lastPlace m := by
        rw [Nat.pow_add, Nat.mul_comm (2 ^ _), ← Nat.mul_assoc, lastPlace, lastPlace]
      _ = nearest m := by rw [Nat.div_mul_cancel (lastPlace_dvd_of_le hhigh), hq, nearest]

/-- Rounding a number whose digits are those of `n`, up to a power of two, stores `n`. -/
theorem stores_roundWithAccuracy (s : Sign) {j : Nat} (hm : 52 ≤ m.log2) (hsmall : m.log2 ≤ 900)
    (hj : j ≤ 1074) (hn : nearest m = n * 2 ^ j) :
    Stores (roundWithAccuracy .binary64 s m (-(j : Int)) .exact) (s.apply n) := by
  obtain ⟨k, q, hpos, heq, hlow, hhigh, hk, hq⟩ :=
    roundWithAccuracy_exact (m := m) (e := -(j : Int)) s (by omega) hm
  rw [hn] at hq
  have hn0 : 0 < n := by
    refine Nat.pos_of_ne_zero fun h => ?_
    rw [h, Nat.zero_mul] at hq
    exact absurd hq (by positivity)
  have hjk : j < 53 + k := by
    refine (Nat.pow_lt_pow_iff_right (a := 2) (by decide)).mp ?_
    calc 2 ^ j ≤ n * 2 ^ j := Nat.le_mul_of_pos_left _ hn0
      _ = q * 2 ^ k := hq.symm
      _ < 2 ^ 53 * 2 ^ k := (Nat.mul_lt_mul_right (by positivity)).mpr hhigh
      _ = 2 ^ (53 + k) := (Nat.pow_add ..).symm
  have hexp : -(j : Int) + (k : Nat) = ((k + 52 - j : Nat) : Int) - 52 := by omega
  rw [heq]
  simp only [hexp]
  refine Stores.finite s hpos hlow hhigh (by omega)
    (Nat.eq_of_mul_eq_mul_right (Nat.two_pow_pos j) ?_)
  calc q * 2 ^ (k + 52 - j) * 2 ^ j = q * 2 ^ k * 2 ^ 52 := by
        rw [Nat.mul_assoc, ← Nat.pow_add, Nat.sub_add_cancel (by omega), Nat.pow_add, Nat.mul_assoc]
    _ = n * 2 ^ 52 * 2 ^ j := by rw [hq, Nat.mul_right_comm]

/-! ### Packing -/

theorem ofBitVec_unpackSign_packComponents (spec : Format) (s : Sign) (a) (b) :
    Sign.ofBitVec (unpackSign (packComponents spec s a b)) = s := by
  have hsign : unpackSign (packComponents spec s a b) = s.toBitVec := by
    ext i hi
    obtain rfl : i = 0 := by omega
    simp [unpackSign, packComponents, BitVec.getLsbD_append, BitVec.getElem_append]
  rw [hsign]
  cases s <;> rfl

theorem finite_congr {s s' : Sign} {m m' : Nat} {e e' : Int} (hs : s = s') (hm : m = m')
    (he : e = e') (h : 0 < m) (h' : 0 < m') :
    UnpackedFloat.finite s m e h = .finite s' m' e' h' := by
  subst hs hm he
  rfl

theorem unpack_pack_finite (s : Sign) {m k : Nat} (hpos : 0 < m) (hlow : 2 ^ 52 ≤ m)
    (hhigh : m < 2 ^ 53) (hexp : k ≤ 1000) :
    (Float.Model.pack (.finite s m ((k : Int) - 52) hpos)).unpack =
      .finite s m ((k : Int) - 52) hpos := by
  have hlog : m.log2 = 52 := (Nat.log2_eq_iff (by omega)).mpr ⟨hlow, hhigh⟩
  have hbias : Format.binary64.exponentBias = 1023 := rfl
  have hbits : Format.binary64.mantissaBits = 53 := rfl
  have hbiased : ((k : Int) - 52 + (1023 : Nat) + (52 : Nat)).toNat = k + 1023 := by omega
  have hmant : (1#1 ++ BitVec.ofNat 52 m).toNat = m := by
    rw [BitVec.toNat_append, BitVec.toNat_ofNat, BitVec.toNat_ofNat,
      ← Nat.shiftLeft_add_eq_or_of_lt (Nat.mod_lt _ (by decide)), Nat.shiftLeft_eq]
    omega
  have hexpo : (BitVec.ofNat 11 (k + 1023)).toNat = k + 1023 := by
    rw [BitVec.toNat_ofNat, Nat.mod_eq_of_lt (by omega)]
  rw [Float.Model.unpack, Float.Model.pack]
  dsimp only
  rw [UnpackedFloat.pack]
  simp only [hbias, hbits, hlog, hbiased]
  rw [if_neg (by omega), if_pos trivial]
  rw [UnpackedFloat.unpack]
  simp only [unpackMantissa_packComponents, unpackExponent_packComponents]
  rw [if_neg, if_neg]
  · refine finite_congr (ofBitVec_unpackSign_packComponents ..) hmant ?_ _ _
    rw [hexpo, hbias]
    omega
  · intro h
    rw [h] at hexpo
    have : (0#11).toNat = 0 := rfl
    omega
  · intro h
    rw [h] at hexpo
    have : (-1#11).toNat = 2047 := rfl
    omega

/-- A number that holds an integer survives its packing into 64 bits. -/
theorem Stores.unpack_pack {f : UnpackedFloat} (h : Stores f i) :
    (Float.Model.pack f).unpack = f := by
  cases h with
  | zero s => cases s <;> rfl
  | finite s hpos hlow hhigh hexp _ => exact unpack_pack_finite s hpos hlow hhigh hexp

theorem Stores.neg {f : UnpackedFloat} (h : Stores f i) : Stores f.neg (-i) := by
  cases h with
  | zero s => exact .zero _
  | finite s hpos hlow hhigh hexp h =>
    rename_i n
    have hsign : -s.apply n = (-s).apply n := by
      cases s
      · exact Int.neg_neg _
      · rfl
    rw [hsign]
    exact .finite (-s) hpos hlow hhigh hexp h

/-! ### Conversions -/

theorem ofNat_of_lt (h : n < 2 ^ 53) :
    Float.ofNat n = n.toUInt64.toFloat * Float.ofBits 0x3FF0000000000000 := by
  show Float.ofScientific n false 0 = _
  unfold Float.ofScientific
  rw [dif_pos ⟨h, by omega⟩]
  rfl

theorem ofNat_of_le (h : 2 ^ 53 ≤ n) :
    Float.ofNat n = Float.ofModel (Float.Model.ofScientific n 0) := by
  show Float.ofScientific n false 0 = _
  unfold Float.ofScientific
  rw [dif_neg fun h' => by omega]
  rfl

theorem unpack_one : (Float.ofBits 0x3FF0000000000000).toModel.unpack =
    .finite .positive (2 ^ 52) (-52) (by decide) := rfl

/-- A small number as a floating-point number is the number. -/
theorem stores_toFloat (hn : n ≠ 0) (h : n < 2 ^ 53) :
    Stores n.toUInt64.toFloat.toModel.unpack n := by
  have hlog : n.log2 < 53 := (Nat.log2_lt hn).mpr h
  have hword : n.toUInt64.toNat = n := Nat.mod_eq_of_lt (h.trans (by decide))
  have hcompare : compare (n : Int) 0 = .gt := Int.compare_eq_gt.mpr (by omega)
  have hshifted : (n <<< (52 - n.log2)).log2 = 52 := by
    rw [Nat.shiftLeft_eq, log2_mul_two_pow hn]
    omega
  have hround : UnpackedFloat.ofUInt64 .binary64 n.toUInt64 =
      roundWithAccuracy .binary64 .positive (n <<< (52 - n.log2)) (-(52 - n.log2 : Nat))
        .exact := by
    have hbits : Format.binary64.mantissaBits = 53 := rfl
    have hmin : Format.binary64.minExponent = -1074 := rfl
    have htarget : Format.binary64.targetExponent (totalExponent n 0) = -(52 - n.log2 : Nat) := by
      rw [Format.targetExponent, totalExponent, hbits, hmin]
      omega
    have hshift : (0 - -((52 - n.log2 : Nat) : Int)).toNat = 52 - n.log2 := by omega
    rw [UnpackedFloat.ofUInt64, UnpackedFloat.ofNat, UnpackedFloat.ofInt, UnpackedFloat.normalize,
      hword, hcompare]
    dsimp only
    rw [UnpackedFloat.round, Int.toNat_natCast, htarget, decreaseExponent, hshift, Int.zero_sub]
  have hstores : Stores (UnpackedFloat.ofUInt64 .binary64 n.toUInt64) n := by
    rw [hround]
    refine stores_roundWithAccuracy .positive hshifted.ge (by omega) (by omega) ?_
    rw [Nat.shiftLeft_eq, nearest_mul_two_pow, nearest_of_dvd (lastPlace_dvd_of_le h.le)]
  show Stores (Float.Model.pack (UnpackedFloat.ofUInt64 .binary64 n.toUInt64)).unpack n
  rw [hstores.unpack_pack]
  exact hstores

/-- A small number stays the same when it is multiplied by one. -/
theorem Stores.mul_one {f : UnpackedFloat} (h : Stores f i) (hi : i.natAbs < 2 ^ 53) :
    Stores (UnpackedFloat.mul .binary64 f (.finite .positive (2 ^ 52) (-52) (by decide))) i := by
  cases h with
  | zero s => exact .zero _
  | finite s hpos hlow hhigh hexp h =>
    rename_i m k n
    have hn : n < 2 ^ 53 := by
      cases s <;> simpa [Sign.apply] using hi
    have hk : k < 53 := by
      refine (Nat.pow_lt_pow_iff_right (a := 2) (by decide)).mp
        (Nat.lt_of_mul_lt_mul_left (a := 2 ^ 52) ?_)
      calc 2 ^ 52 * 2 ^ k ≤ m * 2 ^ k := Nat.mul_le_mul_right _ hlow
        _ = n * 2 ^ 52 := h
        _ < 2 ^ 52 * 2 ^ 53 := by omega
    have hlog : (m * 2 ^ 52).log2 = 104 := by
      rw [log2_mul_two_pow (by omega), (Nat.log2_eq_iff (by omega)).mpr ⟨hlow, hhigh⟩]
    have hsign : s * Sign.positive = s := by cases s <;> rfl
    have hexp' : (k : Int) - 52 + -52 = -(104 - k : Nat) := by omega
    rw [UnpackedFloat.mul, hsign, hexp']
    refine stores_roundWithAccuracy s (by omega) (by omega) (by omega) ?_
    refine Nat.eq_of_mul_eq_mul_right (Nat.two_pow_pos k) ?_
    calc nearest (m * 2 ^ 52) * 2 ^ k = m * 2 ^ k * 2 ^ 52 := by
          rw [nearest_mul_two_pow, nearest_of_dvd (lastPlace_dvd_of_le hhigh.le),
            Nat.mul_right_comm]
      _ = n * 2 ^ (104 - k) * 2 ^ k := by
          rw [h, Nat.mul_assoc, Nat.mul_assoc, ← Nat.pow_add, ← Nat.pow_add,
            Nat.sub_add_cancel (by omega)]

theorem stores_ofNat (hn : n < 2 ^ 64) : Stores (Float.ofNat n).toModel.unpack (nearest n) := by
  obtain rfl | hpos := Nat.eq_zero_or_pos n
  · exact .zero .positive
  obtain hlt | hle := Nat.lt_or_ge n (2 ^ 53)
  · have h := (stores_toFloat (Nat.ne_of_gt hpos) hlt).mul_one hlt
    rw [ofNat_of_lt hlt, nearest_of_dvd (lastPlace_dvd_of_le hlt.le)]
    show Stores (Float.Model.pack (UnpackedFloat.mul .binary64 _ _)).unpack n
    rw [unpack_one, h.unpack_pack]
    exact h
  · have hlog : (n * 2 ^ 53).log2 = n.log2 + 53 := log2_mul_two_pow (Nat.ne_of_gt hpos) 53
    have hlog' : n.log2 < 64 := (Nat.log2_lt (Nat.ne_of_gt hpos)).mpr hn
    have h : Stores (UnpackedFloat.ofScientific .binary64 n 0) (nearest n) := by
      have hround : UnpackedFloat.ofScientific .binary64 n 0 =
          roundWithAccuracy .binary64 .positive (n * 2 ^ 53) (-(53 : Nat)) .exact := by
        have hscaled : n <<< Format.binary64.mantissaBits * 10 ^ (0 : Int).toNat = n * 2 ^ 53 := by
          rw [Nat.shiftLeft_eq, Int.toNat_zero, Nat.pow_zero, Nat.mul_one]
          rfl
        have hpower : (2 : Int) ^ Format.binary64.exponentBits = 2048 := rfl
        rw [UnpackedFloat.ofScientific, dif_neg (Nat.ne_of_gt hpos), if_neg (by decide),
          if_neg (by omega), if_pos (Int.le_refl 0), UnpackedFloat.mul, hscaled]
        rfl
      rw [hround]
      exact stores_roundWithAccuracy .positive (by omega) (by omega) (by decide)
        (nearest_mul_two_pow n 53)
    rw [ofNat_of_le hle]
    show Stores (Float.Model.pack (UnpackedFloat.ofScientific .binary64 n 0)).unpack (nearest n)
    rw [h.unpack_pack]
    exact h

/-- **The floating-point number of a word holds the rounded word.** -/
theorem stores_ofInteger (w : Int64) : Stores (ofInteger w).toModel.unpack (rounded w.toInt) := by
  have hlow := Int64.le_toInt w
  have hhigh := Int64.toInt_lt w
  rw [ofInteger]
  generalize w.toInt = i at *
  cases i with
  | ofNat n =>
    rw [Int.ofNat_eq_natCast] at hhigh ⊢
    rw [rounded_natCast]
    exact stores_ofNat (by omega)
  | negSucc n =>
    have h := (stores_ofNat (n := n + 1) (by omega)).neg
    rw [Int.negSucc_eq, rounded_neg, ← Nat.cast_succ, rounded_natCast]
    show Stores (Float.Model.pack (UnpackedFloat.neg _)).unpack _
    rw [h.unpack_pack]
    exact h

/-! ### What is read of a stored integer -/

theorem compare_neg (i j : Int) : compare (-i) (-j) = (compare i j).swap := by
  obtain h | rfl | h := Int.lt_trichotomy i j
  · rw [Int.compare_eq_lt.mpr h, Int.compare_eq_gt.mpr (by omega)]
    rfl
  · rw [Std.compare_self, Std.compare_self]
    rfl
  · rw [Int.compare_eq_gt.mpr h, Int.compare_eq_lt.mpr (by omega)]
    rfl

/-- The larger exponent belongs to the larger number. -/
theorem lt_of_exponent_lt {m₁ m₂ k₁ k₂ n₁ n₂ : Nat} (hhigh : m₁ < 2 ^ 53) (hlow : 2 ^ 52 ≤ m₂)
    (h₁ : m₁ * 2 ^ k₁ = n₁ * 2 ^ 52) (h₂ : m₂ * 2 ^ k₂ = n₂ * 2 ^ 52) (hk : k₁ < k₂) : n₁ < n₂ := by
  refine Nat.lt_of_mul_lt_mul_right (a := 2 ^ 52) ?_
  calc n₁ * 2 ^ 52 = m₁ * 2 ^ k₁ := h₁.symm
    _ < 2 ^ 53 * 2 ^ k₁ := (Nat.mul_lt_mul_right (by positivity)).mpr hhigh
    _ = 2 ^ 52 * 2 ^ (k₁ + 1) := by
        rw [← Nat.pow_add, ← Nat.pow_add, ← Nat.add_assoc, Nat.add_right_comm]
    _ ≤ m₂ * 2 ^ k₂ := Nat.mul_le_mul hlow (Nat.pow_le_pow_right (by decide) hk)
    _ = n₂ * 2 ^ 52 := h₂

/-- The exponents and then the digits order the numbers that they hold. -/
theorem compare_digits {m₁ m₂ k₁ k₂ n₁ n₂ : Nat} (hlow₁ : 2 ^ 52 ≤ m₁) (hhigh₁ : m₁ < 2 ^ 53)
    (hlow₂ : 2 ^ 52 ≤ m₂) (hhigh₂ : m₂ < 2 ^ 53) (h₁ : m₁ * 2 ^ k₁ = n₁ * 2 ^ 52)
    (h₂ : m₂ * 2 ^ k₂ = n₂ * 2 ^ 52) :
    (compare ((k₁ : Int) - 52) ((k₂ : Int) - 52)).then (compare m₁ m₂) = compare (n₁ : Int) n₂ := by
  obtain hk | rfl | hk := Nat.lt_trichotomy k₁ k₂
  · have hn := lt_of_exponent_lt hhigh₁ hlow₂ h₁ h₂ hk
    rw [Int.compare_eq_lt.mpr (by omega), Int.compare_eq_lt.mpr (by omega)]
    rfl
  · rw [Std.compare_self, Ordering.eq_then]
    obtain hm | rfl | hm := Nat.lt_trichotomy m₁ m₂
    · have hn : n₁ < n₂ := by
        refine Nat.lt_of_mul_lt_mul_right (a := 2 ^ 52) ?_
        rw [← h₁, ← h₂]
        exact (Nat.mul_lt_mul_right (by positivity)).mpr hm
      rw [Nat.compare_eq_lt.mpr hm, Int.compare_eq_lt.mpr (by omega)]
    · rw [Std.compare_self, Int.compare_eq_eq.mpr (by omega)]
    · have hn : n₂ < n₁ := by
        refine Nat.lt_of_mul_lt_mul_right (a := 2 ^ 52) ?_
        rw [← h₁, ← h₂]
        exact (Nat.mul_lt_mul_right (by positivity)).mpr hm
      rw [Nat.compare_eq_gt.mpr hm, Int.compare_eq_gt.mpr (by omega)]
  · have hn := lt_of_exponent_lt hhigh₂ hlow₁ h₂ h₁ hk
    rw [Int.compare_eq_gt.mpr (by omega), Int.compare_eq_gt.mpr (by omega)]
    rfl

theorem ne_zero_of_digits {m k n : Nat} (hpos : 0 < m) (h : m * 2 ^ k = n * 2 ^ 52) : n ≠ 0 := by
  rintro rfl
  rw [Nat.zero_mul] at h
  exact absurd h (by positivity)

/-- **Numbers are compared as the integers that they hold.** -/
theorem compare_of_stores {f g : UnpackedFloat} (hf : Stores f i) (hg : Stores g j) :
    f.compare g = some (compare i j) := by
  cases hf with
  | zero s =>
    cases hg with
    | zero s' => rfl
    | finite s' hpos hlow hhigh hexp h =>
      have := ne_zero_of_digits hpos h
      cases s'
      · exact congrArg some (Int.compare_eq_gt.mpr (by simp only [Sign.apply]; omega)).symm
      · exact congrArg some (Int.compare_eq_lt.mpr (by simp only [Sign.apply]; omega)).symm
  | finite s hpos hlow hhigh hexp h =>
    have := ne_zero_of_digits hpos h
    cases hg with
    | zero s' =>
      cases s
      · exact congrArg some (Int.compare_eq_lt.mpr (by simp only [Sign.apply]; omega)).symm
      · exact congrArg some (Int.compare_eq_gt.mpr (by simp only [Sign.apply]; omega)).symm
    | finite s' hpos' hlow' hhigh' hexp' h' =>
      have := ne_zero_of_digits hpos' h'
      have hcompare := compare_digits hlow hhigh hlow' hhigh' h h'
      cases s <;> cases s' <;> simp only [UnpackedFloat.compare, Sign.apply, hcompare]
      · rw [compare_neg]
      · exact congrArg some (Int.compare_eq_lt.mpr (by omega)).symm
      · exact congrArg some (Int.compare_eq_gt.mpr (by omega)).symm

theorem scaled_of_digits {m k n : Nat} (h : m * 2 ^ k = n * 2 ^ 52) :
    scaled m ((k : Int) - 52) = n := by
  rw [scaled]
  split
  next hk =>
    have hk' : ((k : Int) - 52).toNat = k - 52 := by omega
    refine Nat.eq_of_mul_eq_mul_right (Nat.two_pow_pos 52) ?_
    rw [hk', Nat.pow_eq, Nat.mul_assoc, ← Nat.pow_add, Nat.sub_add_cancel (by omega), h]
  next hk =>
    have hk' : (-((k : Int) - 52)).toNat = 52 - k := by omega
    have hm : m = n * 2 ^ (52 - k) := by
      refine Nat.eq_of_mul_eq_mul_right (Nat.two_pow_pos k) ?_
      rw [h, Nat.mul_assoc, ← Nat.pow_add, Nat.sub_add_cancel (by omega)]
    rw [hk', hm, Nat.pow_eq, Nat.mul_div_cancel _ (by positivity)]

theorem truncate_of_stores {x : Float} (h : Stores x.toModel.unpack i) : truncate x = pinned i := by
  rw [truncate]
  generalize x.toModel.unpack = f at h
  cases h with
  | zero s => rfl
  | finite s hpos hlow hhigh hexp h =>
    cases s
    · exact congrArg (fun n : Nat => pinned (-(n : Int))) (scaled_of_digits h)
    · exact congrArg (fun n : Nat => pinned n) (scaled_of_digits h)

end Stencil.Number
