import Mathlib.Data.Nat.Log
import Mathlib.Tactic.Positivity
import Stencil.Number.Integer

/-!
# Integers rounded to 53 digits

A floating-point number keeps the first 53 binary digits of an integer.  What stands behind them is
rounded off: to the nearest number, and to the even one when two are equally near.

## Main definitions

* `nearestQuotient` — a quotient rounded to the nearest number, ties going to the even one.
* `lastPlace` — the weight of the last digit that is kept of a number.
* `nearest`, `rounded` — a natural number and an integer, rounded to 53 binary digits.

## Main results

* `rounded_eq_self_iff` — an integer is left alone exactly when its last kept place divides it.
* `rounded_of_natAbs_le` — the integers up to `2 ^ 53` are left alone.
* `rounded_mono` — rounding never turns the order of two integers around.
-/

namespace Stencil.Number

/-- A quotient rounded to the nearest natural number, a tie going to the even one. -/
def nearestQuotient (n d : Nat) : Nat :=
  if 2 * (n % d) < d ∨ (2 * (n % d) = d ∧ n / d % 2 = 0) then n / d else n / d + 1

/-- The weight of the last binary digit that is kept of a number. -/
def lastPlace (n : Nat) : Nat := 2 ^ (n.log2 - 52)

/-- A natural number rounded to 53 binary digits. -/
def nearest (n : Nat) : Nat := nearestQuotient n (lastPlace n) * lastPlace n

/-- An integer rounded to 53 binary digits. -/
def rounded (i : Int) : Int := i.sign * nearest i.natAbs

variable {n m d : Nat} {i j : Int}

/-! ### Rounded quotients -/

theorem nearestQuotient_of_dvd (hd : 0 < d) (h : d ∣ n) : nearestQuotient n d = n / d := by
  rw [nearestQuotient, Nat.mod_eq_zero_of_dvd h, if_pos (Or.inl (by omega))]

theorem nearestQuotient_mul_right {c : Nat} (hc : 0 < c) (n d : Nat) :
    nearestQuotient (n * c) (d * c) = nearestQuotient n d := by
  have hlt : 2 * (n % d * c) < d * c ↔ 2 * (n % d) < d := by
    rw [← Nat.mul_assoc, Nat.mul_lt_mul_right hc]
  have heq : 2 * (n % d * c) = d * c ↔ 2 * (n % d) = d := by
    rw [← Nat.mul_assoc, Nat.mul_left_inj hc.ne']
  simp only [nearestQuotient, Nat.mul_mod_mul_right, Nat.mul_div_mul_right _ _ hc, hlt, heq]

theorem le_nearestQuotient (n d : Nat) : n / d ≤ nearestQuotient n d := by
  unfold nearestQuotient
  split <;> omega

theorem nearestQuotient_le (n d : Nat) : nearestQuotient n d ≤ n / d + 1 := by
  unfold nearestQuotient
  split <;> omega

/-- A rounded quotient does not get smaller with the dividend. -/
theorem nearestQuotient_mono (h : n ≤ m) (d : Nat) :
    nearestQuotient n d ≤ nearestQuotient m d := by
  obtain hlt | heq := Nat.lt_or_eq_of_le (Nat.div_le_div_right (c := d) h)
  · calc nearestQuotient n d ≤ n / d + 1 := nearestQuotient_le n d
      _ ≤ m / d := hlt
      _ ≤ nearestQuotient m d := le_nearestQuotient m d
  · have hn := Nat.div_add_mod n d
    have hm := Nat.div_add_mod m d
    rw [← heq] at hm
    have hmod : n % d ≤ m % d := by omega
    simp only [nearestQuotient, ← heq]
    split <;> split <;> omega

/-! ### The last place -/

theorem lastPlace_pos (n : Nat) : 0 < lastPlace n := Nat.two_pow_pos _

/-- The digits that are kept form a number of at most 53 digits. -/
theorem div_lastPlace_lt (n : Nat) : n / lastPlace n < 2 ^ 53 := by
  rw [Nat.div_lt_iff_lt_mul (lastPlace_pos n), lastPlace, ← Nat.pow_add]
  exact Nat.lt_of_lt_of_le Nat.lt_log2_self (Nat.pow_le_pow_right (by decide) (by omega))

theorem le_div_lastPlace (h : 52 ≤ n.log2) : 2 ^ 52 ≤ n / lastPlace n := by
  have hn : n ≠ 0 := by
    rintro rfl
    simp at h
  rw [Nat.le_div_iff_mul_le (lastPlace_pos n), lastPlace, ← Nat.pow_add,
    Nat.add_sub_cancel' h]
  exact Nat.log2_self_le hn

theorem lastPlace_of_lt (h : n < 2 ^ 53) : lastPlace n = 1 := by
  by_cases hn : n = 0
  · rw [hn]
    rfl
  · have hlog : n.log2 < 53 := (Nat.log2_lt hn).mpr h
    rw [lastPlace, Nat.sub_eq_zero_of_le (by omega), Nat.pow_zero]

theorem lastPlace_dvd_of_le (h : n ≤ 2 ^ 53) : lastPlace n ∣ n := by
  obtain hlt | rfl := Nat.lt_or_eq_of_le h
  · rw [lastPlace_of_lt hlt]
    exact Nat.one_dvd n
  · decide

theorem nearest_of_dvd (h : lastPlace n ∣ n) : nearest n = n := by
  rw [nearest, nearestQuotient_of_dvd (lastPlace_pos n) h, Nat.div_mul_cancel h]

theorem nearest_eq_self_iff : nearest n = n ↔ lastPlace n ∣ n :=
  ⟨fun h => ⟨nearestQuotient n (lastPlace n), by rw [Nat.mul_comm]; exact h.symm⟩,
    nearest_of_dvd⟩

theorem log2_mul_two_pow (hn : n ≠ 0) (k : Nat) : (n * 2 ^ k).log2 = n.log2 + k := by
  rw [Nat.log2_eq_iff (by positivity), Nat.add_right_comm, Nat.pow_add, Nat.pow_add _ _ k]
  exact ⟨Nat.mul_le_mul_right _ (Nat.log2_self_le hn),
    (Nat.mul_lt_mul_right (by positivity)).mpr Nat.lt_log2_self⟩

/-- Rounding takes no notice of zeros behind the digits. -/
theorem nearest_mul_two_pow (n k : Nat) : nearest (n * 2 ^ k) = nearest n * 2 ^ k := by
  by_cases hn : n = 0
  · rw [hn, Nat.zero_mul, nearest_of_dvd (Nat.dvd_zero _), Nat.zero_mul]
  obtain hlt | hle := Nat.lt_or_ge n.log2 52
  · -- all digits of the number are kept, so only zeros can be cut off
    have hsmall : lastPlace n = 1 := by
      rw [lastPlace, Nat.sub_eq_zero_of_le (by omega), Nat.pow_zero]
    have hdvd : lastPlace (n * 2 ^ k) ∣ n * 2 ^ k := by
      rw [lastPlace, log2_mul_two_pow hn]
      exact Nat.dvd_mul_left_of_dvd (Nat.pow_dvd_pow 2 (by omega)) n
    rw [nearest_of_dvd hdvd, nearest_of_dvd (hsmall ▸ Nat.one_dvd n)]
  · have hplace : lastPlace (n * 2 ^ k) = lastPlace n * 2 ^ k := by
      rw [lastPlace, lastPlace, log2_mul_two_pow hn, ← Nat.pow_add]
      congr 1
      omega
    rw [nearest, nearest, hplace, nearestQuotient_mul_right (Nat.two_pow_pos k), Nat.mul_assoc]

/-! ### Order -/

theorem nearest_of_log2_lt (h : n.log2 < 52) : nearest n = n := by
  refine nearest_of_dvd ?_
  rw [lastPlace, Nat.sub_eq_zero_of_le h.le, Nat.pow_zero]
  exact Nat.one_dvd n

/-- Rounding keeps a number at or above the power of two below it. -/
theorem two_pow_log2_le_nearest (hn : n ≠ 0) : 2 ^ n.log2 ≤ nearest n := by
  obtain hlt | hle := Nat.lt_or_ge n.log2 52
  · rw [nearest_of_log2_lt hlt]
    exact Nat.log2_self_le hn
  · calc 2 ^ n.log2 = 2 ^ 52 * lastPlace n := by
          rw [lastPlace, ← Nat.pow_add, Nat.add_sub_cancel' hle]
      _ ≤ n / lastPlace n * lastPlace n := Nat.mul_le_mul_right _ (le_div_lastPlace hle)
      _ ≤ nearest n := Nat.mul_le_mul_right _ (le_nearestQuotient n _)

/-- Rounding keeps a number at or below the power of two above it. -/
theorem nearest_le_two_pow (n : Nat) : nearest n ≤ 2 ^ (n.log2 + 1) := by
  obtain hlt | hle := Nat.lt_or_ge n.log2 52
  · rw [nearest_of_log2_lt hlt]
    exact Nat.lt_log2_self.le
  · calc nearest n ≤ (n / lastPlace n + 1) * lastPlace n :=
          Nat.mul_le_mul_right _ (nearestQuotient_le n _)
      _ ≤ 2 ^ 53 * lastPlace n := Nat.mul_le_mul_right _ (div_lastPlace_lt n)
      _ = 2 ^ (n.log2 + 1) := by
        rw [lastPlace, ← Nat.pow_add]
        congr 1
        omega

theorem nearest_mono (h : n ≤ m) : nearest n ≤ nearest m := by
  by_cases hn : n = 0
  · rw [hn, nearest_of_dvd (Nat.dvd_zero _)]
    exact Nat.zero_le _
  have hm : m ≠ 0 := by omega
  have hlog : n.log2 ≤ m.log2 := by
    rw [Nat.le_log2 hm]
    exact (Nat.log2_self_le hn).trans h
  obtain hlt | heq := Nat.lt_or_eq_of_le hlog
  · -- a power of two stands between the two
    calc nearest n ≤ 2 ^ (n.log2 + 1) := nearest_le_two_pow n
      _ ≤ 2 ^ m.log2 := Nat.pow_le_pow_right (by decide) hlt
      _ ≤ nearest m := two_pow_log2_le_nearest hm
  · rw [nearest, nearest, lastPlace, lastPlace, heq]
    exact Nat.mul_le_mul_right _ (nearestQuotient_mono h _)

/-! ### Integers -/

@[simp] theorem rounded_natCast (n : Nat) : rounded n = nearest n := by
  obtain rfl | hn := Nat.eq_zero_or_pos n
  · rw [nearest_of_dvd (Nat.dvd_zero _)]
    rfl
  · rw [rounded, Int.sign_eq_one_of_pos (by exact_mod_cast hn), Int.one_mul, Int.natAbs_natCast]

@[simp] theorem rounded_neg (i : Int) : rounded (-i) = -rounded i := by
  rw [rounded, rounded, Int.sign_neg, Int.natAbs_neg, Int.neg_mul]

/-- **An integer is left alone exactly when its last kept place divides it.** -/
theorem rounded_eq_self_iff : rounded i = i ↔ lastPlace i.natAbs ∣ i.natAbs := by
  obtain ⟨n, rfl | rfl⟩ := i.eq_nat_or_neg
  · rw [rounded_natCast, Int.natAbs_natCast, ← nearest_eq_self_iff]
    exact Int.ofNat_inj
  · rw [rounded_neg, rounded_natCast, Int.natAbs_neg, Int.natAbs_natCast, ← nearest_eq_self_iff,
      Int.neg_inj]
    exact Int.ofNat_inj

theorem rounded_of_natAbs_le (h : i.natAbs ≤ 2 ^ 53) : rounded i = i :=
  rounded_eq_self_iff.mpr (lastPlace_dvd_of_le h)

/-- Rounding never turns the order of two integers around. -/
theorem rounded_mono (h : i ≤ j) : rounded i ≤ rounded j := by
  obtain ⟨n, rfl | rfl⟩ := i.eq_nat_or_neg <;> obtain ⟨m, rfl | rfl⟩ := j.eq_nat_or_neg
  all_goals simp only [rounded_natCast, rounded_neg]
  · exact_mod_cast nearest_mono (by omega)
  · obtain rfl : n = 0 := by omega
    obtain rfl : m = 0 := by omega
    decide
  · omega
  · have := nearest_mono (n := m) (m := n) (by omega)
    omega

end Stencil.Number
