import Stencil.Proofs.Numbers.Comparing
import Stencil.Script.Builtin
import Stencil.Script.Operator

/-!
# Operations on words

Loose comparison, the remainder and the conversion `%d` take two words as floating-point numbers, so
they act on what 53 binary digits keep of them.  Words of at most 53 digits are kept whole, and on
them the operations are those of the integers; larger ones run together with their neighbours.
Strict comparison and the exact part of the arithmetic never leave the integers.

## Main definitions

* `kept` — the word that 53 digits keep of a word.
* `ActsOn` — the operations on two words act as those of the integers on two words.

## Main results

* `actsOn_words` — they act on all words as on the kept words, and on those that are kept whole as
  on the words themselves.
* `neighbours_run_together` — two different words that are taken for equal.
* `looseOrder?_words_ne_gt` — the order of two words is never turned around.
-/

namespace Stencil

open Number

/-- The word that is left of a word when it is rounded to 53 binary digits; the largest word stands
in for what is rounded up past it. -/
def kept (x : Int64) : Int64 := pinned (rounded x.toInt)

/-- The operations on the words `x` and `y` are those of the integers on the words `a` and `b`:
equality, the order, the truncated remainder, and the decimal that `%d` writes. -/
structure ActsOn (x y a b : Int64) : Prop where
  looseEq : Value.looseEq (.int x) (.int y) = decide (a = b)
  looseOrder? : Value.looseOrder? (.int x) (.int y) = some (compare a.toInt b.toInt)
  modulo : y ≠ 0 → ∃ r, Value.modulo (.int x) (.int y) = .ok (.int r) ∧
    r.toInt = a.toInt.tmod b.toInt
  format : callBuiltin? "sprintf" [.string "%d", .int x] = some (.ok (.string (toString a.toInt)))

variable {x y : Int64} {i : Int}

/-! ### Kept words -/

theorem Number.toInt_pinned (hlow : -2 ^ 63 ≤ i) : (pinned i).toInt = min i (2 ^ 63 - 1) := by
  have hmin : Int64.minValue.toInt = -2 ^ 63 := rfl
  have hmax : Int64.maxValue.toInt = 2 ^ 63 - 1 := rfl
  rw [pinned, if_neg (by omega)]
  split
  · omega
  · rw [Int64.toInt_ofInt_of_le (by omega) (by omega)]
    omega

/-- A number that lost digits is even. -/
theorem Number.nearest_ne_max (n : Nat) : nearest n ≠ 2 ^ 63 - 1 := by
  intro h
  obtain hlt | hle := Nat.lt_or_ge n (2 ^ 53)
  · rw [nearest_of_dvd (lastPlace_dvd_of_le hlt.le)] at h
    omega
  · have hlog : 53 ≤ n.log2 := (Nat.le_log2 (by omega)).mpr hle
    have heven : 2 ∣ nearest n :=
      Nat.dvd_mul_left_of_dvd (dvd_pow_self 2 (show n.log2 - 52 ≠ 0 by omega)) _
    omega

theorem Number.rounded_ne_max (i : Int) : rounded i ≠ 2 ^ 63 - 1 := by
  obtain ⟨n, rfl | rfl⟩ := i.eq_nat_or_neg
  · have := nearest_ne_max n
    rw [rounded_natCast]
    omega
  · rw [rounded_neg, rounded_natCast]
    omega

theorem Number.rounded_word_bounds (x : Int64) :
    -2 ^ 63 ≤ rounded x.toInt ∧ rounded x.toInt ≤ 2 ^ 63 := by
  have hlow := rounded_mono (Int64.le_toInt x)
  have hhigh := rounded_mono (Int64.toInt_lt x).le
  exact ⟨hlow, hhigh⟩

theorem toInt_kept (x : Int64) : (kept x).toInt = min (rounded x.toInt) (2 ^ 63 - 1) :=
  toInt_pinned (rounded_word_bounds x).1

/-- Pinning takes nothing from the order of rounded words: none of them is the largest word. -/
theorem compare_kept (x y : Int64) :
    compare (kept x).toInt (kept y).toInt = compare (rounded x.toInt) (rounded y.toInt) := by
  have hx := rounded_word_bounds x
  have hy := rounded_word_bounds y
  have hx' := rounded_ne_max x.toInt
  have hy' := rounded_ne_max y.toInt
  rw [toInt_kept, toInt_kept]
  obtain h | h | h := Int.lt_trichotomy (rounded x.toInt) (rounded y.toInt)
  · rw [Int.compare_eq_lt.mpr h, Int.compare_eq_lt.mpr (by omega)]
  · rw [h, Std.compare_self, Std.compare_self]
  · rw [Int.compare_eq_gt.mpr h, Int.compare_eq_gt.mpr (by omega)]

/-- Only zero is kept as zero. -/
theorem kept_eq_zero_iff : kept x = 0 ↔ x = 0 := by
  have hzero : rounded x.toInt = 0 ↔ x.toInt = 0 := by
    refine ⟨fun h => ?_, fun h => by rw [h]; rfl⟩
    rw [rounded, Int.mul_eq_zero, Int.sign_eq_zero_iff_zero, Int.natCast_eq_zero] at h
    obtain h | h := h
    · exact h
    · by_contra hi
      have hpos : 0 < 2 ^ x.toInt.natAbs.log2 := Nat.two_pow_pos _
      have hle := two_pow_log2_le_nearest (Int.natAbs_ne_zero.mpr hi)
      omega
  rw [← Int64.toInt_inj, ← Int64.toInt_inj, toInt_kept, Int64.toInt_zero, ← hzero]
  omega

/-- A word whose last kept place divides it is kept whole. -/
theorem kept_of_dvd (h : lastPlace x.toInt.natAbs ∣ x.toInt.natAbs) : kept x = x := by
  have hhigh := Int64.toInt_lt x
  rw [← Int64.toInt_inj, toInt_kept, rounded_eq_self_iff.mpr h]
  omega

/-! ### Order and equality -/

theorem Number.compare_ofInteger (x y : Int64) :
    (ofInteger x).toModel.unpack.compare (ofInteger y).toModel.unpack =
      some (compare (kept x).toInt (kept y).toInt) := by
  rw [compare_of_stores (stores_ofInteger x) (stores_ofInteger y), compare_kept]

theorem Number.beq_ofInteger (x y : Int64) :
    (ofInteger x == ofInteger y) = decide (kept x = kept y) := by
  rw [beq_eq_compare, compare_ofInteger, Bool.eq_iff_iff, decide_eq_true_eq, ← Int64.toInt_inj]
  simp

theorem Number.order?_ofInteger (x y : Int64) :
    order? (ofInteger x) (ofInteger y) = some (compare (kept x).toInt (kept y).toInt) := by
  rw [order?_eq_compare, compare_ofInteger]

/-! ### The operations -/

theorem truncate_ofInteger (x : Int64) : truncate (ofInteger x) = kept x :=
  truncate_of_stores (stores_ofInteger x)

/-- The remainder of two words is a word. -/
theorem toInt_ofInt_tmod (x : Int64) (hy : y ≠ 0) :
    (Int64.ofInt (x.toInt.tmod y.toInt)).toInt = x.toInt.tmod y.toInt := by
  have hlow := Int64.le_toInt y
  have hhigh := Int64.toInt_lt y
  have hne : y.toInt ≠ 0 := fun h => hy (Int64.toInt_inj.mp h)
  have hlt : (x.toInt.tmod y.toInt).natAbs < y.toInt.natAbs := by
    rw [Int.natAbs_tmod]
    exact Nat.mod_lt _ (Int.natAbs_pos.mpr hne)
  have hmin : Int64.minValue.toInt = -2 ^ 63 := rfl
  exact Int64.toInt_ofInt_of_le (by omega) (by omega)

/-- The operations act on two words as on the words that 53 digits keep of them. -/
theorem actsOn_kept (x y : Int64) : ActsOn x y (kept x) (kept y) where
  looseEq := by
    rw [Value.looseEq]
    exact beq_ofInteger x y
  looseOrder? := order?_ofInteger x y
  modulo hy := by
    have hzero : kept y ≠ 0 := kept_eq_zero_iff.not.mpr hy
    refine ⟨_, ?_, toInt_ofInt_tmod _ hzero⟩
    show (if truncate (Number.toFloat (.int y)) = 0 then _ else _) = _
    simp only [Number.toFloat, truncate_ofInteger, if_neg hzero]
  format := by
    have hpattern : "%d".toList = ['%', 'd'] := rfl
    show some ((formatText "%d".toList [.int x]).map fun cs => Value.string (String.ofList cs)) = _
    rw [hpattern]
    simp [formatText, Value.toNumber?, Number.toFloat, truncate_ofInteger, Except.map, wordText]

/-- **Operations on words.**  Equality, order, remainder and `%d` act on any two words as on the
words that 53 binary digits keep of them; on two words whose last kept places divide them, such as all up
to `2 ^ 53`, they act as on the words themselves. -/
theorem actsOn_words (x y : Int64) :
    ActsOn x y (kept x) (kept y) ∧
      (lastPlace x.toInt.natAbs ∣ x.toInt.natAbs → lastPlace y.toInt.natAbs ∣ y.toInt.natAbs →
        ActsOn x y x y) := by
  refine ⟨actsOn_kept x y, fun hx hy => ?_⟩
  have h := actsOn_kept x y
  rwa [kept_of_dvd hx, kept_of_dvd hy] at h

/-- Two neighbours beyond `2 ^ 53` are taken for equal, and the larger one is written as the smaller
one. -/
theorem neighbours_run_together :
    Value.looseEq (.int 9007199254740993) (.int 9007199254740992) = true ∧
      Value.looseOrder? (.int 9007199254740993) (.int 9007199254740992) = some .eq ∧
      callBuiltin? "sprintf" [.string "%d", .int 9007199254740993] =
        some (.ok (.string "9007199254740992")) ∧
      ¬ ActsOn 9007199254740993 9007199254740992 9007199254740993 9007199254740992 := by
  have h := actsOn_kept 9007199254740993 9007199254740992
  have hkept : kept 9007199254740993 = 9007199254740992 := by decide
  have hkept' : kept 9007199254740992 = 9007199254740992 := by decide
  rw [hkept, hkept'] at h
  refine ⟨h.looseEq, h.looseOrder?, h.format, fun hself => ?_⟩
  have heq := hself.looseEq.symm.trans h.looseEq
  exact absurd heq (by decide)

/-- Two words may be taken for equal, but their order is never turned around. -/
theorem looseOrder?_words_ne_gt (h : x ≤ y) :
    Value.looseOrder? (.int x) (.int y) ≠ some .gt := by
  have hle := rounded_mono (Int64.le_iff_toInt_le.mp h)
  rw [(actsOn_kept x y).looseOrder?, compare_kept]
  intro hgt
  have := Int.compare_eq_gt.mp (Option.some.inj hgt)
  omega

end Stencil
