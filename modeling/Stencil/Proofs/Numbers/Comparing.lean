import Stencil.Number.Read
import Stencil.Proofs.Numbers.Floats

/-!
# Comparing floating-point numbers

Equality and order of floating-point numbers read one comparison of their signs, exponents and
digits.  Exchanging the operands turns the comparison around, and only not-a-number is incomparable,
to itself as to everything else.  No text reads as not-a-number: the decimals that are read are
rounded products and quotients of finite numbers.

## Main definitions

* `IsNumber` — a floating-point number that is not not-a-number.

## Main results

* `order?_swap`, `float_beq_comm`, `IsNumber.beq_self` — exchanged and equal operands.
* `unpack_pack_ne` — packing makes no number not-a-number.
* `isNumber_readNumber?` — a text that reads as a number reads as one that equals itself.
-/

namespace Stencil.Number

open Text Float.Model Float.Model.UnpackedFloat

variable {x y : Float} {f g : UnpackedFloat} {cs : List Char}

/-- The floating-point number is a number. -/
def IsNumber (x : Float) : Prop := x.toModel.unpack ≠ .notANumber

/-- An unpacked number with a mantissa. -/
def hasMantissa : UnpackedFloat → Bool
  | .finite .. => true
  | _ => false

/-- An unpacked number that is zero or has a mantissa. -/
def isFinite : UnpackedFloat → Bool
  | .zero _ | .finite .. => true
  | _ => false

/-! ### Exchanged and equal operands -/

/-- Exchanging the operands turns the comparison around. -/
theorem compare_swap (f g : UnpackedFloat) :
    g.compare f = (f.compare g).map Ordering.swap := by
  have hdigits : ∀ (m n : Nat) (d e : Int), (compare e d).then (compare n m) =
      ((compare d e).then (compare m n)).swap := by
    intro m n d e
    have hexponents : compare e d = (compare d e).swap := Std.OrientedCmp.eq_swap
    have hmantissas : compare n m = (compare m n).swap := Std.OrientedCmp.eq_swap
    rw [Ordering.swap_then, hexponents, hmantissas]
  cases f with
  | notANumber => cases g <;> rfl
  | infinity s =>
    cases g with
    | infinity t => cases s <;> cases t <;> rfl
    | notANumber => rfl
    | zero t => cases s <;> rfl
    | finite t n e hn => cases s <;> rfl
  | zero s =>
    cases g with
    | infinity t => cases t <;> rfl
    | notANumber => rfl
    | zero t => rfl
    | finite t n e hn => cases t <;> rfl
  | finite s m d hm =>
    cases g with
    | infinity t => cases t <;> rfl
    | notANumber => rfl
    | zero t => cases s <;> rfl
    | finite t n e hn =>
      cases s <;> cases t <;> simp [UnpackedFloat.compare, hdigits m n d e]

theorem compare_self (h : f ≠ .notANumber) : f.compare f = some .eq := by
  cases f with
  | notANumber => exact absurd rfl h
  | infinity s => cases s <;> rfl
  | zero s => rfl
  | finite s m e hm => cases s <;> simp [UnpackedFloat.compare]

theorem beq_eq_compare (x y : Float) :
    (x == y) = (x.toModel.unpack.compare y.toModel.unpack == some .eq) := rfl

theorem lt_iff_compare : x < y ↔ x.toModel.unpack.compare y.toModel.unpack = some .lt := by
  show decide (x.toModel < y.toModel) = true ↔ _
  rw [decide_eq_true_iff]
  show (x.toModel.unpack.compare y.toModel.unpack == some .lt) = true ↔ _
  rw [beq_iff_eq]

/-- The order that is put together of three tests is the comparison. -/
theorem order?_eq_compare (x y : Float) :
    order? x y = x.toModel.unpack.compare y.toModel.unpack := by
  rw [order?, beq_eq_compare]
  simp only [lt_iff_compare]
  rw [compare_swap x.toModel.unpack y.toModel.unpack]
  cases x.toModel.unpack.compare y.toModel.unpack with
  | none => rfl
  | some o => cases o <;> rfl

theorem order?_swap (x y : Float) : order? y x = (order? x y).map Ordering.swap := by
  rw [order?_eq_compare, order?_eq_compare, compare_swap]

theorem float_beq_comm (x y : Float) : (x == y) = (y == x) := by
  rw [beq_eq_compare, beq_eq_compare, compare_swap x.toModel.unpack y.toModel.unpack]
  cases x.toModel.unpack.compare y.toModel.unpack with
  | none => rfl
  | some o => cases o <;> rfl

theorem IsNumber.beq_self (h : IsNumber x) : (x == x) = true := by
  rw [beq_eq_compare, compare_self h]
  rfl

/-! ### Packing -/

/-- Packing makes no number not-a-number, whether or not it fits the format. -/
theorem unpack_pack_ne (h : f ≠ .notANumber) : (Float.Model.pack f).unpack ≠ .notANumber := by
  -- the exponent tells: not-a-number has that of infinity
  have hexp : ∀ b : BitVec Format.binary64.numBits, unpackExponent b ≠ -1#11 →
      UnpackedFloat.unpack .binary64 b ≠ .notANumber := by
    intro b hb
    rw [UnpackedFloat.unpack]
    dsimp only
    rw [if_neg hb]
    split
    · split
      · exact UnpackedFloat.noConfusion
      · exact UnpackedFloat.noConfusion
    · exact UnpackedFloat.noConfusion
  have hinfinity : ∀ s, UnpackedFloat.unpack .binary64 (packedInfinity .binary64 s) ≠
      .notANumber := by
    intro s
    cases s with
    | positive => exact UnpackedFloat.noConfusion
    | negative => exact UnpackedFloat.noConfusion
  cases f with
  | notANumber => exact absurd rfl h
  | infinity s => exact hinfinity s
  | zero s =>
    cases s with
    | positive => exact UnpackedFloat.noConfusion
    | negative => exact UnpackedFloat.noConfusion
  | finite s m e hm =>
    rw [Float.Model.unpack, Float.Model.pack]
    dsimp only
    rw [UnpackedFloat.pack]
    dsimp only
    split
    next => exact hinfinity s
    next hsmall =>
      split
      next =>
        refine hexp _ ?_
        rw [unpackExponent_packComponents]
        intro hones
        have hones := congrArg BitVec.toNat hones
        have htoNat : (-1#11).toNat = 2047 := rfl
        rw [BitVec.toNat_ofNat, htoNat, Nat.mod_eq_of_lt (by omega)] at hones
        omega
      next =>
        refine hexp _ ?_
        rw [unpackExponent_packComponents]
        decide

theorem isNumber_of_unpacked (h : f ≠ .notANumber) :
    IsNumber (Float.ofModel (Float.Model.pack f)) := unpack_pack_ne h

theorem IsNumber.neg (h : IsNumber x) : IsNumber (-x) := by
  have hneg : x.toModel.unpack.neg ≠ .notANumber := by
    rw [IsNumber] at h
    generalize x.toModel.unpack = f at h
    cases f with
    | notANumber => exact absurd rfl h
    | infinity s => exact UnpackedFloat.noConfusion
    | zero s => exact UnpackedFloat.noConfusion
    | finite s m e hm => exact UnpackedFloat.noConfusion
  exact isNumber_of_unpacked hneg

/-! ### Decimals -/

theorem exists_of_hasMantissa (h : hasMantissa f = true) :
    ∃ s m e hm, f = .finite s m e hm := by
  cases f with
  | finite s m e hm => exact ⟨s, m, e, hm, rfl⟩
  | zero s => cases h
  | infinity s => cases h
  | notANumber => cases h

theorem roundWithAccuracy_ne (spec : Format) (s : Sign) (m : Nat) (e : Int) (a : Accuracy) :
    roundWithAccuracy spec s m e a ≠ .notANumber := by
  rw [roundWithAccuracy]
  dsimp only
  split
  · exact UnpackedFloat.noConfusion
  · exact UnpackedFloat.noConfusion

theorem mul_ne (hf : isFinite f = true) (hg : hasMantissa g = true) :
    UnpackedFloat.mul .binary64 f g ≠ .notANumber := by
  obtain ⟨s, m, e, hm, rfl⟩ := exists_of_hasMantissa hg
  cases f with
  | zero t => exact UnpackedFloat.noConfusion
  | finite t n d hn =>
    rw [UnpackedFloat.mul]
    exact roundWithAccuracy_ne _ _ _ _ _
  | infinity t => cases hf
  | notANumber => cases hf

/-- Only a divisor with a mantissa makes sure of it: zero by zero is not a number. -/
theorem div_ne (hf : isFinite f = true) (hg : hasMantissa g = true) :
    UnpackedFloat.div .binary64 f g ≠ .notANumber := by
  obtain ⟨s, m, e, hm, rfl⟩ := exists_of_hasMantissa hg
  cases f with
  | zero t => exact UnpackedFloat.noConfusion
  | finite t n d hn =>
    rw [UnpackedFloat.div]
    exact roundWithAccuracy_ne _ _ _ _ _
  | infinity t => cases hf
  | notANumber => cases hf

theorem Stores.isFinite {i : Int} (h : Stores f i) : isFinite f = true := by
  cases h with
  | zero s => rfl
  | finite s => rfl

theorem isNumber_ofInteger (i : Int64) : IsNumber (ofInteger i) := by
  intro hi
  have hfinite := (stores_ofInteger i).isFinite
  rw [hi] at hfinite
  cases hfinite

theorem isFinite_toFloat {n : Nat} (h : n < 2 ^ 53) :
    isFinite n.toUInt64.toFloat.toModel.unpack = true := by
  by_cases hn : n = 0
  · subst hn
    rfl
  · exact (stores_toFloat hn h).isFinite

theorem hasMantissa_powersOfTen :
    ∀ p ∈ Float.exactlyRepresentablePowersOfTen, hasMantissa p.toModel.unpack = true := by
  rw [← Array.all_eq_true']
  decide +kernel

theorem ofScientific_ne (m : Nat) (e : Int) :
    UnpackedFloat.ofScientific .binary64 m e ≠ .notANumber := by
  rw [UnpackedFloat.ofScientific]
  split
  · exact UnpackedFloat.noConfusion
  · split
    · exact UnpackedFloat.noConfusion
    · split
      · exact UnpackedFloat.noConfusion
      · split
        · exact mul_ne rfl rfl
        · exact div_ne rfl rfl

/-- A decimal is a number, also when it is rounded to zero or to infinity. -/
theorem isNumber_ofDecimal (m : Nat) (e : Int) : IsNumber (ofDecimal m e) := by
  rw [ofDecimal, Float.ofScientific]
  split
  next h =>
    -- few digits and a small power are multiplied or divided as floating-point numbers
    have hindex : e.natAbs < Float.exactlyRepresentablePowersOfTen.size := Nat.lt_succ_of_le h.2
    have hpower := hasMantissa_powersOfTen _ (Array.getElem_mem hindex)
    have hdigits := isFinite_toFloat h.1
    dsimp only
    split
    · exact isNumber_of_unpacked (div_ne hdigits hpower)
    · exact isNumber_of_unpacked (mul_ne hdigits hpower)
  next => exact isNumber_of_unpacked (ofScientific_ne m _)

/-! ### Numerals -/

theorem isNumber_readFraction? (h : readFraction? cs = some x) : IsNumber x := by
  have hdecimal : ∀ (empty : Bool) (digits : List Char) (exponent? : Option Int) (k : Nat),
      (if empty then none
        else exponent?.map fun e => ofDecimal (digitsValue digits) (e - k)) = some x →
      IsNumber x := by
    intro empty digits exponent? k h
    cases empty with
    | true => cases h
    | false =>
      obtain ⟨e, -, rfl⟩ := Option.map_eq_some_iff.mp h
      exact isNumber_ofDecimal _ _
  rw [readFraction?] at h
  split at h
  exact hdecimal _ _ _ _ h

/-- Lowering makes foreign letters of foreign letters only. -/
theorem isForeignLetter_of_lower {c : Char} (h : isForeignLetter (asciiLower c) = true) :
    isForeignLetter c = true := by
  by_cases hc : 65 ≤ c.toNat ∧ c.toNat ≤ 90
  · have hletter : isAsciiLetter c = true := by simp [isAsciiLetter, hc]
    have he : asciiLower c ≠ 'e' := by
      intro he
      rw [he] at h
      exact absurd h (by decide)
    rw [isForeignLetter, hletter, Bool.true_and, decide_eq_true_iff]
    exact he
  · rwa [asciiLower, if_neg hc] at h

/-- The names of infinity and not-a-number have foreign letters. -/
theorem readName?_eq_none (h : cs.any isForeignLetter = false) : readName? cs = none := by
  have hnames : ∀ name ∈ ["inf".toList, "infinity".toList, "nan".toList],
      name.any isForeignLetter = true := by decide
  have hne : ∀ name ∈ ["inf".toList, "infinity".toList, "nan".toList],
      cs.map asciiLower ≠ name := by
    intro name hname heq
    have hany := hnames name hname
    rw [← heq, List.any_map, List.any_eq_true] at hany
    obtain ⟨c, hc, hforeign⟩ := hany
    rw [List.any_eq_false] at h
    exact h c hc (isForeignLetter_of_lower hforeign)
  rw [readName?, if_neg, if_neg]
  · exact hne _ (by simp)
  · rintro (heq | heq)
    · exact hne _ (by simp) heq
    · exact hne _ (by simp) heq

theorem any_splitSign {p : Char → Bool} (h : cs.any p = false) :
    (splitSign cs).2.any p = false := by
  rw [splitSign.eq_def]
  split
  next cs =>
    rw [List.any_cons, Bool.or_eq_false_iff] at h
    exact h.2
  next cs =>
    rw [List.any_cons, Bool.or_eq_false_iff] at h
    exact h.2
  next => exact h

/-- **A text that reads as a number never reads as not-a-number.** -/
theorem isNumber_readNumber? {n : Number} (h : readNumber? cs = some n) : IsNumber n.toFloat := by
  rw [readNumber?] at h
  split at h
  · cases h
    exact isNumber_ofInteger _
  · split at h
    next => cases h
    next hforeign =>
      rw [Bool.not_eq_true] at hforeign
      obtain ⟨x, hx, rfl⟩ := Option.map_eq_some_iff.mp h
      rw [readFloat?] at hx
      dsimp only at hx
      rw [readName?_eq_none (any_splitSign hforeign), Option.or_none] at hx
      obtain ⟨y, hy, rfl⟩ := Option.map_eq_some_iff.mp hx
      have hnumber := isNumber_readFraction? hy
      show IsNumber (if (splitSign (trim cs)).1 then -y else y)
      split
      · exact hnumber.neg
      · exact hnumber

end Stencil.Number
