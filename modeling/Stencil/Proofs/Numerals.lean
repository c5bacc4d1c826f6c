import Mathlib.Data.List.TakeWhile
import Stencil.Value.Access

/-!
# Numerals and keys

The text of a whole number reads back as the number.  An index of a list is written as the text of
its key and read as a number, and both give the same position: a key whose text is an unsigned
numeral counts as that number, be it an integer, a truth value, a fraction or a string.

## Main results

* `readInteger?_toString` — the text of an integer reads back as the integer.
* `toWord_of_readNatural?` — a key that is written as a position is read as that position.
* `nextKey_not_mem` — the key that appending to a map gives is new.
-/

namespace Stencil

open Text

variable {cs : List Char} {n : Nat}

/-! ### Digits -/

theorem isAsciiDigit_toDigits {d : Char} (h : d ∈ Nat.toDigits 10 n) : isAsciiDigit d = true := by
  have hd := Nat.isDigit_of_mem_toDigits (by decide) (by decide) h
  rw [Char.isDigit, Bool.and_eq_true, decide_eq_true_eq, decide_eq_true_eq] at hd
  have hlow : 48 ≤ d.toNat := hd.1
  have hhigh : d.toNat ≤ 57 := hd.2
  simp [isAsciiDigit, hlow, hhigh]

theorem digitsValue_toDigits (n : Nat) : Number.digitsValue (Nat.toDigits 10 n) = n :=
  Nat.ofDigitChars_toDigits (by decide) (by decide)

theorem isNumeral_toDigits (n : Nat) : Number.isNumeral (Nat.toDigits 10 n) = true := by
  have hne : (Nat.toDigits 10 n).isEmpty = false :=
    List.isEmpty_eq_false_iff.mpr Nat.toDigits_ne_nil
  rw [Number.isNumeral, hne, List.all_eq_true.mpr fun d hd => isAsciiDigit_toDigits hd]
  rfl

/-- A numeral starts with no sign. -/
theorem splitSign_of_isNumeral (h : Number.isNumeral cs = true) :
    Number.splitSign cs = (false, cs) := by
  have hdigit : ∀ d ∈ cs, isAsciiDigit d = true := by
    rw [Number.isNumeral, Bool.and_eq_true, List.all_eq_true] at h
    exact h.2
  unfold Number.splitSign
  split
  next => exact absurd (hdigit _ List.mem_cons_self) (by decide)
  next => exact absurd (hdigit _ List.mem_cons_self) (by decide)
  next => rfl

theorem readInteger?_of_isNumeral (h : Number.isNumeral cs = true) :
    Number.readInteger? cs = Number.fits? (Number.digitsValue cs) := by
  rw [Number.readInteger?, splitSign_of_isNumeral h]
  simp only [h, if_true, Bool.false_eq_true, if_false]

/-- The digits of a number are read back as the number. -/
theorem readInteger?_toDigits (n : Nat) :
    Number.readInteger? (Nat.toDigits 10 n) = Number.fits? n := by
  rw [readInteger?_of_isNumeral (isNumeral_toDigits n), digitsValue_toDigits]

theorem toList_toString_ofNat (n : Nat) : (toString (n : Int)).toList = Nat.toDigits 10 n :=
  Nat.toList_repr

theorem toList_toString_negSucc (n : Nat) :
    (toString (Int.negSucc n)).toList = '-' :: Nat.toDigits 10 (n + 1) := by
  show ("-" ++ Nat.repr (n + 1)).toList = _
  rw [String.toList_append, Nat.toList_repr]
  rfl

/-- The text of an integer reads back as the integer. -/
theorem readInteger?_toString (i : Int) :
    Number.readInteger? (toString i).toList = Number.fits? i := by
  cases i with
  | ofNat n => rw [Int.ofNat_eq_natCast, toList_toString_ofNat, readInteger?_toDigits]
  | negSucc n =>
    rw [toList_toString_negSucc, Number.readInteger?]
    simp only [Number.splitSign, isNumeral_toDigits, digitsValue_toDigits, if_true]
    rfl

theorem readInteger?_wordText (i : Int64) : Number.readInteger? (wordText i).toList = some i := by
  rw [wordText, readInteger?_toString, Number.fits?_toInt]

/-! ### Positions -/

/-- An unsigned numeral is a run of digits, which a plus sign may precede. -/
theorem readNatural?_eq_some (h : Number.readNatural? cs = some n) :
    ∃ digits, (cs = digits ∨ cs = '+' :: digits) ∧ Number.isNumeral digits = true ∧
      Number.digitsValue digits = n := by
  have hdigits : ∃ digits, (cs = digits ∨ cs = '+' :: digits) ∧
      (if Number.isNumeral digits && Number.digitsValue digits < UInt64.size then
        some (Number.digitsValue digits) else none) = some n := by
    unfold Number.readNatural? at h
    split at h
    next rest => exact ⟨rest, .inr rfl, h⟩
    next => exact ⟨cs, .inl rfl, h⟩
  obtain ⟨digits, hcs, hif⟩ := hdigits
  rw [Option.ite_none_right_eq_some, Bool.and_eq_true] at hif
  exact ⟨digits, hcs, hif.1.1, Option.some.inj hif.2⟩

theorem readInteger?_of_readNatural? (h : Number.readNatural? cs = some n) :
    Number.readInteger? cs = Number.fits? n := by
  obtain ⟨digits, rfl | rfl, hdigits, rfl⟩ := readNatural?_eq_some h
  · exact readInteger?_of_isNumeral hdigits
  · rw [Number.readInteger?]
    simp only [Number.splitSign, hdigits, if_true, Bool.false_eq_true, if_false]

theorem not_isBlank_of_isAsciiDigit {c : Char} (h : isAsciiDigit c = true) : isBlank c = false := by
  simp only [isAsciiDigit, Bool.and_eq_true, decide_eq_true_eq] at h
  simp only [isBlank, Bool.or_eq_false_iff, Bool.and_eq_false_iff, decide_eq_false_iff_not,
    beq_eq_false_iff_ne]
  omega

/-- A text without blanks is its own trimmed text. -/
theorem trim_eq_self (h : ∀ c ∈ cs, isBlank c = false) : trim cs = cs := by
  have hdrop : ∀ {ds : List Char}, (∀ c ∈ ds, isBlank c = false) → ds.dropWhile isBlank = ds := by
    intro ds hds
    cases ds with
    | nil => rfl
    | cons d ds => exact List.dropWhile_cons_of_neg (by simp [hds d List.mem_cons_self])
  rw [trim, trimLeft, hdrop h, trimRight, dropRightWhile,
    hdrop fun c hc => h c (List.mem_reverse.mp hc), List.reverse_reverse]

/-- A text that is an unsigned numeral starts with that number. -/
theorem leadingNumber_of_readNatural? (h : Number.readNatural? cs = some n)
    (hn : (n : Int) ≤ Int64.maxValue.toInt) :
    Number.leadingNumber cs = .int (Int64.ofNat n) := by
  have hblank : ∀ c ∈ cs, isBlank c = false := by
    obtain ⟨digits, hcs, hdigits, -⟩ := readNatural?_eq_some h
    rw [Number.isNumeral, Bool.and_eq_true, List.all_eq_true] at hdigits
    have hall : ∀ d ∈ digits, isBlank d = false :=
      fun d hd => not_isBlank_of_isAsciiDigit (hdigits.2 d hd)
    rcases hcs with rfl | rfl
    · exact hall
    · exact List.forall_mem_cons.mpr ⟨by decide, hall⟩
  have hfits : Number.fits? (n : Int) = some (Int64.ofNat n) := by
    have hmin : Int64.minValue.toInt = -2 ^ 63 := rfl
    rw [Number.fits?, if_pos ⟨by omega, hn⟩]
    rfl
  have hnumber : Number.readNumber? cs = some (.int (Int64.ofNat n)) := by
    simp only [Number.readNumber?, trim_eq_self hblank, readInteger?_of_readNatural? h, hfits]
  rw [Number.leadingNumber, hnumber]

/-- A word whose text is an unsigned numeral is that number. -/
theorem eq_of_readNatural?_wordText {i : Int64}
    (h : Number.readNatural? (wordText i).toList = some n) : i = Int64.ofNat n := by
  have hfits : Number.fits? (n : Int) = some i := by
    rw [← readInteger?_of_readNatural? h, readInteger?_wordText]
  rw [← Int64.ofInt_toInt i, Number.toInt_of_fits? hfits]
  rfl

/-- A key that is written as a position is read as that position. -/
theorem toWord_of_readNatural? {k : Value} (h : Number.readNatural? k.toKey.toList = some n)
    (hn : (n : Int) ≤ Int64.maxValue.toInt) :
    ∃ number, k.toNumber? = some number ∧ number.toWord = Int64.ofNat n := by
  have harray : Number.readNatural? "Array".toList = none := by decide
  cases k with
  | null => cases h
  | list _ => exact absurd (harray.symm.trans h) (by simp)
  | map _ => exact absurd (harray.symm.trans h) (by simp)
  | bool b =>
    refine ⟨_, rfl, ?_⟩
    cases b
    · obtain rfl : 0 = n := Option.some.inj h
      rfl
    · obtain rfl : 1 = n := Option.some.inj h
      rfl
  | int i => exact ⟨_, rfl, eq_of_readNatural?_wordText h⟩
  | float x => exact ⟨_, rfl, eq_of_readNatural?_wordText h⟩
  | string s => exact ⟨_, rfl, congrArg Number.toWord (leadingNumber_of_readNatural? h hn)⟩

/-! ### The key of an appended element -/

theorem mem_words_iff {es : List (String × Value)} {m : Int} :
    m ∈ (es.filterMap fun (k, _) => Number.readInteger? k.toList).map Int64.toInt ↔
      ∃ k ∈ Assoc.keys es, ∃ w, Number.readInteger? k.toList = some w ∧ w.toInt = m := by
  simp only [List.mem_map, List.mem_filterMap, Assoc.keys]
  constructor
  · rintro ⟨w, ⟨e, he, hw⟩, rfl⟩
    exact ⟨e.1, ⟨e, he, rfl⟩, w, hw, rfl⟩
  · rintro ⟨k, ⟨e, he, rfl⟩, w, hw, rfl⟩
    exact ⟨w, ⟨e, he, hw⟩, rfl⟩

/-- Appending to a map gives zero when no key reads as a word, and else one above the largest word
that a key reads as. -/
theorem nextKey_eq (es : List (String × Value)) :
    (Value.nextKey es = "0" ∧ ∀ k ∈ Assoc.keys es, Number.readInteger? k.toList = none) ∨
    ∃ k ∈ Assoc.keys es, ∃ w, Number.readInteger? k.toList = some w ∧
      Value.nextKey es = toString (w.toInt + 1) ∧
      ∀ k ∈ Assoc.keys es, ∀ v, Number.readInteger? k.toList = some v → v.toInt ≤ w.toInt := by
  unfold Value.nextKey
  split
  next hwords =>
    refine .inl ⟨rfl, fun k hk => ?_⟩
    cases hread : Number.readInteger? k.toList with
    | none => rfl
    | some w =>
      have hmem := mem_words_iff.mpr ⟨k, hk, w, hread, rfl⟩
      rw [hwords] at hmem
      cases hmem
  next i rest hwords =>
    have hmax : (i :: rest).max? = some (rest.foldl max i) := rfl
    obtain ⟨hlargest, hle⟩ := List.max?_eq_some_iff.mp hmax
    rw [← hwords, mem_words_iff] at hlargest
    obtain ⟨k, hk, w, hw, hwm⟩ := hlargest
    refine .inr ⟨k, hk, w, hw, by rw [hwm], fun k' hk' v hv => ?_⟩
    rw [hwm]
    exact hle _ (hwords ▸ mem_words_iff.mpr ⟨k', hk', v, hv, rfl⟩)

/-- The key that appending to a map gives is new, unless a key reads as the largest word. -/
theorem nextKey_not_mem {es : List (String × Value)}
    (h : ∀ k ∈ Assoc.keys es, Number.readInteger? k.toList ≠ some Int64.maxValue) :
    Value.nextKey es ∉ Assoc.keys es := by
  intro hmem
  rcases nextKey_eq es with ⟨hkey, hnone⟩ | ⟨k, hk, w, hw, hkey, hle⟩
  · have hread := hnone _ hmem
    rw [hkey] at hread
    exact absurd hread (by decide)
  · -- the new key would read as a word above the largest one
    have hlt : w.toInt + 1 ≤ Int64.maxValue.toInt := by
      have hne : w.toInt ≠ Int64.maxValue.toInt :=
        fun heq => h k hk (hw.trans (congrArg some (Int64.toInt_inj.mp heq)))
      have hbound := w.toInt_lt
      have hmax : Int64.maxValue.toInt = 2 ^ 63 - 1 := rfl
      omega
    have hmin : Int64.minValue.toInt ≤ w.toInt := w.le_toInt
    have hfits : Number.fits? (w.toInt + 1) = some (Int64.ofInt (w.toInt + 1)) :=
      if_pos ⟨by omega, hlt⟩
    have hread := readInteger?_toString (w.toInt + 1)
    rw [hfits, ← hkey] at hread
    have := hle _ hmem _ hread
    rw [Number.toInt_of_fits? hfits] at this
    omega

end Stencil
