import Stencil.Path.Basic

/-!
# Identities

Everything that is kept for a template is kept under a number, its identity, which is made of its
path and of the version of the compiler.  Two numberings are given.  The exact one never gives two
templates the same number, and its numbers are as long as the paths.  The short one fits in 64
bits, for names that people read and that are files on disk; it tells apart the files that are
there when it is made.

## Main definitions

* `Numbering` — the identity of a template, given its path and a version.
* `Numbering.exact`, `Numbering.short` — the two numberings.
* `hexText` — the text of an identity.

## Main statements

* `Numbering.exact_inj` — different templates have different exact numbers.
* `Numbering.short_inj` — different files have different short numbers.
* `Numbering.short_lt`, `length_hexText` — a short number has a text of sixteen digits.
* `hexText_inj` — different identities have different texts.
-/

namespace Stencil

/-- The identity of a template, given its path and the version of the compiler. -/
abbrev Numbering := Path → String → Nat

namespace Numbering

/-- The digit of a character; no digit is zero. -/
def digit (c : Char) : Nat := c.toNat + 1

/-- The digit between a path and a version; no character has it. -/
def separator : Nat := 0x110001

/-- The base in which digits are read: above all of them. -/
def base : Nat := 0x110002

/-- The digits of a path and a version. -/
def digits (path : Path) (version : String) : List Nat :=
  path.map digit ++ separator :: version.toList.map digit

/-- The number with these digits, the lowest first. -/
def ofDigits (ds : List Nat) : Nat := ds.foldr (fun d n => d + base * n) 0

/-- The number whose digits are those of the path and the version. -/
def exact : Numbering := fun path version => ofDigits (digits path version)

/-- Sixty-four bits with one more digit stirred in. -/
def stir (n : UInt64) (d : Nat) : UInt64 :=
  let n := (n ^^^ d.toUInt64) * 0xBF58476D1CE4E5B9
  let n := (n ^^^ (n >>> 32)) * 0x94D049BB133111EB
  n ^^^ (n >>> 29)

/-- A number of 48 bits, in which all digits are stirred. -/
def digest (path : Path) (version : String) : Nat :=
  ((digits path version).foldl stir 0x9E3779B97F4A7C15).toNat / 0x10000

/-- How many of the files before a path have its digest. -/
def rank (files : List Path) (path : Path) (version : String) : Nat :=
  (files.takeWhile (· != path)).countP fun q => digest q version == digest path version

/-- A number of 64 bits: the digest, and then the rank among the files with this digest. -/
def short (files : List Path) : Numbering := fun path version =>
  digest path version * 0x10000 + rank files path version % 0x10000

/-! ### Exact numbers differ -/

theorem digit_lt (c : Char) : digit c < separator := by
  have h : c.toNat < 0x110000 := by
    rcases c.valid with h | ⟨_, h⟩
    · exact Nat.lt_trans h (by decide)
    · exact h
  exact Nat.succ_lt_succ h

theorem digit_inj {c d : Char} (h : digit c = digit d) : c = d := by
  exact Char.ext (UInt32.toNat_inj.mp (Nat.succ.inj h))

theorem mem_digits {path : Path} {version : String} {d : Nat} (h : d ∈ digits path version) :
    0 < d ∧ d < base := by
  simp only [digits, List.mem_append, List.mem_map, List.mem_cons] at h
  rcases h with ⟨c, _, rfl⟩ | rfl | ⟨c, _, rfl⟩
  · exact ⟨Nat.succ_pos _, Nat.lt_succ_of_lt (digit_lt c)⟩
  · decide
  · exact ⟨Nat.succ_pos _, Nat.lt_succ_of_lt (digit_lt c)⟩

/-- A number determines its digits, when none is zero or reaches the base. -/
theorem ofDigits_inj {as bs : List Nat} (ha : ∀ d ∈ as, 0 < d ∧ d < base)
    (hb : ∀ d ∈ bs, 0 < d ∧ d < base) (h : ofDigits as = ofDigits bs) : as = bs := by
  induction as generalizing bs with
  | nil =>
    cases bs with
    | nil => rfl
    | cons b bs =>
      have := (hb b (by simp)).1
      simp only [ofDigits, List.foldr_nil, List.foldr_cons] at h
      omega
  | cons a as ih =>
    have ha₁ := ha a (by simp)
    cases bs with
    | nil =>
      simp only [ofDigits, List.foldr_nil, List.foldr_cons] at h
      omega
    | cons b bs =>
      have hb₁ := hb b (by simp)
      have h : a + base * ofDigits as = b + base * ofDigits bs := h
      have hmod := congrArg (· % base) h
      simp only [Nat.add_mul_mod_self_left, Nat.mod_eq_of_lt ha₁.2, Nat.mod_eq_of_lt hb₁.2] at hmod
      subst hmod
      have hrest : ofDigits as = ofDigits bs :=
        Nat.eq_of_mul_eq_mul_left (by decide : 0 < base) (Nat.add_left_cancel h)
      rw [ih (fun d hd => ha d (by simp [hd])) (fun d hd => hb d (by simp [hd])) hrest]

/-- The digits determine the path and the version. -/
theorem digits_inj {p q : Path} {v w : String} (h : digits p v = digits q w) : p = q ∧ v = w := by
  have hsep : ∀ (p q : Path) (s t : List Char),
      p.map digit ++ separator :: s.map digit = q.map digit ++ separator :: t.map digit →
      p = q ∧ s = t := by
    intro p
    induction p with
    | nil =>
      intro q s t h
      cases q with
      | nil =>
        simp only [List.map_nil, List.nil_append, List.cons.injEq, true_and] at h
        exact ⟨rfl, (List.map_inj_right fun _ _ => digit_inj).mp h⟩
      | cons c q =>
        simp only [List.map_nil, List.nil_append, List.map_cons, List.cons_append,
          List.cons.injEq] at h
        exact absurd h.1 (Nat.ne_of_gt (digit_lt c))
    | cons c p ih =>
      intro q s t h
      cases q with
      | nil =>
        simp only [List.map_nil, List.nil_append, List.map_cons, List.cons_append,
          List.cons.injEq] at h
        exact absurd h.1 (Nat.ne_of_lt (digit_lt c))
      | cons d q =>
        simp only [List.map_cons, List.cons_append, List.cons.injEq] at h
        obtain ⟨hp, hs⟩ := ih q s t h.2
        exact ⟨by rw [digit_inj h.1, hp], hs⟩
  obtain ⟨hp, hv⟩ := hsep p q v.toList w.toList h
  exact ⟨hp, String.toList_inj.mp hv⟩

/-- Templates with different paths or versions have different exact numbers. -/
theorem exact_inj {p q : Path} {v w : String} (h : exact p v = exact q w) : p = q ∧ v = w :=
  digits_inj (ofDigits_inj (fun _ => mem_digits) (fun _ => mem_digits) h)

/-! ### Short numbers differ -/

theorem digest_lt (path : Path) (version : String) : digest path version < 0x1000000000000 := by
  have h := UInt64.toNat_lt ((digits path version).foldl stir 0x9E3779B97F4A7C15)
  simp only [digest]
  omega

theorem short_lt (files : List Path) (path : Path) (version : String) :
    short files path version < UInt64.size := by
  have h := digest_lt path version
  simp only [short, UInt64.size]
  omega

theorem rank_lt {files : List Path} {path : Path} (h : path ∈ files) (version : String) :
    rank files path version < files.length := by
  induction files with
  | nil => simp at h
  | cons q files ih =>
    by_cases hq : q = path
    · simp [rank, hq]
    · have hmem : path ∈ files := by simpa [Ne.symm hq] using h
      have := ih hmem
      simp only [rank, List.takeWhile_cons, bne_iff_ne, ne_eq, hq, not_false_eq_true, if_true,
        List.countP_cons, List.length_cons] at this ⊢
      split <;> omega

/-- Files with the same digest and the same rank are the same. -/
theorem rank_inj {files : List Path} {p q : Path} (version : String) (hp : p ∈ files)
    (hq : q ∈ files) (hd : digest p version = digest q version)
    (hr : rank files p version = rank files q version) : p = q := by
  induction files with
  | nil => simp at hp
  | cons f files ih =>
    by_cases hfp : f = p <;> by_cases hfq : f = q
    · exact hfp.symm.trans hfq
    · subst hfp
      simp [rank, hfq, hd] at hr
    · subst hfq
      simp [rank, hfp, hd] at hr
    · have hp : p ∈ files := by simpa [Ne.symm hfp] using hp
      have hq : q ∈ files := by simpa [Ne.symm hfq] using hq
      refine ih hp hq ?_
      simpa [rank, List.countP_cons, hfp, hfq, hd] using hr

/-- The files have different short numbers, as long as there are no more than `0x10000`. -/
theorem short_inj {files : List Path} {p q : Path} {version : String}
    (hsize : files.length ≤ 0x10000) (hp : p ∈ files) (hq : q ∈ files)
    (h : short files p version = short files q version) : p = q := by
  have hp' := rank_lt hp version
  have hq' := rank_lt hq version
  simp only [short] at h
  exact rank_inj version hp hq (by omega) (by omega)

end Numbering

/-! ### The text of an identity -/

/-- The digit of a number below sixteen. -/
def hexDigit (n : Nat) : Char := Char.ofNat (if n < 10 then 48 + n else 87 + n)

/-- The last digits of a number to the base sixteen. -/
def hexDigits : Nat → Nat → List Char
  | 0, _ => []
  | count + 1, n => hexDigits count (n / 16) ++ [hexDigit (n % 16)]

/-- All digits of a number to the base sixteen, and at least sixteen of them. -/
def hexText (n : Nat) : List Char := hexDigits (max 16 (n.log2 / 4 + 1)) n

@[simp] theorem length_hexDigits (count n : Nat) : (hexDigits count n).length = count := by
  induction count generalizing n with
  | zero => rfl
  | succ count ih => simp [hexDigits, ih]

/-- A number of 64 bits has a text of sixteen digits. -/
theorem length_hexText {n : Nat} (h : n < UInt64.size) : (hexText n).length = 16 := by
  have hlog : n.log2 < 64 := by
    by_cases hn : n = 0
    · simp [hn]
    · exact (Nat.log2_lt hn).mpr h
  simp only [hexText, length_hexDigits]
  omega

theorem hexDigit_inj {m n : Nat} (hm : m < 16) (hn : n < 16) (h : hexDigit m = hexDigit n) :
    m = n := by
  have all : ∀ m < 16, ∀ n < 16, hexDigit m = hexDigit n → m = n := by decide
  exact all m hm n hn h

theorem hexDigits_inj {count m n : Nat} (hm : m < Nat.pow 16 count) (hn : n < Nat.pow 16 count)
    (h : hexDigits count m = hexDigits count n) : m = n := by
  induction count generalizing m n with
  | zero => exact (Nat.lt_one_iff.mp hm).trans (Nat.lt_one_iff.mp hn).symm
  | succ count ih =>
    obtain ⟨hhigh, hlow⟩ := List.append_inj' h rfl
    have hhigh : m / 16 = n / 16 :=
      ih (Nat.div_lt_of_lt_mul (by rw [Nat.mul_comm]; exact hm))
        (Nat.div_lt_of_lt_mul (by rw [Nat.mul_comm]; exact hn)) hhigh
    have hlow : m % 16 = n % 16 :=
      hexDigit_inj (Nat.mod_lt _ (by decide)) (Nat.mod_lt _ (by decide)) (List.cons.inj hlow).1
    omega

theorem lt_pow_hexText (n : Nat) : n < Nat.pow 16 (max 16 (n.log2 / 4 + 1)) := by
  have hpow : Nat.pow 16 (max 16 (n.log2 / 4 + 1)) = 2 ^ (4 * max 16 (n.log2 / 4 + 1)) := by
    rw [Nat.pow_mul]
    rfl
  rw [hpow]
  exact Nat.lt_of_lt_of_le Nat.lt_log2_self (Nat.pow_le_pow_right (by decide) (by omega))

/-- Different identities have different texts. -/
theorem hexText_inj {m n : Nat} (h : hexText m = hexText n) : m = n := by
  have hlen := congrArg List.length h
  simp only [hexText, length_hexDigits] at hlen
  have hn := lt_pow_hexText n
  rw [← hlen] at hn
  simp only [hexText, ← hlen] at h
  exact hexDigits_inj (lt_pow_hexText m) hn h

end Stencil
