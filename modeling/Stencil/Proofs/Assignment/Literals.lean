import Stencil.Proofs.Collecting
import Stencil.Proofs.Numerals
import Stencil.Script.Operator

/-!
# The entries of array literals

An array literal counts the items without a key, and the integer keys move the count.  Appending to
a map looks at the texts of all its keys instead.  The two agree when no key in front of an item
without a key reads as a number that the count has not reached.

## Main definitions

* `Value.fields` — the entries of an array under the texts of their keys.
* `Value.nextNumber` — the number that the next item without a key gets in a literal.
* `Value.Settled` — items behind which the count is that of the keys.

## Main results

* `Value.fields_ofItems` — the entries of a literal are those of its items, put in one by one.
* `Value.nextKey_of_settled` — appending to the entries of a literal goes on with its count.
* `Value.entries_ofItems_plain` — an item without a key is one more entry.
-/

namespace Stencil

/-! ### Texts of positions -/

/-- The text of a position reads back as the position. -/
theorem readNatural?_toString {n : Nat} (h : n < UInt64.size) :
    Number.readNatural? (toString (n : Int)).toList = some n := by
  have hdigits : ∀ cs, Number.isNumeral cs = true → Number.digitsValue cs = n →
      Number.readNatural? cs = some n := by
    intro cs hcs hvalue
    unfold Number.readNatural?
    split
    next rest =>
      rw [Number.isNumeral, Bool.and_eq_true, List.all_eq_true] at hcs
      exact absurd (hcs.2 '+' List.mem_cons_self) (by decide)
    next => simp [hcs, hvalue, h]
  rw [toList_toString_ofNat]
  exact hdigits _ (isNumeral_toDigits n) (digitsValue_toDigits n)

theorem toString_ofNat_inj {m n : Nat} (h : toString (m : Int) = toString (n : Int)) : m = n := by
  have hdigits := congrArg (fun s => Number.digitsValue s.toList) h
  simpa only [toList_toString_ofNat, digitsValue_toDigits] using hdigits

theorem fits?_of_nonneg {i : Int} (h : 0 ≤ i) (hmax : i ≤ Int64.maxValue.toInt) :
    Number.fits? i = some (Int64.ofInt i) := by
  have hmin : Int64.minValue.toInt = -2 ^ 63 := rfl
  exact if_pos ⟨by omega, hmax⟩

theorem wordText_ofNat {n : Nat} (h : (n : Int) ≤ Int64.maxValue.toInt) :
    wordText (Int64.ofNat n) = toString (n : Int) := by
  have hfits := fits?_of_nonneg (Int.natCast_nonneg n) h
  exact congrArg toString (Number.toInt_of_fits? hfits)

theorem keyValue_wordText (i : Int64) : keyValue (wordText i) = .int i := by
  rw [keyValue, readInteger?_wordText]
  exact if_pos rfl

/-- The key of a position is the position. -/
theorem keyValue_toString {n : Nat} (h : (n : Int) ≤ Int64.maxValue.toInt) :
    keyValue (toString (n : Int)) = .int (Int64.ofNat n) := by
  rw [← wordText_ofNat h, keyValue_wordText]

namespace Value

/-! ### The count of a literal -/

/-- Items with keys and without. -/
abbrev Items := List (Option Value × Value)

/-- The count behind a key. -/
def counted (next : Int) : Value → Int
  | int i => max next (i.toInt + 1)
  | _ => next

/-- The number that the next item without a key gets in a literal. -/
def nextNumber : Int → Items → Int
  | next, [] => next
  | next, (none, _) :: rest => nextNumber (next + 1) rest
  | next, (some key, _) :: rest => nextNumber (counted next key) rest

variable {items before : Items} {key x v : Value} {k : String} {next : Int}

theorem keyedItems_plain (next : Int) (x : Value) (rest : Items) :
    keyedItems next ((none, x) :: rest) = (toString next, x) :: keyedItems (next + 1) rest := rfl

theorem keyedItems_keyed (next : Int) (key x : Value) (rest : Items) :
    keyedItems next ((some key, x) :: rest) =
      (key.toKey, x) :: keyedItems (counted next key) rest := by
  cases key <;> rfl

theorem counted_int (next : Int) (i : Int64) : counted next (int i) = max next (i.toInt + 1) := rfl

theorem le_counted (next : Int) (key : Value) : next ≤ counted next key := by
  cases key with
  | int i => exact Int.le_max_left _ _
  | _ => exact Int.le_refl _

theorem le_nextNumber (next : Int) (items : Items) : next ≤ nextNumber next items := by
  induction items generalizing next with
  | nil => exact Int.le_refl _
  | cons item rest ih =>
    obtain ⟨_ | key, x⟩ := item
    · exact Int.le_trans (Int.le_add_one (Int.le_refl _)) (ih (next + 1))
    · exact Int.le_trans (le_counted next key) (ih (counted next key))

theorem nextNumber_append (next : Int) (before rest : Items) :
    nextNumber next (before ++ rest) = nextNumber (nextNumber next before) rest := by
  induction before generalizing next with
  | nil => rfl
  | cons item before ih =>
    obtain ⟨_ | key, x⟩ := item
    · exact ih (next + 1)
    · exact ih (counted next key)

/-- The count only goes up. -/
theorem nextNumber_take_le (next : Int) (items : Items) (n : Nat) :
    nextNumber next (items.take n) ≤ nextNumber next items := by
  have happend := nextNumber_append next (items.take n) (items.drop n)
  rw [List.take_append_drop] at happend
  rw [happend]
  exact le_nextNumber _ _

theorem length_keyedItems (next : Int) (items : Items) :
    (keyedItems next items).length = items.length := by
  induction items generalizing next with
  | nil => rfl
  | cons item rest ih =>
    obtain ⟨_ | key, x⟩ := item
    · exact congrArg (· + 1) (ih (next + 1))
    · rw [keyedItems_keyed]
      exact congrArg (· + 1) (ih (counted next key))

theorem keyedItems_append (next : Int) (before rest : Items) :
    keyedItems next (before ++ rest) =
      keyedItems next before ++ keyedItems (nextNumber next before) rest := by
  induction before generalizing next with
  | nil => rfl
  | cons item before ih =>
    obtain ⟨_ | key, x⟩ := item
    · rw [List.cons_append, keyedItems_plain, keyedItems_plain, ih]
      rfl
    · rw [List.cons_append, keyedItems_keyed, keyedItems_keyed, ih]
      rfl

/-- The key of an item behind other ones. -/
def keyBehind (before : Items) : Option Value → String
  | none => toString (nextNumber 0 before)
  | some key => key.toKey

theorem keyedItems_concat (before : Items) (key : Option Value) (x : Value) :
    keyedItems 0 (before ++ [(key, x)]) =
      keyedItems 0 before ++ [(keyBehind before key, x)] := by
  rw [keyedItems_append]
  cases key with
  | none => rfl
  | some key =>
    rw [keyedItems_keyed]
    rfl

/-- The keys of a literal are those of its items, and numbers below the count. -/
theorem mem_keyedItems (h : k ∈ Assoc.keys (keyedItems next items)) :
    (∃ key x, (some key, x) ∈ items ∧ k = key.toKey) ∨
      ∃ c, next ≤ c ∧ c < nextNumber next items ∧ k = toString c := by
  induction items generalizing next with
  | nil => cases h
  | cons item rest ih =>
    obtain ⟨_ | key, x⟩ := item
    · rw [keyedItems_plain, Assoc.keys, List.map_cons, List.mem_cons] at h
      rcases h with rfl | h
      · exact .inr ⟨next, Int.le_refl _, le_nextNumber (next + 1) rest, rfl⟩
      · rcases ih h with ⟨key, y, hmem, hk⟩ | ⟨c, hc, hlt, hk⟩
        · exact .inl ⟨key, y, List.mem_cons_of_mem _ hmem, hk⟩
        · exact .inr ⟨c, by omega, hlt, hk⟩
    · rw [keyedItems_keyed, Assoc.keys, List.map_cons, List.mem_cons] at h
      rcases h with rfl | h
      · exact .inl ⟨key, x, List.mem_cons_self, rfl⟩
      · rcases ih h with ⟨key, y, hmem, hk⟩ | ⟨c, hc, hlt, hk⟩
        · exact .inl ⟨key, y, List.mem_cons_of_mem _ hmem, hk⟩
        · exact .inr ⟨c, Int.le_trans (le_counted next key) hc, hlt, hk⟩

theorem toKey_mem_keyedItems (h : (some key, x) ∈ items) :
    key.toKey ∈ Assoc.keys (keyedItems next items) := by
  induction items generalizing next with
  | nil => cases h
  | cons item rest ih =>
    obtain ⟨_ | key', y⟩ := item
    · rcases List.mem_cons.mp h with h | h
      · cases h
      · exact List.mem_cons_of_mem _ (ih h)
    · rw [keyedItems_keyed]
      rcases List.mem_cons.mp h with h | h
      · cases h
        exact List.mem_cons_self
      · exact List.mem_cons_of_mem _ (ih h)

/-- A count that has moved is one above a key. -/
theorem top_mem_keyedItems (h : next < nextNumber next items) :
    toString (nextNumber next items - 1) ∈ Assoc.keys (keyedItems next items) := by
  induction items generalizing next with
  | nil => exact absurd h (Int.lt_irrefl next)
  | cons item rest ih =>
    obtain ⟨_ | key, x⟩ := item
    · rcases Int.le_iff_eq_or_lt.mp (le_nextNumber (next + 1) rest) with heq | hlt
      · have htop : nextNumber next ((none, x) :: rest) = next + 1 := heq.symm
        rw [htop, Int.add_sub_cancel]
        exact List.mem_cons_self
      · exact List.mem_cons_of_mem _ (ih hlt)
    · rw [keyedItems_keyed]
      rcases Int.le_iff_eq_or_lt.mp (le_nextNumber (counted next key) rest) with heq | hlt
      · have htop : nextNumber next ((some key, x) :: rest) = counted next key := heq.symm
        rw [htop] at h ⊢
        cases key with
        | int i =>
          rw [counted_int] at h ⊢
          have hi : max next (i.toInt + 1) = i.toInt + 1 := by omega
          rw [hi, Int.add_sub_cancel]
          exact List.mem_cons_self
        | _ => exact absurd h (Int.lt_irrefl next)
      · exact List.mem_cons_of_mem _ (ih hlt)

/-! ### Appending to a literal -/

/-- The numbers that the keys read as. -/
def words (items : Items) : List Int64 :=
  items.filterMap fun item => item.1.bind fun key => Number.readInteger? key.toKey.toList

/-- No key reads as a number that the count has not reached, and a count of zero is behind no key
that reads as a number, or behind a minus one. -/
structure Settled (items : Items) : Prop where
  below : ∀ i ∈ words items, i.toInt < nextNumber 0 items
  zero : nextNumber 0 items = 0 → words items = [] ∨ -1 ∈ words items

instance (items : Items) : Decidable (Settled items) :=
  -- the numbers of the items are tried, and not all the words
  have : Decidable (∀ i ∈ words items, i.toInt < nextNumber 0 items) := List.decidableBAll _ _
  decidable_of_iff (_ ∧ _)
    ⟨fun ⟨hbelow, hzero⟩ => ⟨hbelow, hzero⟩, fun ⟨hbelow, hzero⟩ => ⟨hbelow, hzero⟩⟩

theorem mem_words {i : Int64} : i ∈ words items ↔
    ∃ key x, (some key, x) ∈ items ∧ Number.readInteger? key.toKey.toList = some i := by
  unfold words
  rw [List.mem_filterMap]
  constructor
  · rintro ⟨⟨_ | key, x⟩, hmem, hread⟩
    · cases hread
    · exact ⟨key, x, hmem, hread⟩
  · rintro ⟨key, x, hmem, hread⟩
    exact ⟨(some key, x), hmem, hread⟩

/-- Behind settled items the keys read as numbers below the count. -/
theorem Settled.lt (h : Settled items) (hk : k ∈ Assoc.keys (keyedItems 0 items)) {w : Int64}
    (hw : Number.readInteger? k.toList = some w) : w.toInt < nextNumber 0 items := by
  rcases mem_keyedItems hk with ⟨key, x, hmem, rfl⟩ | ⟨c, -, hlt, rfl⟩
  · exact h.below w (mem_words.mpr ⟨key, x, hmem, hw⟩)
  · rw [readInteger?_toString] at hw
    rwa [Number.toInt_of_fits? hw]

/-- **Appending goes on with the count** behind settled items. -/
theorem nextKey_of_settled (h : Settled items)
    (hmax : nextNumber 0 items ≤ Int64.maxValue.toInt) :
    nextKey (Assoc.ofList (keyedItems 0 items)) = toString (nextNumber 0 items) := by
  have hnonneg : 0 ≤ nextNumber 0 items := le_nextNumber 0 items
  have htop : 0 < nextNumber 0 items →
      toString (nextNumber 0 items - 1) ∈ Assoc.keys (keyedItems 0 items) ∧
        Number.readInteger? (toString (nextNumber 0 items - 1)).toList =
          some (Int64.ofInt (nextNumber 0 items - 1)) ∧
        (Int64.ofInt (nextNumber 0 items - 1)).toInt = nextNumber 0 items - 1 := by
    intro hpos
    have hfits := fits?_of_nonneg (i := nextNumber 0 items - 1) (by omega) (by omega)
    exact ⟨top_mem_keyedItems hpos, (readInteger?_toString _).trans hfits,
      Number.toInt_of_fits? hfits⟩
  rcases nextKey_eq (Assoc.ofList (keyedItems 0 items)) with
    ⟨hkey, hnone⟩ | ⟨k, hk, w, hw, hkey, hle⟩
  · rcases Int.le_iff_eq_or_lt.mp hnonneg with hzero | hpos
    · rw [hkey, ← hzero]
      rfl
    · obtain ⟨hmem, hread, -⟩ := htop hpos
      rw [hnone _ (Assoc.mem_keys_ofList.mpr hmem)] at hread
      cases hread
  · rw [hkey]
    congr 1
    rw [Assoc.mem_keys_ofList] at hk
    have hlt := h.lt hk hw
    rcases Int.le_iff_eq_or_lt.mp hnonneg with hzero | hpos
    · -- a count of zero: the largest number is minus one
      rcases mem_keyedItems hk with ⟨key, x, hmem, rfl⟩ | ⟨c, hc, hclt, -⟩
      · rcases h.zero hzero.symm with hnil | hminus
        · have hword := mem_words.mpr ⟨key, x, hmem, hw⟩
          rw [hnil] at hword
          cases hword
        · obtain ⟨key', y, hmem', hread⟩ := mem_words.mp hminus
          have hminus := hle _ (Assoc.mem_keys_ofList.mpr (toKey_mem_keyedItems hmem')) _ hread
          have hone : (-1 : Int64).toInt = -1 := rfl
          omega
      · omega
    · obtain ⟨hmem, hread, hword⟩ := htop hpos
      have htopLe := hle _ (Assoc.mem_keys_ofList.mpr hmem) _ hread
      omega

/-- The number of the next item is no key yet, behind settled items. -/
theorem Settled.notMem (h : Settled items) (hmax : nextNumber 0 items ≤ Int64.maxValue.toInt) :
    toString (nextNumber 0 items) ∉ Assoc.keys (Assoc.ofList (keyedItems 0 items)) := by
  intro hmem
  have hfits := fits?_of_nonneg (le_nextNumber 0 items) hmax
  have hlt := h.lt (Assoc.mem_keys_ofList.mp hmem) ((readInteger?_toString _).trans hfits)
  rw [Number.toInt_of_fits? hfits] at hlt
  exact Int.lt_irrefl _ hlt

/-! ### Entries under the texts of their keys -/

/-- Items without keys. -/
def plain (vs : List Value) : Items := vs.map fun v => (none, v)

/-- The entries of an array under the texts of their keys. -/
def fields : Value → List (String × Value)
  | list vs => keyedItems 0 (plain vs)
  | map es => es
  | _ => []

theorem nextNumber_plain (next : Int) (vs : List Value) :
    nextNumber next (plain vs) = next + vs.length := by
  induction vs generalizing next with
  | nil => exact (Int.add_zero next).symm
  | cons v vs ih =>
    have hrest : nextNumber next (plain (v :: vs)) = next + 1 + vs.length := ih (next + 1)
    rw [hrest, List.length_cons]
    omega

theorem settled_plain (vs : List Value) : Settled (plain vs) := by
  have hwords : words (plain vs) = [] := by
    induction vs with
    | nil => rfl
    | cons v vs ih => exact ih
  constructor
  · intro i hi
    rw [hwords] at hi
    cases hi
  · exact fun _ => .inl hwords

theorem length_fields_list (vs : List Value) : (fields (list vs)).length = vs.length := by
  show (keyedItems 0 (plain vs)).length = vs.length
  rw [length_keyedItems, plain, List.length_map]

/-- The positions of a list are the numbers below its length. -/
theorem mem_keys_fields_list {vs : List Value} (h : k ∈ Assoc.keys (fields (list vs))) :
    ∃ n < vs.length, k = toString (n : Int) := by
  rcases mem_keyedItems h with ⟨key, x, hmem, -⟩ | ⟨c, hc, hlt, rfl⟩
  · obtain ⟨v, -, hv⟩ := List.mem_map.mp hmem
    cases hv
  · rw [nextNumber_plain, Int.zero_add] at hlt
    refine ⟨c.toNat, by omega, ?_⟩
    rw [Int.toNat_of_nonneg hc]

theorem fields_list_append (vs ws : List Value) :
    fields (list (vs ++ ws)) = fields (list vs) ++ keyedItems vs.length (plain ws) := by
  have hplain : plain (vs ++ ws) = plain vs ++ plain ws := List.map_append
  show keyedItems 0 (plain (vs ++ ws)) = _
  rw [hplain, keyedItems_append, nextNumber_plain, Int.zero_add]
  rfl

theorem notMem_fields_list (vs : List Value) :
    toString (vs.length : Int) ∉ Assoc.keys (fields (list vs)) := by
  intro hmem
  obtain ⟨n, hn, heq⟩ := mem_keys_fields_list hmem
  exact absurd (toString_ofNat_inj heq) hn.ne'

theorem nodup_fields_list (vs : List Value) : (Assoc.keys (fields (list vs))).Nodup := by
  induction vs using List.reverseRecOn with
  | nil => exact List.nodup_nil
  | append_singleton vs x ih =>
    have happend : fields (list (vs ++ [x])) = fields (list vs) ++ [(toString (vs.length : Int), x)]
      := fields_list_append vs [x]
    rw [happend, ← Assoc.insert_of_notMem (notMem_fields_list vs)]
    exact Assoc.nodup_keys_insert ih _ _

theorem ofList_plain (vs : List Value) :
    Assoc.ofList (keyedItems 0 (plain vs)) = fields (list vs) :=
  Assoc.ofList_of_nodup (nodup_fields_list vs)

/-- **The entries of a literal** are those of its items, put in one by one. -/
theorem fields_ofItems (items : Items) :
    fields (ofItems items) = Assoc.ofList (keyedItems 0 items) := by
  unfold ofItems
  split
  next hall =>
    have hplain : plain (items.map Prod.snd) = items := by
      unfold plain
      rw [List.map_map]
      conv => rhs; rw [← List.map_id items]
      refine List.map_congr_left fun ⟨key, x⟩ hmem => ?_
      have hkey := List.all_eq_true.mp hall _ hmem
      rw [Option.isNone_iff_eq_none.mp hkey]
      rfl
    rw [← ofList_plain, hplain]
  next => rfl

/-- Appending to a list goes on with its length. -/
theorem nextKey_fields_list {vs : List Value} (h : (vs.length : Int) ≤ Int64.maxValue.toInt) :
    nextKey (fields (list vs)) = toString (vs.length : Int) := by
  have hnext := nextNumber_plain 0 vs
  rw [Int.zero_add] at hnext
  have hkey := nextKey_of_settled (settled_plain vs) (hnext ▸ h)
  rwa [hnext, ofList_plain] at hkey

/-- A list with an item set, or with one more item. -/
theorem fields_put_item {vs : List Value} {n : Nat} (h : n ≤ vs.length) (x : Value) :
    fields ((list vs).put (.item n) x) =
      Assoc.insert (fields (list vs)) (toString (n : Int)) x := by
  have hlength : (vs.take n).length = n := by rw [List.length_take, Nat.min_eq_left h]
  have hnew := notMem_fields_list (vs.take n)
  rw [hlength] at hnew
  have hput : fields ((list vs).put (.item n) x) =
      fields (list (vs.take n)) ++ keyedItems n (plain (x :: vs.drop (n + 1))) := by
    have happend := fields_list_append (vs.take n) (x :: vs.drop (n + 1))
    rwa [hlength] at happend
  have hvs : fields (list vs) = fields (list (vs.take n)) ++ keyedItems n (plain (vs.drop n)) := by
    have happend := fields_list_append (vs.take n) (vs.drop n)
    rwa [List.take_append_drop, hlength] at happend
  rw [hput, hvs, Assoc.insert_append_of_notMem hnew]
  congr 1
  rcases Nat.lt_or_eq_of_le h with hlt | rfl
  · rw [List.drop_eq_getElem_cons hlt]
    exact (if_pos rfl).symm
  · rw [List.drop_length, List.drop_eq_nil_of_le (Nat.le_succ _)]
    rfl

/-! ### Keys as values -/

/-- The positions of a list are words. -/
def Short : Value → Prop
  | list vs => (vs.length : Int) ≤ Int64.maxValue.toInt
  | _ => True

theorem numbered_eq_zipIdx (n : Nat) (vs : List Value) :
    numbered n vs = (vs.zipIdx n).map fun e => (int (Int64.ofNat e.2), e.1) := by
  induction vs generalizing n with
  | nil => rfl
  | cons v vs ih => exact congrArg ((int (Int64.ofNat n), v) :: ·) (ih (n + 1))

theorem numbered_eq {n : Nat} {vs : List Value} (h : (n + vs.length : Int) ≤ Int64.maxValue.toInt) :
    numbered n vs = (keyedItems n (plain vs)).map fun e => (keyValue e.1, e.2) := by
  induction vs generalizing n with
  | nil => rfl
  | cons v vs ih =>
    rw [List.length_cons, Int.natCast_add, Int.natCast_one] at h
    have hrest := ih (n := n + 1) (by omega)
    have hkey := keyValue_toString (n := n) (by omega)
    show (int (Int64.ofNat n), v) :: numbered (n + 1) vs =
      (keyValue (toString (n : Int)), v) :: (keyedItems ((n : Int) + 1) (plain vs)).map _
    rw [hkey, hrest]
    rfl

/-- What a script sees of an array are its entries, with the texts of the keys turned into
values. -/
theorem entries_eq (h : v.Short) : v.entries = (fields v).map fun e => (keyValue e.1, e.2) := by
  cases v with
  | list vs => exact numbered_eq (n := 0) (by simpa [Short] using h)
  | _ => rfl

theorem short_ofItems (h : (items.length : Int) ≤ Int64.maxValue.toInt) :
    (ofItems items).Short := by
  unfold ofItems
  split
  · simpa [Short] using h
  · trivial

theorem entries_ofItems (h : (items.length : Int) ≤ Int64.maxValue.toInt) :
    (ofItems items).entries =
      (Assoc.ofList (keyedItems 0 items)).map fun e => (keyValue e.1, e.2) := by
  rw [entries_eq (short_ofItems h), fields_ofItems]

/-- **An item without a key is one more entry** behind settled items. -/
theorem entries_ofItems_plain (hsettled : Settled items)
    (hmax : nextNumber 0 items ≤ Int64.maxValue.toInt)
    (hlength : (items.length : Int) + 1 ≤ Int64.maxValue.toInt) (x : Value) :
    (ofItems (items ++ [(none, x)])).entries = (ofItems items).entries ++
      [(keyValue (toString (nextNumber 0 items)), x)] := by
  have hlength' : ((items ++ [(none, x)]).length : Int) ≤ Int64.maxValue.toInt := by
    simpa using hlength
  rw [entries_ofItems hlength', entries_ofItems (by omega), keyedItems_concat, Assoc.ofList_concat]
  unfold keyBehind
  rw [Assoc.insert_of_notMem (hsettled.notMem hmax), List.map_append]
  rfl

end Value

end Stencil
