import Mathlib.Data.List.Perm.Subperm
import Stencil.Proofs.Numbers.Comparing
import Stencil.Value.Compare

/-!
# Comparing values

Loose equality, strict equality and the loose order decide by the types of both operands, and each
pair of types has one rule, whichever operand comes first.  So exchanged operands compare alike, and
what is strictly equal is loosely equal.  A map is compared by its keys: that this does not depend
on whose keys are looked up is owed to the lengths, and to no key occurring twice.

## Main definitions

* `Value.Distinct` — the values in which no map has a key twice.

## Main results

* `looseEq_comm`, `looseOrder?_swap`, `strictEq_comm` — exchanged operands.
* `looseEq_of_strictEq` — strict equality implies the loose one.
* `comparison_coherent` — all of it.
-/

namespace Stencil

open Number

/-- No map in the value has a key twice, at any depth. -/
inductive Value.Distinct : Value → Prop
  | scalar {v : Value} (h : v.isArray = false) : Distinct v
  | list {items : List Value} (h : ∀ v ∈ items, Distinct v) : Distinct (.list items)
  | map {entries : List (String × Value)} (hkeys : (Assoc.keys entries).Nodup)
      (h : ∀ e ∈ entries, Distinct e.2) : Distinct (.map entries)

namespace Value

variable {a b : Value} {xs ys : List Value} {es fs : List (String × Value)}

/-! ### Loose equality -/

theorem stringEq_comm (s t : String) : stringEq s t = stringEq t s := by
  rw [stringEq, stringEq]
  cases readNumber? s.toList with
  | none => cases readNumber? t.toList <;> exact BEq.comm
  | some x =>
    cases readNumber? t.toList with
    | none => exact BEq.comm
    | some y => exact float_beq_comm _ _

/-- A numeral is a number that equals itself. -/
theorem stringEq_self (s : String) : stringEq s s = true := by
  rw [stringEq]
  cases hs : readNumber? s.toList with
  | none => exact beq_self_eq_true s
  | some x => exact (isNumber_readNumber? hs).beq_self

theorem looseEq_comm_of_scalar (h : a.isArray = false) (b : Value) : looseEq a b = looseEq b a := by
  cases a with
  | null => cases b <;> simp [looseEq, isTruthy]
  | bool p => cases b <;> simp [looseEq, isTruthy, BEq.comm]
  | int i => cases b <;> simp [looseEq, isTruthy, float_beq_comm]
  | float x => cases b <;> simp [looseEq, isTruthy, float_beq_comm]
  | string s => cases b <;> simp [looseEq, isTruthy, stringEq_comm]
  | list xs => cases h
  | map es => cases h

theorem looseEqItems_comm (h : ∀ v ∈ xs, ∀ w ∈ ys, looseEq v w = looseEq w v) :
    looseEqItems xs ys = looseEqItems ys xs := by
  induction xs generalizing ys with
  | nil => cases ys <;> simp [looseEqItems]
  | cons v xs ih =>
    cases ys with
    | nil => simp [looseEqItems]
    | cons w ys =>
      have hrest := ih fun v hv w hw =>
        h v (List.mem_cons_of_mem _ hv) w (List.mem_cons_of_mem _ hw)
      rw [looseEqItems, looseEqItems, h v List.mem_cons_self w List.mem_cons_self, hrest]

/-- Every entry is looked up by its key. -/
theorem looseEqEntries_iff : looseEqEntries es fs = true ↔
    ∀ e ∈ es, ∃ w, Assoc.get? fs e.1 = some w ∧ looseEq e.2 w = true := by
  induction es with
  | nil => simp [looseEqEntries]
  | cons e es ih =>
    rw [looseEqEntries, Bool.and_eq_true, ih, List.forall_mem_cons]
    cases Assoc.get? fs e.1 <;> simp

/-- Maps of one length have the same keys when the entries of one are found in the other, so those
of the other are found in the one. -/
theorem looseEqEntries_turn (hes : (Assoc.keys es).Nodup) (hfs : (Assoc.keys fs).Nodup)
    (hlength : es.length = fs.length)
    (hcomm : ∀ e ∈ es, ∀ f ∈ fs, looseEq e.2 f.2 = looseEq f.2 e.2)
    (h : looseEqEntries es fs = true) : looseEqEntries fs es = true := by
  rw [looseEqEntries_iff] at h ⊢
  have hsub : Assoc.keys es ⊆ Assoc.keys fs := by
    intro k hk
    obtain ⟨e, he, rfl⟩ := List.mem_map.mp hk
    obtain ⟨w, hw, -⟩ := h e he
    exact List.mem_map.mpr ⟨_, Assoc.mem_of_get? hw, rfl⟩
  have hperm : (Assoc.keys es).Perm (Assoc.keys fs) :=
    (hes.subperm hsub).perm_of_length_le (by simp [Assoc.keys, hlength])
  intro f hf
  have hkey : f.1 ∈ Assoc.keys es := hperm.mem_iff.mpr (List.mem_map.mpr ⟨f, hf, rfl⟩)
  obtain ⟨e, he, hkey⟩ := List.mem_map.mp hkey
  obtain ⟨w, hw, heq⟩ := h e he
  rw [hkey, Assoc.get?_of_mem hfs hf] at hw
  cases hw
  rw [← hkey]
  exact ⟨e.2, Assoc.get?_of_mem hes he, (hcomm e he f hf).symm.trans heq⟩

theorem looseEq_comm (ha : a.Distinct) (hb : b.Distinct) : looseEq a b = looseEq b a := by
  induction ha generalizing b with
  | scalar h => exact looseEq_comm_of_scalar h b
  | @list xs hxs ih =>
    cases hb with
    | scalar hb => exact (looseEq_comm_of_scalar hb _).symm
    | list hys =>
      rw [looseEq, looseEq, BEq.comm, looseEqItems_comm fun v hv w hw => ih v hv (hys w hw)]
    | map => simp [looseEq]
  | @map es hkeys hes ih =>
    cases hb with
    | scalar hb => exact (looseEq_comm_of_scalar hb _).symm
    | list => simp [looseEq]
    | @map fs hkeys' hfs =>
      have hcomm : ∀ e ∈ es, ∀ f ∈ fs, looseEq e.2 f.2 = looseEq f.2 e.2 :=
        fun e he f hf => ih e he (hfs f hf)
      rw [looseEq, looseEq, Bool.eq_iff_iff, Bool.and_eq_true, Bool.and_eq_true, beq_iff_eq,
        beq_iff_eq]
      constructor
      · rintro ⟨hlength, heq⟩
        exact ⟨hlength.symm, looseEqEntries_turn hkeys hkeys' hlength hcomm heq⟩
      · rintro ⟨hlength, heq⟩
        exact ⟨hlength.symm, looseEqEntries_turn hkeys' hkeys hlength
          (fun f hf e he => (hcomm e he f hf).symm) heq⟩

/-! ### Order -/

theorem some_compare_swap {α : Type} [Ord α] [Std.OrientedOrd α] (x y : α) :
    some (compare y x) = (some (compare x y)).map Ordering.swap :=
  congrArg some Std.OrientedCmp.eq_swap

theorem stringOrder?_swap (s t : String) :
    stringOrder? t s = (stringOrder? s t).map Ordering.swap := by
  rw [stringOrder?, stringOrder?]
  cases readNumber? s.toList with
  | none => cases readNumber? t.toList <;> exact some_compare_swap s t
  | some x =>
    cases readNumber? t.toList with
    | none => exact some_compare_swap s t
    | some y => exact order?_swap _ _

/-- Exchanged operands are ordered the other way around, and are as comparable. -/
theorem looseOrder?_swap (a b : Value) : looseOrder? b a = (looseOrder? a b).map Ordering.swap := by
  cases a with
  | null =>
    cases b with
    | string t => exact some_compare_swap "" t
    | _ => exact some_compare_swap false _
  | bool p => cases b <;> exact some_compare_swap p _
  | int i =>
    cases b with
    | null | bool => exact some_compare_swap _ _
    | int | float | string => exact order?_swap _ _
    | list | map => rfl
  | float x =>
    cases b with
    | null | bool => exact some_compare_swap _ _
    | int | float | string => exact order?_swap _ _
    | list | map => rfl
  | string s =>
    cases b with
    | null => exact some_compare_swap s ""
    | bool => exact some_compare_swap _ _
    | int | float => exact order?_swap _ _
    | string t => exact stringOrder?_swap s t
    | list | map => rfl
  | list xs =>
    cases b with
    | null | bool => exact some_compare_swap _ _
    | list ys => exact some_compare_swap xs.length ys.length
    | _ => rfl
  | map es =>
    cases b with
    | null | bool => exact some_compare_swap _ _
    | map fs => exact some_compare_swap es.length fs.length
    | _ => rfl

/-! ### Strict equality -/

mutual

theorem strictEq_comm : (a b : Value) → strictEq a b = strictEq b a
  | null, b => by cases b <;> simp [strictEq]
  | bool p, b => by cases b <;> simp [strictEq, BEq.comm]
  | int i, b => by cases b <;> simp [strictEq, BEq.comm]
  | float x, b => by cases b <;> simp [strictEq, float_beq_comm]
  | string s, b => by cases b <;> simp [strictEq, BEq.comm]
  | list xs, b => by
    cases b with
    | list ys => rw [strictEq, strictEq, strictEqItems_comm xs ys]
    | _ => simp [strictEq]
  | map es, b => by
    cases b with
    | map fs => rw [strictEq, strictEq, strictEqEntries_comm es fs]
    | _ => simp [strictEq]

theorem strictEqItems_comm : (xs ys : List Value) → strictEqItems xs ys = strictEqItems ys xs
  | [], [] => rfl
  | [], _ :: _ => by simp [strictEqItems]
  | _ :: _, [] => by simp [strictEqItems]
  | x :: xs, y :: ys => by
    rw [strictEqItems, strictEqItems, strictEq_comm x y, strictEqItems_comm xs ys]

theorem strictEqEntries_comm :
    (es fs : List (String × Value)) → strictEqEntries es fs = strictEqEntries fs es
  | [], [] => rfl
  | [], _ :: _ => by simp [strictEqEntries]
  | _ :: _, [] => by simp [strictEqEntries]
  | (k, v) :: es, (l, w) :: fs => by
    rw [strictEqEntries, strictEqEntries, strictEq_comm v w, strictEqEntries_comm es fs,
      BEq.comm (a := k)]

end

theorem looseEqItems_of_strict (h : ∀ v ∈ xs, ∀ w ∈ ys, strictEq v w = true → looseEq v w = true)
    (heq : strictEqItems xs ys = true) : xs.length = ys.length ∧ looseEqItems xs ys = true := by
  induction xs generalizing ys with
  | nil =>
    cases ys with
    | nil => exact ⟨rfl, rfl⟩
    | cons w ys => cases heq
  | cons v xs ih =>
    cases ys with
    | nil => cases heq
    | cons w ys =>
      rw [strictEqItems, Bool.and_eq_true] at heq
      obtain ⟨hlength, hrest⟩ := ih (fun v hv w hw =>
        h v (List.mem_cons_of_mem _ hv) w (List.mem_cons_of_mem _ hw)) heq.2
      rw [looseEqItems, h v List.mem_cons_self w List.mem_cons_self heq.1, hrest]
      exact ⟨congrArg Nat.succ hlength, rfl⟩

/-- Of strictly equal maps, each has the entries of the other. -/
theorem mem_of_strictEqEntries (h : strictEqEntries es fs = true) :
    es.length = fs.length ∧ ∀ e ∈ es, ∃ w, (e.1, w) ∈ fs ∧ strictEq e.2 w = true := by
  induction es generalizing fs with
  | nil =>
    cases fs with
    | nil => exact ⟨rfl, fun _ he => absurd he List.not_mem_nil⟩
    | cons f fs => cases h
  | cons e es ih =>
    cases fs with
    | nil => cases h
    | cons f fs =>
      rw [strictEqEntries, Bool.and_eq_true, Bool.and_eq_true, beq_iff_eq] at h
      obtain ⟨⟨hkey, hvalue⟩, hrest⟩ := h
      obtain ⟨hlength, hmem⟩ := ih hrest
      refine ⟨congrArg Nat.succ hlength, List.forall_mem_cons.mpr ⟨?_, fun e he => ?_⟩⟩
      · rw [hkey]
        exact ⟨f.2, List.mem_cons_self, hvalue⟩
      · obtain ⟨w, hw, heq⟩ := hmem e he
        exact ⟨w, List.mem_cons_of_mem _ hw, heq⟩

/-- What is strictly equal is loosely equal. -/
theorem looseEq_of_strictEq (ha : a.Distinct) (hb : b.Distinct) (h : strictEq a b = true) :
    looseEq a b = true := by
  induction ha generalizing b with
  | @scalar v hv =>
    cases v with
    | null =>
      cases b with
      | null => rfl
      | _ => cases h
    | bool p =>
      cases b with
      | bool q => exact h
      | _ => cases h
    | int i =>
      cases b with
      | int j =>
        rw [strictEq, beq_iff_eq] at h
        subst h
        exact (isNumber_ofInteger i).beq_self
      | _ => cases h
    | float x =>
      cases b with
      | float y => exact h
      | _ => cases h
    | string s =>
      cases b with
      | string t =>
        rw [strictEq, beq_iff_eq] at h
        subst h
        exact stringEq_self s
      | _ => cases h
    | list xs => cases hv
    | map es => cases hv
  | @list xs hxs ih =>
    cases hb with
    | scalar hb =>
      cases b with
      | list ys => cases hb
      | _ => cases h
    | list hys =>
      rw [strictEq] at h
      obtain ⟨hlength, heq⟩ := looseEqItems_of_strict (fun v hv w hw => ih v hv (hys w hw)) h
      rw [looseEq, heq, hlength, beq_self_eq_true, Bool.and_self]
    | map => cases h
  | @map es hkeys hes ih =>
    cases hb with
    | scalar hb =>
      cases b with
      | map fs => cases hb
      | _ => cases h
    | list => cases h
    | map hkeys' hfs =>
      rw [strictEq] at h
      obtain ⟨hlength, hmem⟩ := mem_of_strictEqEntries h
      rw [looseEq, hlength, beq_self_eq_true, Bool.true_and, looseEqEntries_iff]
      intro e he
      obtain ⟨w, hw, heq⟩ := hmem e he
      exact ⟨w, Assoc.get?_of_mem hkeys' hw, ih e he (hfs _ hw) heq⟩

/-- **Comparison is coherent.**  Of two values of any nesting, loose equality does not depend on
which comes first, the order of the exchanged values is the reverse one and is absent together with
it, and what is strictly equal is loosely equal and strictly equal the other way around. -/
theorem comparison_coherent (ha : a.Distinct) (hb : b.Distinct) :
    looseEq a b = looseEq b a ∧
      looseOrder? b a = (looseOrder? a b).map Ordering.swap ∧
      (strictEq a b = true → looseEq a b = true ∧ strictEq b a = true) := by
  refine ⟨looseEq_comm ha hb, looseOrder?_swap a b, fun h => ?_⟩
  rw [strictEq_comm b a]
  exact ⟨looseEq_of_strictEq ha hb h, h⟩

/-- Two maps with their entries in another order and of other types. -/
theorem comparison_coherent_maps :
    let a := map [("n", string "01"), ("xs", list [int 1, null])]
    let b := map [("xs", list [string "1", bool false]), ("n", int 1)]
    a.Distinct ∧ b.Distinct ∧ looseEq a b = true ∧ looseEq b a = true ∧
      looseOrder? b a = some .eq ∧ strictEq a b = false := by
  intro a b
  have hpair : ∀ {α : Type} {p : α → Prop} {x y : α}, p x → p y → ∀ z ∈ [x, y], p z :=
    fun hx hy => List.forall_mem_cons.mpr ⟨hx, List.forall_mem_singleton.mpr hy⟩
  have ha : a.Distinct :=
    .map (by decide) (hpair (.scalar rfl) (.list (hpair (.scalar rfl) (.scalar rfl))))
  have hb : b.Distinct :=
    .map (by decide) (hpair (.list (hpair (.scalar rfl) (.scalar rfl))) (.scalar rfl))
  obtain ⟨hcomm, horder, -⟩ := comparison_coherent ha hb
  have heq : looseEq a b = true := by decide +kernel
  have horder' : looseOrder? a b = some .eq := rfl
  refine ⟨ha, hb, heq, hcomm ▸ heq, ?_, by decide +kernel⟩
  rw [horder, horder']
  rfl

end Value

end Stencil
