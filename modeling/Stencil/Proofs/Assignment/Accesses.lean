import Stencil.Proofs.Assignment.Slots
import Stencil.Proofs.Spelling

/-!
# Reading back what an assignment has set

An assignment writes keys as texts, and reading turns them into positions again.  A read follows
accesses: members by their names and elements by the values of their keys.  Along the accesses of an
assignment it goes through the slots of the walk and finds the new element; a read that leaves the
route at some slot finds what was there before.

## Main definitions

* `Access`, `Value.accessAll` — one step of a target with the value of its key, and reading along
  accesses.
* `Value.accessed?` — the slot that an access reads.
* `Value.Leaves` — a read that leaves the route of an assignment.

## Main results

* `Walk.accessAll_eq_new` — reading along the accesses of an assignment gives the new value.
* `Walk.accessAll_of_leaves` — any other read gives what it gave before.
-/

namespace Stencil

/-- One step of a target, with the value of its key. -/
inductive Access where
  /-- A member, by its name. -/
  | member (name : String) : Access
  /-- An element, by the value of its key. -/
  | key (k : Value) : Access
  /-- A new element. -/
  | append : Access

/-- The step that an assignment takes. -/
def Access.step : Access → Step
  | member name => .key name
  | key k => .key k.toKey
  | append => .append

/-- A name of a member that the script can spell. -/
def Access.Named : Access → Prop
  | member name => IsQualified name.toList
  | _ => True

namespace Value

variable {v c x new : Value} {s t : Slot} {step : Step} {a : Access} {as : List Access}

/-- What an access reads; a new element cannot be read. -/
def access (v : Value) : Access → Except RuntimeError Value
  | .member name => .ok (v.member name)
  | .key k => .ok (v.index k)
  | .append => .error .appendRead

/-- What accesses read, one after the other. -/
def accessAll (v : Value) : List Access → Except RuntimeError Value
  | [] => .ok v
  | a :: as => do (← v.access a).accessAll as

/-- The position that a key counts as. -/
def position? (k : Value) : Option Nat :=
  match k.toNumber? with
  | some n => if n.toWord.toInt < 0 then none else some n.toWord.toInt.toNat
  | none => none

/-- The slot that an access reads in a container. -/
def accessed? (v : Value) (a : Access) : Option Slot :=
  match v, a with
  | list _, .key k => k.position?.map .item
  | map _, .key k => some (.entry k.toKey)
  | map _, .member name => some (.entry name)
  | _, _ => none

theorem index_list (items : List Value) (k : Value) :
    (list items).index k = (k.position?.bind (items[·]?)).getD null := by
  rw [index, position?]
  cases k.toNumber? with
  | none => rfl
  | some n =>
    show itemAt items n.toWord = _
    rw [itemAt]
    split <;> simp [*]

/-- A container is read through its slots. -/
theorem Takes.access_eq (h : c.Takes s) (ha : a ≠ .append) :
    c.access a = .ok (((c.accessed? a).bind c.element?).getD null) := by
  cases h with
  | @item items n h =>
    cases a with
    | append => exact absurd rfl ha
    | member name => rfl
    | key k =>
      show Except.ok ((list items).index k) = .ok (((k.position?.map Slot.item).bind _).getD null)
      rw [index_list]
      cases k.position? <;> rfl
  | entry =>
    cases a with
    | append => exact absurd rfl ha
    | member name => rfl
    | key k => rfl

theorem Takes.accessed?_put (h : c.Takes s) : (c.put s x).accessed? a = c.accessed? a := by
  cases h <;> cases a <;> rfl

theorem Takes.put (h : c.Takes s) : (c.put s x).Takes s := by
  cases h with
  | item h =>
    refine .item ?_
    rw [List.length_append, List.length_take, Nat.min_eq_left h]
    exact Nat.le_add_right _ _
  | entry => exact .entry

/-- Before it is opened, a null reads like the container that it becomes. -/
theorem access_of_takes_opened (h : (v.opened step).Takes s) (ha : a ≠ .append) :
    v.access a = .ok ((((v.opened step).accessed? a).bind v.element?).getD null) := by
  by_cases hv : v = null
  · subst hv
    have hnone : ∀ o : Option Slot, (o.bind null.element?).getD null = null := fun o => by
      cases o <;> rfl
    rw [hnone]
    cases a with
    | append => exact absurd rfl ha
    | member name => rfl
    | key k => rfl
  · rw [opened_of_ne_null hv] at h ⊢
    exact h.access_eq ha

theorem readNatural?_of_isQualified {w : List Char} (h : IsQualified w) :
    Number.readNatural? w = none := by
  obtain ⟨c, a, rfl, hc⟩ := h.exists_cons
  cases hread : Number.readNatural? (c :: a) with
  | none => rfl
  | some n =>
    obtain ⟨digits, hcs, hdigits, -⟩ := readNatural?_eq_some hread
    rw [Number.isNumeral, Bool.and_eq_true, List.all_eq_true] at hdigits
    rcases hcs with rfl | hcs
    · have hdigit := hdigits.2 c List.mem_cons_self
      rw [not_isAsciiDigit_of_isNameStart hc] at hdigit
      cases hdigit
    · cases hcs
      exact absurd hc (by decide)

/-- The slot that an assignment writes for an access is the slot that the access reads. -/
theorem accessed?_of_slot? (hs : c.slot? a.step = some s) (hc : c.WithinWords) (hname : a.Named)
    (ha : a ≠ .append) : c.accessed? a = some s := by
  cases a with
  | append => exact absurd rfl ha
  | member name =>
    cases c with
    | map es =>
      cases hs
      rfl
    | list items =>
      have hnone : Number.readNatural? name.toList = none := readNatural?_of_isQualified hname
      rw [Access.step, slot?, hnone] at hs
      cases hs
    | _ => cases hs
  | key k =>
    cases c with
    | map es =>
      cases hs
      rfl
    | list items =>
      rw [Access.step, slot?] at hs
      split at hs
      next n hn =>
        rw [Option.ite_none_right_eq_some] at hs
        obtain ⟨hle, hs⟩ := hs
        have hmax : (n : Int) ≤ Int64.maxValue.toInt :=
          (Int.ofNat_le.mpr hle).trans (hc.length_le [] items rfl)
        obtain ⟨number, hnumber, hword⟩ := toWord_of_readNatural? hn hmax
        have hint : (Int64.ofNat n).toInt = n :=
          Int64.toInt_ofNat_of_lt (Int.ofNat_lt.mp (Int.lt_of_le_sub_one hmax))
        have hpos : k.position? = some n := by
          rw [position?, hnumber]
          show (if number.toWord.toInt < 0 then none else some number.toWord.toInt.toNat) = _
          rw [hword, hint, if_neg (by omega), Int.toNat_natCast]
        cases hs
        rw [accessed?, hpos]
        rfl
      next => cases hs
    | _ => cases hs

/-- A read leaves the route of an assignment when it reads another slot than the walk goes
through. -/
def Leaves : List Slot → List Access → Value → Prop
  | s :: route, a :: as, w => w.accessed? a = some s → Leaves route as (w.child s)
  | _, _, _ => False

namespace Walk

variable {route : List Slot} {w : Value}

/-- **Reading along the accesses of an assignment gives the new value.** -/
theorem accessAll_eq_new (h : Walk new (as.map Access.step) route v w) (hv : v.WithinWords)
    (hnames : ∀ a ∈ as, a.Named) (happend : .append ∉ as) : w.accessAll as = .ok new := by
  induction as generalizing route v w with
  | nil =>
    cases h
    rfl
  | cons a as ih =>
    cases h with
    | @step _ _ s route _ x hs h =>
      rw [List.mem_cons, not_or] at happend
      rw [List.forall_mem_cons] at hnames
      have htakes := takes_of_slot? hs
      have hacc : (v.opened a.step).accessed? a = some s :=
        accessed?_of_slot? hs (hv.opened _) hnames.1 (Ne.symm happend.1)
      rw [accessAll, htakes.put.access_eq (Ne.symm happend.1), htakes.accessed?_put, hacc,
        Option.bind_some, htakes.element?_put_self]
      exact ih h (hv.child s) hnames.2 happend.2

/-- **A read that leaves the route gives what it gave before.** -/
theorem accessAll_of_leaves {path : List Step} (h : Walk new path route v w)
    (hl : Leaves route as w) :
    w.accessAll as = v.accessAll as := by
  induction h generalizing as with
  | done => cases hl
  | @step step path s route v x hs h ih =>
    have htakes := takes_of_slot? hs
    cases as with
    | nil => cases hl
    | cons a as =>
      by_cases ha : a = .append
      · subst ha
        rfl
      have hput := htakes.accessed?_put (x := x) (a := a)
      rw [accessAll, accessAll, htakes.put.access_eq ha, access_of_takes_opened htakes ha, hput]
      cases ht : (v.opened step).accessed? a with
      | none => rfl
      | some t =>
        by_cases hts : t = s
        · -- the read stays on the route, which it leaves farther on
          subst hts
          have hchild : ((v.opened step).put t x).child t = x := by
            rw [child, htakes.element?_put_self]
            rfl
          have hbelow := ih (hchild ▸ hl (hput.trans ht))
          show accessAll ((((v.opened step).put t x)).child t) as = accessAll (v.child t) as
          rw [hchild]
          exact hbelow
        · rw [Option.bind_some, Option.bind_some, htakes.element?_put_of_ne hts, element?_opened]

end Walk

end Value

end Stencil
