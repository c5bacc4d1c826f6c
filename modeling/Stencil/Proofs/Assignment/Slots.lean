import Mathlib.Data.List.Infix
import Stencil.Proofs.Numerals

/-!
# Assignment to an element of a value

An address is the list of the slots that lead from a value to one of its elements.  The walk of an
assignment either ends at a step that leads to no slot, and then nothing has changed: what is
created on the way is null, and a null takes every step.  Or it has a route, the address of the
element that is set, and then it is described by one step: the container is opened, and the slot
holds what the rest of the walk makes of its element.

## Main definitions

* `Value.at?` — the element at an address.
* `Value.WithinWords` — the lists and the integer keys of a value stay below the largest word.
* `Walk` — the walk of an assignment that reaches its end, with its route.
* `Value.Appended` — a container and the same container with one more element.

## Main results

* `write_of_not_reached` — a walk that is refused changes nothing.
* `walk_of_reached` — any other walk is a `Walk`.
* `Walk.at?_route`, `Walk.at?_of_off` — the element at the end of the route is the new one, and the
  elements off the route are the old ones.
* `Walk.appended` — each append step adds one element.
* `Walk.keys_prefix` — the maps keep the order of their keys.
-/

namespace Stencil

namespace Value

variable {v c x new : Value} {s t : Slot} {step : Step} {path : List Step}

/-! ### Slots of a container -/

/-- The slots that a container has, and those that can be added to it. -/
inductive Takes : Value → Slot → Prop
  | item {items : List Value} {n : Nat} (h : n ≤ items.length) : Takes (list items) (.item n)
  | entry {es : List (String × Value)} {k : String} : Takes (map es) (.entry k)

theorem takes_of_slot? (h : c.slot? step = some s) : c.Takes s := by
  unfold slot? at h
  split at h
  · cases h
    exact .item le_rfl
  · split at h
    · rw [Option.ite_none_right_eq_some] at h
      cases h.2
      exact .item h.1
    · cases h
  · cases h
    exact .entry
  · cases h
    exact .entry
  · cases h

theorem Takes.element?_put_self (h : c.Takes s) : (c.put s x).element? s = some x := by
  cases h with
  | item h =>
    show (_ ++ x :: _)[_]? = some x
    rw [List.getElem?_append_right (List.length_take_le _ _), List.length_take, Nat.min_eq_left h,
      Nat.sub_self]
    rfl
  | entry => exact Assoc.get?_insert_self _ _ _

theorem Takes.element?_put_of_ne (h : c.Takes s) (hne : t ≠ s) :
    (c.put s x).element? t = c.element? t := by
  cases h with
  | @item items n h =>
    cases t with
    | entry => rfl
    | item m =>
      have hmn : m ≠ n := fun heq => hne (congrArg Slot.item heq)
      show (items.take n ++ x :: items.drop (n + 1))[m]? = items[m]?
      rcases Nat.lt_or_gt_of_ne hmn with hlt | hgt
      · rw [List.getElem?_append_left (by simp; omega), List.getElem?_take_of_lt hlt]
      · rw [List.getElem?_append_right (by simp; omega), List.length_take, Nat.min_eq_left h]
        obtain ⟨d, rfl⟩ := Nat.exists_eq_add_of_lt hgt
        rw [show n + d + 1 - n = d + 1 by omega, List.getElem?_cons_succ, List.getElem?_drop]
        congr 1
        omega
  | entry =>
    cases t with
    | item => rfl
    | entry k => exact Assoc.get?_insert_of_ne _ (fun heq => hne (congrArg Slot.entry heq.symm)) _

/-- Setting an element to what it is changes nothing. -/
theorem put_element? (h : c.element? s = some x) : c.put s x = c := by
  unfold element? at h
  split at h
  next items n =>
    obtain ⟨hn, rfl⟩ := List.getElem?_eq_some_iff.mp h
    show list (_ ++ items[n] :: _) = _
    rw [List.getElem_cons_drop, List.take_append_drop]
  next es k => exact congrArg map (Assoc.insert_of_get? h)
  next => cases h

@[simp] theorem element?_opened : (v.opened step).element? s = v.element? s := by
  unfold opened
  split
  · cases s <;> rfl
  · cases s <;> rfl
  · rfl

theorem not_null_of_slot?_eq_none (h : (v.opened step).slot? step = none) : v ≠ null := by
  rintro rfl
  cases step <;> cases h

theorem opened_of_ne_null (h : v ≠ null) : v.opened step = v := by
  unfold opened
  split
  · exact absurd rfl h
  · exact absurd rfl h
  · rfl

/-! ### Elements at an address -/

/-- The element at an address. -/
def at? : List Slot → Value → Option Value
  | [], v => some v
  | s :: addr, v => (v.element? s).bind (at? addr)

theorem at?_cons (s : Slot) (addr : List Slot) (v : Value) :
    v.at? (s :: addr) = (v.element? s).bind (at? addr) := rfl

theorem at?_append (addr rest : List Slot) (v : Value) :
    v.at? (addr ++ rest) = (v.at? addr).bind (at? rest) := by
  induction addr generalizing v with
  | nil => rfl
  | cons s addr ih =>
    rw [List.cons_append, at?_cons, at?_cons]
    cases v.element? s with
    | none => rfl
    | some x => exact ih x

/-- The element in a slot, null when there is none. -/
def child (v : Value) (s : Slot) : Value := (v.element? s).getD null

/-- Below its element a slot is what the element is; a null has nothing below it. -/
theorem at?_child {addr : List Slot} (h : addr ≠ []) :
    (v.child s).at? addr = v.at? (s :: addr) := by
  rw [at?_cons, child]
  cases v.element? s with
  | some x => rfl
  | none =>
    obtain ⟨t, addr, rfl⟩ := List.exists_cons_of_ne_nil h
    rfl

theorem getD_at?_child (v : Value) (s : Slot) (addr : List Slot) :
    ((v.child s).at? addr).getD null = (v.at? (s :: addr)).getD null := by
  rw [at?_cons, child]
  cases v.element? s with
  | some x => rfl
  | none => cases addr <;> rfl

/-- The positions in all lists of a value are words, and no key of a map in it reads as the largest
word. -/
structure WithinWords (v : Value) : Prop where
  /-- A list has a word for each of its positions. -/
  length_le : ∀ addr items, v.at? addr = some (list items) →
    (items.length : Int) ≤ Int64.maxValue.toInt
  /-- One can be added to the integer keys of a map. -/
  key_ne : ∀ addr es, v.at? addr = some (map es) →
    ∀ k ∈ Assoc.keys es, Number.readInteger? k.toList ≠ some Int64.maxValue

/-- Only lists and maps can exceed the words. -/
theorem withinWords_of_not_isArray (h : v.isArray = false) : v.WithinWords := by
  have hat : ∀ addr x, v.at? addr = some x → x = v := by
    intro addr x hx
    cases addr with
    | nil => exact (Option.some.inj hx).symm
    | cons s addr =>
      cases v <;> cases h <;> cases hx
  constructor
  · intro addr items hi
    rw [← hat addr _ hi] at h
    cases h
  · intro addr es he
    rw [← hat addr _ he] at h
    cases h

theorem withinWords_null : WithinWords null := withinWords_of_not_isArray rfl

theorem withinWords_list {items : List Value} (hlen : (items.length : Int) ≤ Int64.maxValue.toInt)
    (h : ∀ x ∈ items, x.WithinWords) : (list items).WithinWords := by
  have hat : ∀ {addr y}, (list items).at? addr = some y → (addr = [] ∧ y = list items) ∨
      ∃ x ∈ items, ∃ rest, x.at? rest = some y := by
    intro addr y hy
    match addr with
    | [] => exact .inl ⟨rfl, (Option.some.inj hy).symm⟩
    | .entry _ :: _ => cases hy
    | .item n :: rest =>
      obtain ⟨x, hx, hy⟩ := Option.bind_eq_some_iff.mp hy
      exact .inr ⟨x, List.mem_of_getElem? hx, rest, hy⟩
  constructor
  · intro addr items' hi
    rcases hat hi with ⟨rfl, heq⟩ | ⟨x, hx, rest, hx'⟩
    · cases heq
      exact hlen
    · exact (h x hx).length_le rest items' hx'
  · intro addr es he
    rcases hat he with ⟨rfl, heq⟩ | ⟨x, hx, rest, hx'⟩
    · cases heq
    · exact (h x hx).key_ne rest es hx'

theorem WithinWords.of_at? {addr : List Slot} (h : v.WithinWords) (hx : v.at? addr = some x) :
    x.WithinWords := by
  have hat : ∀ rest, v.at? (addr ++ rest) = x.at? rest := fun rest => by rw [at?_append, hx]; rfl
  exact ⟨fun rest items hi => h.length_le (addr ++ rest) items ((hat rest).trans hi),
    fun rest es he => h.key_ne (addr ++ rest) es ((hat rest).trans he)⟩

theorem WithinWords.getD_at? (h : v.WithinWords) (addr : List Slot) :
    ((v.at? addr).getD null).WithinWords := by
  cases hx : v.at? addr with
  | none => exact withinWords_null
  | some x => exact h.of_at? hx

theorem WithinWords.child (h : v.WithinWords) (s : Slot) : (v.child s).WithinWords := by
  have hchild : v.child s = (v.at? [s]).getD null := getD_at?_child v s []
  exact hchild ▸ h.getD_at? [s]

theorem WithinWords.opened (h : v.WithinWords) (step : Step) : (v.opened step).WithinWords := by
  by_cases hv : v = null
  · subst hv
    cases step with
    | append =>
      refine ⟨fun addr items hi => ?_, fun addr es he => ?_⟩
      · cases addr with
        | nil =>
          cases hi
          exact show (0 : Int) ≤ Int64.maxValue.toInt by decide
        | cons s addr => cases s <;> cases hi
      · cases addr with
        | nil => cases he
        | cons s addr => cases s <;> cases he
    | key k =>
      refine ⟨fun addr items hi => ?_, fun addr es he => ?_⟩
      · cases addr with
        | nil => cases hi
        | cons s addr => cases s <;> cases hi
      · cases addr with
        | nil =>
          cases he
          exact fun _ hk => absurd hk List.not_mem_nil
        | cons s addr => cases s <;> cases he
  · exact (opened_of_ne_null hv).symm ▸ h

/-! ### The walk -/

theorem write_cons_of_slot? (h : (v.opened step).slot? step = some s) :
    write new (step :: path) v =
      ((v.opened step).put s (write new path (v.child s)).1, (write new path (v.child s)).2) := by
  have hchild : ((v.opened step).element? s).getD null = v.child s := by rw [element?_opened, child]
  rw [write, h]
  dsimp only
  rw [hchild]

theorem write_cons_of_eq_none (h : (v.opened step).slot? step = none) :
    write new (step :: path) v = (v, false) := by
  rw [write, h, opened_of_ne_null (not_null_of_slot?_eq_none h)]

/-- A null takes every step. -/
theorem write_null_reached (new : Value) (path : List Step) : (write new path null).2 = true := by
  induction path with
  | nil => rfl
  | cons step path ih =>
    have hslot : ∃ s, (null.opened step).slot? step = some s := by cases step <;> exact ⟨_, rfl⟩
    obtain ⟨s, hs⟩ := hslot
    rw [write_cons_of_slot? hs]
    exact ih

/-- **A walk that is refused changes nothing.**  A step that is refused has not created anything,
and no step behind one that has created something is refused. -/
theorem write_of_not_reached (h : (write new path v).2 = false) : (write new path v).1 = v := by
  induction path generalizing v with
  | nil => cases h
  | cons step path ih =>
    cases hs : (v.opened step).slot? step with
    | none => rw [write_cons_of_eq_none hs]
    | some s =>
      rw [write_cons_of_slot? hs] at h ⊢
      have hchild := ih h
      cases hx : v.element? s with
      | none =>
        have hreached := write_null_reached new path
        rw [show v.child s = null by rw [child, hx]; rfl] at h
        exact absurd (h.symm.trans hreached) Bool.false_ne_true
      | some x =>
        have hne : v ≠ null := by
          rintro rfl
          cases hx
        show (v.opened step).put s (write new path (v.child s)).1 = v
        rw [hchild, opened_of_ne_null hne]
        refine put_element? ?_
        rw [child, hx]
        rfl

/-- The walk of an assignment from `v` along a path that reaches its end and leaves `w`, with the
slots it goes through. -/
inductive Walk (new : Value) : List Step → List Slot → Value → Value → Prop
  /-- The end of the path. -/
  | done {v : Value} : Walk new [] [] v new
  /-- A step into a slot of the opened container. -/
  | step {step : Step} {path : List Step} {s : Slot} {route : List Slot} {v x : Value}
      (hs : (v.opened step).slot? step = some s) (h : Walk new path route (v.child s) x) :
      Walk new (step :: path) (s :: route) v ((v.opened step).put s x)

theorem walk_of_reached (h : (write new path v).2 = true) :
    ∃ route, Walk new path route v (write new path v).1 := by
  induction path generalizing v with
  | nil => exact ⟨[], .done⟩
  | cons step path ih =>
    cases hs : (v.opened step).slot? step with
    | none =>
      rw [write_cons_of_eq_none hs] at h
      cases h
    | some s =>
      rw [write_cons_of_slot? hs] at h ⊢
      obtain ⟨route, hwalk⟩ := ih h
      exact ⟨s :: route, .step hs hwalk⟩

namespace Walk

variable {route addr : List Slot} {w : Value}

/-- The element at the end of the route is the new one. -/
theorem at?_route (h : Walk new path route v w) : w.at? route = some new := by
  induction h with
  | done => rfl
  | step hs _ ih =>
    rw [at?_cons, (takes_of_slot? hs).element?_put_self]
    exact ih

/-- The elements that are neither on the route nor below its end are the old ones. -/
theorem at?_of_off (h : Walk new path route v w) (hon : ¬ addr <+: route)
    (hbelow : ¬ route <+: addr) :
    w.at? addr = v.at? addr := by
  induction h generalizing addr with
  | done => exact absurd List.nil_prefix hbelow
  | @step step path s route v x hs _ ih =>
    cases addr with
    | nil => exact absurd List.nil_prefix hon
    | cons t addr =>
      have htakes := takes_of_slot? hs
      by_cases hts : t = s
      · subst hts
        rw [List.prefix_cons_inj] at hon hbelow
        have hne : addr ≠ [] := by
          rintro rfl
          exact hon List.nil_prefix
        rw [← at?_child (v := v) hne, at?_cons, htakes.element?_put_self]
        exact ih hon hbelow
      · rw [at?_cons, at?_cons, htakes.element?_put_of_ne hts, element?_opened]

/-- What a walk has done at one of its steps: the container before it is opened there, and the slot
of the step holds an element. -/
theorem at?_step {pre post : List Step} (h : Walk new (pre ++ step :: post) route v w) :
    ∃ r₁ s r₂ x, route = r₁ ++ s :: r₂ ∧ r₁.length = pre.length ∧
      (((v.at? r₁).getD null).opened step).slot? step = some s ∧
      w.at? r₁ = some ((((v.at? r₁).getD null).opened step).put s x) := by
  induction pre generalizing route v w with
  | nil =>
    cases h with
    | step hs h => exact ⟨[], _, _, _, rfl, rfl, hs, rfl⟩
  | cons p pre ih =>
    cases h with
    | @step _ _ s route v x hs h =>
      obtain ⟨r₁, t, r₂, y, rfl, hlen, ht, hat⟩ := ih h
      rw [getD_at?_child] at ht hat
      refine ⟨s :: r₁, t, r₂, y, rfl, congrArg (· + 1) hlen, ht, ?_⟩
      rw [at?_cons, (takes_of_slot? hs).element?_put_self]
      exact hat

end Walk

/-- The container `w` is `v` with one element added: at the end of a list, or under a key that a map
does not have; a null becomes a list. -/
inductive Appended (x : Value) : Value → Value → Prop
  | null : Appended x null (list [x])
  | list {items : List Value} : Appended x (list items) (list (items ++ [x]))
  | map {es : List (String × Value)} {k : String} (h : k ∉ Assoc.keys es) :
      Appended x (map es) (map (es ++ [(k, x)]))

theorem appended_put (hw : v.WithinWords) (hs : (v.opened .append).slot? .append = some s) :
    Appended x v ((v.opened .append).put s x) := by
  cases v with
  | null =>
    cases hs
    exact .null
  | list items =>
    cases hs
    have hput : (list items).put (.item items.length) x = list (items ++ [x]) := by
      rw [put, List.take_length, List.drop_eq_nil_of_le (Nat.le_succ _)]
    exact hput ▸ .list
  | map es =>
    cases hs
    have hnew := nextKey_not_mem (hw.key_ne [] es rfl)
    have hput : (map es).put (.entry (nextKey es)) x = map (es ++ [(nextKey es, x)]) :=
      congrArg map (Assoc.insert_of_notMem hnew x)
    exact hput ▸ .map hnew
  | _ => cases hs

namespace Walk

variable {route : List Slot} {w : Value}

/-- **An append step adds one element**, at the end of a list or under a new key of a map. -/
theorem appended {pre post : List Step} (h : Walk new (pre ++ .append :: post) route v w)
    (hw : v.WithinWords) :
    ∃ r₁ s r₂ x w₁, route = r₁ ++ s :: r₂ ∧ r₁.length = pre.length ∧ w.at? r₁ = some w₁ ∧
      w₁.element? s = some x ∧ Appended x ((v.at? r₁).getD null) w₁ := by
  obtain ⟨r₁, s, r₂, x, hroute, hlen, hs, hat⟩ := h.at?_step
  exact ⟨r₁, s, r₂, x, _, hroute, hlen, hat, (takes_of_slot? hs).element?_put_self,
    appended_put (hw.getD_at? r₁) hs⟩

/-- The maps that are not replaced are still there and keep the order of their keys. -/
theorem keys_prefix {addr : List Slot} {es : List (String × Value)}
    (h : Walk new path route v w) (hat : v.at? addr = some (map es)) (hr : ¬ route <+: addr) :
    ∃ es', w.at? addr = some (map es') ∧ Assoc.keys es <+: Assoc.keys es' := by
  induction h generalizing addr with
  | done => exact absurd List.nil_prefix hr
  | @step step path s route v x hs _ ih =>
    have htakes := takes_of_slot? hs
    cases addr with
    | nil =>
      cases hat
      cases step <;> cases hs
      · exact ⟨_, rfl, Assoc.keys_prefix_insert _ _ _⟩
      · exact ⟨_, rfl, Assoc.keys_prefix_insert _ _ _⟩
    | cons t addr =>
      by_cases hts : t = s
      · subst hts
        rw [List.prefix_cons_inj] at hr
        rw [at?_cons, htakes.element?_put_self]
        refine ih ?_ hr
        rw [at?_cons] at hat
        obtain ⟨y, hy, hat⟩ := Option.bind_eq_some_iff.mp hat
        rw [child, hy]
        exact hat
      · rw [at?_cons, htakes.element?_put_of_ne hts, element?_opened, ← at?_cons]
        exact ⟨es, hat, List.prefix_rfl⟩

end Walk

end Value

end Stencil
