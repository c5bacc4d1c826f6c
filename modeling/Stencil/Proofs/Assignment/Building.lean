import Mathlib.Data.List.Forall2
import Stencil.Proofs.Assignment.Literals
import Stencil.Proofs.Assignment.Targets

/-!
# Arrays built item by item

An array literal and the assignments of its items to an array, one after the other, give the same
entries.  The empty list stays a list, though, and takes no other keys than its positions and the
one behind its end; a variable that was never set becomes a map when its first item has a key.

## Main definitions

* `Value.EachBehind` — what holds of every item and the items in front of it.
* `Value.Regular`, `Value.Positioned` — items whose count is that of their keys, and items with
  positions for keys.
* `Value.build` — what items make of an array, one after the other.
* `Item.stored`, `Expr.cleared` — the assignments.

## Main results

* `Value.build_list`, `Value.build_list_refused` — items put into an empty list.
* `Value.build_null` — items put into a variable that was never set.
* `exec_building` — programs that build an array, beside the literal.
-/

namespace Stencil

variable {σ : Type} {host : Host σ} {st : State σ}

namespace Value

variable {items rest : Items} {key x v : Value} {item : Option Value × Value}

/-! ### Items behind other ones -/

/-- Every item has the property together with the items in front of it. -/
def EachBehind (P : Items → Option Value × Value → Prop) (items : Items) : Prop :=
  ∀ n item, items[n]? = some item → P (items.take n) item

variable {P : Items → Option Value × Value → Prop}

theorem eachBehind_iff :
    EachBehind P items ↔ ∀ n (h : n < items.length), P (items.take n) items[n] := by
  constructor
  · exact fun h n hn => h n _ (List.getElem?_eq_getElem hn)
  · intro h n item hitem
    obtain ⟨hn, rfl⟩ := List.getElem?_eq_some_iff.mp hitem
    exact h n hn

instance [∀ before item, Decidable (P before item)] : Decidable (EachBehind P items) :=
  decidable_of_iff _ eachBehind_iff.symm

theorem EachBehind.take (h : EachBehind P items) (n : Nat) : EachBehind P (items.take n) := by
  intro m item hitem
  obtain ⟨hm, hget⟩ := List.getElem?_eq_some_iff.mp hitem
  rw [List.length_take] at hm
  rw [List.take_take, Nat.min_eq_left (by omega)]
  exact h m item (by rwa [List.getElem?_take_of_lt (by omega)] at hitem)

theorem eachBehind_concat :
    EachBehind P (items ++ [item]) ↔ EachBehind P items ∧ P items item := by
  constructor
  · intro h
    constructor
    · have := h.take items.length
      rwa [List.take_left] at this
    · have := h items.length item (List.getElem?_concat_length)
      rwa [List.take_left] at this
  · rintro ⟨h, hitem⟩ n item' hget
    rcases Nat.lt_or_ge n items.length with hlt | hge
    · rw [List.getElem?_append_left hlt] at hget
      rw [List.take_append_of_le_length hlt.le]
      exact h n item' hget
    · have hn : n = items.length := by
        obtain ⟨hn, -⟩ := List.getElem?_eq_some_iff.mp hget
        rw [List.length_append, List.length_singleton] at hn
        omega
      subst hn
      rw [List.getElem?_concat_length] at hget
      cases hget
      rwa [List.take_left]

/-- Items for which the two ways to count agree: the count is a word, and each item without a key is
behind settled ones. -/
structure Regular (items : Items) : Prop where
  length_le : (items.length : Int) ≤ Int64.maxValue.toInt
  count_le : nextNumber 0 items ≤ Int64.maxValue.toInt
  settled : EachBehind (fun before item => item.1 = none → Settled before) items

/-- Items whose keys are the texts of positions, up to the one behind the last entry. -/
def Positioned : Items → Prop :=
  EachBehind fun before item => ∀ key ∈ item.1,
    ∃ n ≤ (ofItems before).entries.length, key.toKey = toString (n : Int)

instance (items : Items) : Decidable (Regular items) :=
  decidable_of_iff (_ ∧ _ ∧ EachBehind _ items)
    ⟨fun ⟨hlength, hcount, hsettled⟩ => ⟨hlength, hcount, hsettled⟩,
      fun ⟨hlength, hcount, hsettled⟩ => ⟨hlength, hcount, hsettled⟩⟩

instance (items : Items) : Decidable (Positioned items) :=
  inferInstanceAs (Decidable (EachBehind _ items))

theorem Regular.take (h : Regular items) (n : Nat) : Regular (items.take n) where
  length_le := by
    have hlength : (items.take n).length ≤ items.length := List.length_take_le' n items
    have hmax := h.length_le
    omega
  count_le := Int.le_trans (nextNumber_take_le 0 items n) h.count_le
  settled := h.settled.take n

theorem Regular.of_concat (h : Regular (items ++ [item])) :
    Regular items ∧ (item.1 = none → Settled items) := by
  have htake := h.take items.length
  rw [List.take_left] at htake
  exact ⟨htake, (eachBehind_concat.mp h.settled).2⟩

/-! ### Building -/

/-- The step to the element of an item. -/
def itemStep : Option Value → Step
  | none => .append
  | some key => .key key.toKey

/-- What an array becomes when items are put into it one after the other, and whether it takes all
of them. -/
def build : Items → Value → Value × Bool
  | [], v => (v, true)
  | (key, x) :: rest, v =>
    if (write x [itemStep key] v).2 then build rest (write x [itemStep key] v).1
    else ((write x [itemStep key] v).1, false)

theorem build_append (items rest : Items) (v : Value) :
    build (items ++ rest) v =
      if (build items v).2 then build rest (build items v).1 else build items v := by
  induction items generalizing v with
  | nil => rfl
  | cons item items ih =>
    obtain ⟨key, x⟩ := item
    rw [List.cons_append, build, build]
    split
    · exact ih _
    · rfl

/-- A slot of a container is set. -/
theorem write_of_slot? {step : Step} {s : Slot} (h : (v.opened step).slot? step = some s)
    (x : Value) : write x [step] v = ((v.opened step).put s x, true) := by
  rw [write_cons_of_slot? h]
  rfl

/-- A list has slots for the keys that read as its positions, or as the one behind its end. -/
theorem slot?_list (vs : List Value) (k : String) :
    ((list vs).opened (.key k)).slot? (.key k) = (Number.readNatural? k.toList).bind fun n =>
      if n ≤ vs.length then some (.item n) else none := by
  show (list vs).slot? (.key k) = _
  rw [slot?]
  cases Number.readNatural? k.toList <;> rfl

/-- A map takes every item, under the key that it has in the literal. -/
theorem write_map (h : item.1 = none → Settled items)
    (hmax : nextNumber 0 items ≤ Int64.maxValue.toInt) :
    write item.2 [itemStep item.1] (map (Assoc.ofList (keyedItems 0 items))) =
      (map (Assoc.ofList (keyedItems 0 (items ++ [item]))), true) := by
  obtain ⟨_ | key, x⟩ := item
  · have hkey := nextKey_of_settled (h rfl) hmax
    rw [write_of_slot? (s := .entry (nextKey _)) rfl, hkey, keyedItems_concat, Assoc.ofList_concat]
    rfl
  · rw [write_of_slot? (s := .entry key.toKey) rfl, keyedItems_concat, Assoc.ofList_concat]
    rfl

/-- A map to which items are added is the map of the longer literal. -/
theorem build_map (before : Items) (h : Regular (before ++ items)) :
    build items (map (Assoc.ofList (keyedItems 0 before))) =
      (map (Assoc.ofList (keyedItems 0 (before ++ items))), true) := by
  induction items using List.reverseRecOn with
  | nil =>
    rw [List.append_nil]
    rfl
  | append_singleton items item ih =>
    rw [← List.append_assoc] at h ⊢
    obtain ⟨hitems, hsettled⟩ := h.of_concat
    rw [build_append, ih hitems, if_pos rfl, build, write_map hsettled hitems.count_le]
    rfl

/-- **Items put into nothing** give the map of the literal, when the first one has a key. -/
theorem build_null (h : Regular ((some key, x) :: rest)) :
    build ((some key, x) :: rest) null =
      (map (Assoc.ofList (keyedItems 0 ((some key, x) :: rest))), true) := by
  have hfirst : write x [itemStep (some key)] null =
      (map (Assoc.ofList (keyedItems 0 [(some key, x)])), true) := by
    rw [keyedItems_keyed]
    rfl
  rw [build, hfirst, if_pos rfl]
  exact build_map [(some key, x)] h

/-- A list takes an item without a key at its end, and one with the text of a position there. -/
theorem write_list {vs : List Value}
    (hfields : fields (list vs) = Assoc.ofList (keyedItems 0 items))
    (hshort : (vs.length : Int) ≤ Int64.maxValue.toInt)
    (hmax : nextNumber 0 items ≤ Int64.maxValue.toInt)
    (hsettled : item.1 = none → Settled items)
    (hposition : ∀ key ∈ item.1, ∃ n ≤ vs.length, key.toKey = toString (n : Int)) :
    ∃ n ≤ vs.length, write item.2 [itemStep item.1] (list vs) =
        ((list vs).put (.item n) item.2, true) ∧
      fields ((list vs).put (.item n) item.2) =
        Assoc.ofList (keyedItems 0 (items ++ [item])) := by
  obtain ⟨_ | key, x⟩ := item
  · -- the length is the count, since both are the next key
    have hkey := nextKey_of_settled (hsettled rfl) hmax
    rw [← hfields, nextKey_fields_list hshort] at hkey
    refine ⟨vs.length, le_rfl, write_of_slot? rfl x, ?_⟩
    rw [fields_put_item le_rfl, hfields, hkey, keyedItems_concat, Assoc.ofList_concat]
    rfl
  · obtain ⟨n, hn, hkey⟩ := hposition key rfl
    have hmax : Int64.maxValue.toInt = 2 ^ 63 - 1 := rfl
    have hsize : UInt64.size = 2 ^ 64 := rfl
    have hread : Number.readNatural? key.toKey.toList = some n := by
      rw [hkey]
      exact readNatural?_toString (by omega)
    have hslot : ((list vs).opened (.key key.toKey)).slot? (.key key.toKey) = some (.item n) := by
      rw [slot?_list, hread]
      exact if_pos hn
    refine ⟨n, hn, write_of_slot? hslot x, ?_⟩
    rw [fields_put_item hn, hfields, ← hkey, keyedItems_concat, Assoc.ofList_concat]
    rfl

/-- A list with the entries of a literal has as many items as the literal has entries. -/
theorem length_entries_ofItems {vs : List Value} (h : Regular items)
    (hfields : fields (list vs) = Assoc.ofList (keyedItems 0 items)) :
    (ofItems items).entries.length = vs.length := by
  rw [entries_ofItems h.length_le, List.length_map, ← hfields, length_fields_list]

/-- **Items put into an empty list** give the list with the entries of the literal, when their keys
are positions. -/
theorem build_list (h : Regular items) (hpositioned : Positioned items) :
    ∃ vs, build items (list []) = (list vs, true) ∧
      fields (list vs) = Assoc.ofList (keyedItems 0 items) ∧ vs.length ≤ items.length := by
  induction items using List.reverseRecOn with
  | nil => exact ⟨[], rfl, rfl, le_rfl⟩
  | append_singleton items item ih =>
    obtain ⟨hitems, hsettled⟩ := h.of_concat
    obtain ⟨hpositions, hposition⟩ := eachBehind_concat.mp hpositioned
    obtain ⟨vs, hbuild, hfields, hlength⟩ := ih hitems hpositions
    have hitemsLength := hitems.length_le
    have hposition : ∀ key ∈ item.1, ∃ n ≤ vs.length, key.toKey = toString (n : Int) := by
      rwa [length_entries_ofItems hitems hfields] at hposition
    obtain ⟨n, hn, hwrite, hfields'⟩ :=
      write_list hfields (by omega) hitems.count_le hsettled hposition
    refine ⟨_, ?_, hfields', ?_⟩
    · rw [build_append, hbuild, if_pos rfl, build, hwrite]
      rfl
    · simp only [List.length_append, List.length_take, List.length_cons, List.length_drop,
        List.length_nil]
      omega

/-- **Items put into an empty list are refused** from the first key on that is no position. -/
theorem build_list_refused (h : Regular items) {n : Nat} (hitem : items[n]? = some (some key, x))
    (hpositioned : Positioned (items.take n))
    (hkey : ∀ p ≤ (ofItems (items.take n)).entries.length,
      Number.readNatural? key.toKey.toList ≠ some p) :
    ∃ vs, build items (list []) = (list vs, false) ∧
      fields (list vs) = Assoc.ofList (keyedItems 0 (items.take n)) ∧ vs.length ≤ n := by
  obtain ⟨vs, hbuild, hfields, hlength⟩ := build_list (h.take n) hpositioned
  rw [length_entries_ofItems (h.take n) hfields] at hkey
  have hslot : ((list vs).opened (.key key.toKey)).slot? (.key key.toKey) = none := by
    rw [slot?_list, Option.bind_eq_none_iff]
    exact fun p hp => if_neg fun hle => hkey p hle hp
  have hsplit : items = items.take n ++ (some key, x) :: items.drop (n + 1) := by
    obtain ⟨hn, hget⟩ := List.getElem?_eq_some_iff.mp hitem
    rw [← hget, ← List.drop_eq_getElem_cons hn, List.take_append_drop]
  refine ⟨vs, ?_, hfields, hlength.trans (List.length_take_le _ _)⟩
  conv => lhs; rw [hsplit]
  have hwrite : write x [itemStep (some key)] (list vs) = (list vs, false) :=
    write_cons_of_eq_none hslot
  rw [build_append, hbuild, if_pos rfl, build, hwrite]
  rfl

/-- An array with the entries of a literal shows them to scripts as the literal does. -/
theorem entries_eq_ofItems (h : Regular items) (hshort : v.Short)
    (hfields : fields v = Assoc.ofList (keyedItems 0 items)) :
    v.entries = (ofItems items).entries := by
  rw [entries_eq hshort, entries_ofItems h.length_le, hfields]

end Value

/-! ### Programs -/

/-- The expression has the value in every state and leaves the state as it is. -/
def Expr.IsConstant (host : Host σ) (e : Expr) (v : Value) : Prop :=
  ∀ st, e.eval host st = .ok v st

theorem Expr.isConstant_literal (v : Value) : (Expr.literal v).IsConstant host v := by
  intro st
  rw [Expr.eval]
  rfl

/-- The key and the value of an item, when these are constants. -/
inductive Item.Means (host : Host σ) : Item → Option Value × Value → Prop
  | plain {e : Expr} {x : Value} (h : e.IsConstant host x) : Means host (.plain e) (none, x)
  | keyed {keyExpr e : Expr} {key x : Value} (hkey : keyExpr.IsConstant host key)
      (h : e.IsConstant host x) : Means host (.keyed keyExpr e) (some key, x)

/-- The assignment of an empty list to the target. -/
def Expr.cleared (target : Expr) : Stmt := .expr (.assign .set target (.array []))

/-- The assignment of an item to an element of the target. -/
def Item.stored (target : Expr) : Item → Stmt
  | .plain e => .expr (.assign .set (.append target) e)
  | .keyed key e => .expr (.assign .set (.index target key) e)

section Programs

variable {target : Expr} {root : Root} {exprs : List Item} {items : Value.Items}

/-- A variable is the same one in every state. -/
theorem Expr.Denotes.of_nil (h : target.Denotes host st root []) (st' : State σ) :
    target.Denotes host st' root [] := by
  generalize has : ([] : List Access) = as at h
  cases h with
  | «local» h => exact .local h
  | context => exact .context
  | member => simp at has
  | index => simp at has
  | append => simp at has

theorem State.setRoot_setRoot (st : State σ) (v w : Value) (root : Root) :
    (st.setRoot v root).setRoot w root = st.setRoot w root := by
  cases root with
  | context name =>
    show { st with context := (st.context.set name v).set name w } = _
    unfold Context.set
    rw [Assoc.insert_insert]
    rfl
  | «local» name =>
    show { st with locals := Assoc.insert (Assoc.insert st.locals name v) name w } = _
    rw [Assoc.insert_insert]
    rfl

theorem evalItems_of_means (h : List.Forall₂ (Item.Means host) exprs items) (st : State σ) :
    evalItems host exprs st = .ok items st := by
  induction h with
  | nil => rfl
  | cons hitem _ ih =>
    cases hitem with
    | plain h =>
      rw [evalItems, Run.bind_of_ok (h st), Run.bind_of_ok ih]
      rfl
    | keyed hkey h =>
      rw [evalItems, Run.bind_of_ok (hkey st), Run.bind_of_ok (h st), Run.bind_of_ok ih]
      rfl

theorem eval_array_of_means (h : List.Forall₂ (Item.Means host) exprs items) (st : State σ) :
    (Expr.array exprs).eval host st = .ok (Value.ofItems items) st := by
  rw [Expr.eval, Run.bind_of_ok (evalItems_of_means h st)]
  rfl

/-- How a program ends that stores a value, or is refused. -/
def afterStore (st : State σ) (root : Root) (written : Value × Bool) :
    EStateM.Result TemplateError (State σ) Flow :=
  if written.2 then .ok .normal (st.setRoot written.1 root)
  else .error (.runtime .invalidAssignment) (st.setRoot written.1 root)

theorem exec_assign {e value : Expr} {as : List Access} {x : Value}
    (hd : e.Denotes host st root as) (hx : value.eval host st = .ok x st) :
    (Stmt.expr (.assign .set e value)).exec host st =
      afterStore st root (Value.write x (as.map Access.step) (st.root root)) := by
  have heval : (Expr.assign .set e value).eval host st =
      (Run.store ⟨root, as.map Access.step⟩ x >>= fun _ => pure x : Run σ Value) st := by
    rw [Expr.eval, Run.bind_of_ok hx]
    exact Run.bind_of_ok (Expr.place_of_denotes hd)
  have hstore := Run.store_eq ⟨root, as.map Access.step⟩ x st
  rw [Stmt.exec, discard_eq, bind_assoc]
  unfold afterStore
  cases hreached : (Value.write x (as.map Access.step) (st.root root)).2 with
  | true =>
    rw [hreached, if_pos rfl] at hstore
    rw [Run.bind_of_ok (heval.trans (Run.bind_of_ok hstore))]
    rfl
  | false =>
    rw [hreached, if_neg Bool.false_ne_true] at hstore
    exact Run.bind_of_error (heval.trans (Run.bind_of_error hstore))

theorem exec_cleared (hd : target.Denotes host st root []) :
    target.cleared.exec host st = .ok .normal (st.setRoot (.list []) root) :=
  exec_assign hd (eval_array_of_means .nil st)

theorem exec_stored {item : Item} {key : Option Value} {x : Value}
    (hd : target.Denotes host st root []) (h : item.Means host (key, x)) :
    (item.stored target).exec host st =
      afterStore st root (Value.write x [Value.itemStep key] (st.root root)) := by
  cases h with
  | plain h => exact exec_assign hd.append (h st)
  | keyed hkey h => exact exec_assign (hd.index (hkey st)) (h st)

/-- The assignments of items do to a variable what putting the items into its value does. -/
theorem execBlock_stored (hd : target.Denotes host st root [])
    (hmeans : List.Forall₂ (Item.Means host) exprs items) (v : Value) :
    execBlock host (exprs.map (Item.stored target)) (st.setRoot v root) =
      afterStore st root (Value.build items v) := by
  induction hmeans generalizing v with
  | nil => rfl
  | @cons item means exprs items hitem _ ih =>
    obtain ⟨key, x⟩ := means
    have hexec := exec_stored (hd.of_nil (st.setRoot v root)) hitem
    rw [State.root_setRoot_self] at hexec
    rw [List.map_cons, execBlock, Value.build]
    cases hreached : (Value.write x [Value.itemStep key] v).2 with
    | true =>
      rw [afterStore, hreached, if_pos rfl, State.setRoot_setRoot] at hexec
      rw [Run.bind_of_ok hexec, if_pos rfl]
      exact ih _
    | false =>
      rw [afterStore, hreached, if_neg Bool.false_ne_true, State.setRoot_setRoot] at hexec
      exact Run.bind_of_error hexec

theorem execBlock_cleared (hd : target.Denotes host st root [])
    (hmeans : List.Forall₂ (Item.Means host) exprs items) :
    execBlock host (target.cleared :: exprs.map (Item.stored target)) st =
      afterStore st root (Value.build items (.list [])) := by
  rw [execBlock, Run.bind_of_ok (exec_cleared hd)]
  exact execBlock_stored hd hmeans (.list [])

theorem execBlock_unset (hd : target.Denotes host st root []) (hunset : st.root root = .null)
    (hmeans : List.Forall₂ (Item.Means host) exprs items) (hne : items ≠ []) :
    execBlock host (exprs.map (Item.stored target)) st =
      afterStore st root (Value.build items .null) := by
  cases hmeans with
  | nil => exact absurd rfl hne
  | @cons item means exprs items hitem hmeans =>
    obtain ⟨key, x⟩ := means
    have hexec := exec_stored hd hitem
    rw [hunset] at hexec
    have hreached := Value.write_null_reached x [Value.itemStep key]
    rw [afterStore, hreached, if_pos rfl] at hexec
    rw [List.map_cons, execBlock, Run.bind_of_ok hexec, Value.build, if_pos hreached]
    exact execBlock_stored hd hmeans _

/-- The program gives the variable a value with the entries of a literal, and changes nothing
else. -/
def Builds (host : Host σ) (st : State σ) (root : Root) (program : List Stmt)
    (items : Value.Items) : Prop :=
  ∃ w, execBlock host program st = .ok .normal (st.setRoot w root) ∧
    w.entries = (Value.ofItems items).entries

/-- The program gives the variable a value with the entries of a literal, changes nothing else, and
fails. -/
def Refuses (host : Host σ) (st : State σ) (root : Root) (program : List Stmt)
    (items : Value.Items) : Prop :=
  ∃ w, execBlock host program st = .error (.runtime .invalidAssignment) (st.setRoot w root) ∧
    w.entries = (Value.ofItems items).entries

theorem builds_cleared (hd : target.Denotes host st root [])
    (hmeans : List.Forall₂ (Item.Means host) exprs items) (h : Value.Regular items)
    (hpositioned : Value.Positioned items) :
    Builds host st root (target.cleared :: exprs.map (Item.stored target)) items := by
  obtain ⟨vs, hbuild, hfields, hlength⟩ := Value.build_list h hpositioned
  have hmax := h.length_le
  have hshort : (Value.list vs).Short := show (vs.length : Int) ≤ _ by omega
  refine ⟨.list vs, ?_, Value.entries_eq_ofItems h hshort hfields⟩
  rw [execBlock_cleared hd hmeans, hbuild]
  rfl

theorem builds_unset (hd : target.Denotes host st root []) (hunset : st.root root = .null)
    {key x : Value} (hmeans : List.Forall₂ (Item.Means host) exprs ((some key, x) :: items))
    (h : Value.Regular ((some key, x) :: items)) :
    Builds host st root (exprs.map (Item.stored target)) ((some key, x) :: items) := by
  refine ⟨.map _, ?_, Value.entries_eq_ofItems h trivial rfl⟩
  rw [execBlock_unset hd hunset hmeans (List.cons_ne_nil _ _), Value.build_null h]
  rfl

theorem refuses_cleared (hd : target.Denotes host st root [])
    (hmeans : List.Forall₂ (Item.Means host) exprs items) (h : Value.Regular items) {n : Nat}
    {key x : Value} (hitem : items[n]? = some (some key, x))
    (hpositioned : Value.Positioned (items.take n))
    (hkey : ∀ p ≤ (Value.ofItems (items.take n)).entries.length,
      Number.readNatural? key.toKey.toList ≠ some p) :
    Refuses host st root (target.cleared :: exprs.map (Item.stored target)) (items.take n) := by
  obtain ⟨vs, hbuild, hfields, hlength⟩ := Value.build_list_refused h hitem hpositioned hkey
  have hmax := h.length_le
  obtain ⟨hn, -⟩ := List.getElem?_eq_some_iff.mp hitem
  have hshort : (Value.list vs).Short := show (vs.length : Int) ≤ _ by omega
  refine ⟨.list vs, ?_, Value.entries_eq_ofItems (h.take n) hshort hfields⟩
  rw [execBlock_cleared hd hmeans, hbuild]
  rfl

/-- **Array literals agree with arrays that are built item by item.**  The items have constants for
keys and values, and the two ways to count agree on them.  The program that sets a variable to the
empty list and assigns the items to its elements, one after the other, gives it after each
assignment the entries of the literal of the items so far, in their order, as long as the keys are
the texts of positions up to the number of entries; it fails at a key that reads as no such
position.  On a variable that was never set the assignments give the entries of the literal for all
keys, if the first item has one.  An item without a key is always one more entry. -/
theorem exec_building (hd : target.Denotes host st root [])
    (hmeans : List.Forall₂ (Item.Means host) exprs items) (h : Value.Regular items) :
    (Expr.array exprs).eval host st = .ok (Value.ofItems items) st ∧
    (∀ n, Value.Positioned (items.take n) →
      Builds host st root (target.cleared :: (exprs.take n).map (Item.stored target))
        (items.take n)) ∧
    (∀ n key x, items[n]? = some (some key, x) → Value.Positioned (items.take n) →
      (∀ p ≤ (Value.ofItems (items.take n)).entries.length,
        Number.readNatural? key.toKey.toList ≠ some p) →
      Refuses host st root (target.cleared :: exprs.map (Item.stored target)) (items.take n)) ∧
    (st.root root = .null → ∀ key x, items[0]? = some (some key, x) → ∀ n > 0,
      Builds host st root ((exprs.take n).map (Item.stored target)) (items.take n)) ∧
    (∀ n x, items[n]? = some (none, x) → ∃ k,
      (Value.ofItems (items.take (n + 1))).entries =
        (Value.ofItems (items.take n)).entries ++ [(k, x)]) := by
  refine ⟨eval_array_of_means hmeans st, fun n hpositioned => ?_,
    fun n key x hitem hpositioned hkey => ?_, fun hunset key x hfirst n hn => ?_,
    fun n x hitem => ?_⟩
  · exact builds_cleared hd (List.forall₂_take n hmeans) (h.take n) hpositioned
  · exact refuses_cleared hd hmeans h hitem hpositioned hkey
  · have htake := List.forall₂_take n hmeans
    have hregular := h.take n
    obtain ⟨m, rfl⟩ := Nat.exists_eq_succ_of_ne_zero hn.ne'
    cases items with
    | nil => cases hfirst
    | cons item items =>
      cases hfirst
      exact builds_unset hd hunset htake hregular
  · obtain ⟨hn, -⟩ := List.getElem?_eq_some_iff.mp hitem
    have hlength := h.length_le
    have htake : (items.take n).length = n := by
      rw [List.length_take, Nat.min_eq_left hn.le]
    rw [List.take_add_one, hitem]
    exact ⟨_, Value.entries_ofItems_plain (h.settled n _ hitem rfl) (h.take n).count_le
      (by omega) x⟩

end Programs

/-! ### Two items -/

/-- The state of a program before it starts. -/
def untouched : State Unit := { context := {}, locals := [], out := "", host := () }

/-- The items of `[0 => 'x', 'y']`. -/
def pairItems : List Item :=
  [.keyed (.literal (.int 0)) (.literal (.string "x")), .plain (.literal (.string "y"))]

/-- Their keys and values. -/
def pairValues : Value.Items := [(some (.int 0), .string "x"), (none, .string "y")]

/-- The items of `['x' => 1]`. -/
def namedItems : List Item := [.keyed (.literal (.string "x")) (.literal (.int 1))]

/-- Their keys and values. -/
def namedValues : Value.Items := [(some (.string "x"), .int 1)]

/-- The literal `[0 => 'x', 'y']` is built both ways, and `['x' => 1]` is refused by a list. -/
theorem exec_building_pair :
    (Value.Regular pairValues ∧ Value.Positioned pairValues ∧
      Builds bareHost untouched (.local "a")
        ((Expr.var "a").cleared :: pairItems.map (Item.stored (.var "a"))) pairValues ∧
      Builds bareHost untouched (.local "a") (pairItems.map (Item.stored (.var "a"))) pairValues) ∧
    Value.Regular namedValues ∧
      Refuses bareHost untouched (.local "a")
        ((Expr.var "a").cleared :: namedItems.map (Item.stored (.var "a"))) [] := by
  have ha : (Expr.var "a").Denotes bareHost untouched (.local "a") [] := .local (by decide)
  have hpair : List.Forall₂ (Item.Means bareHost) pairItems pairValues :=
    .cons (.keyed (Expr.isConstant_literal _) (Expr.isConstant_literal _))
      (.cons (.plain (Expr.isConstant_literal _)) .nil)
  have hnamed : List.Forall₂ (Item.Means bareHost) namedItems namedValues :=
    .cons (.keyed (Expr.isConstant_literal _) (Expr.isConstant_literal _)) .nil
  have hregular : Value.Regular pairValues := by decide +kernel
  have hregular' : Value.Regular namedValues := by decide +kernel
  have hpositioned : Value.Positioned pairValues := by decide +kernel
  have hrefused : ∀ p ≤ (Value.ofItems (namedValues.take 0)).entries.length,
      Number.readNatural? (Value.string "x").toKey.toList ≠ some p := by
    intro p hp
    obtain rfl : p = 0 := Nat.le_zero.mp hp
    decide
  obtain ⟨-, hlist, -, hunset, -⟩ := exec_building ha hpair hregular
  obtain ⟨-, -, hnamed, -, -⟩ := exec_building ha hnamed hregular'
  exact ⟨⟨hregular, hpositioned, hlist 2 hpositioned, hunset rfl _ _ rfl 2 (by decide)⟩,
    hregular', hnamed 0 _ _ rfl (by decide +kernel) hrefused⟩

/-- The empty list does not take the item of `['x' => 1]`, which is a literal. -/
theorem not_builds_named :
    (Expr.array namedItems).eval bareHost untouched = .ok (.map [("x", .int 1)]) untouched ∧
      execBlock bareHost ((Expr.var "a").cleared :: namedItems.map (Item.stored (.var "a")))
        untouched = .error (.runtime .invalidAssignment)
          { untouched with locals := [("a", .list [])] } ∧
      ¬ Builds bareHost untouched (.local "a")
        ((Expr.var "a").cleared :: namedItems.map (Item.stored (.var "a"))) namedValues := by
  have hfails : execBlock bareHost
      ((Expr.var "a").cleared :: namedItems.map (Item.stored (.var "a"))) untouched =
        .error (.runtime .invalidAssignment) { untouched with locals := [("a", .list [])] } := rfl
  refine ⟨rfl, hfails, ?_⟩
  rintro ⟨w, hruns, -⟩
  rw [hfails] at hruns
  cases hruns

end Stencil
