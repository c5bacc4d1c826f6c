import Stencil.Proofs.Assignment.Building
import Stencil.Proofs.Rounds

/-!
# Arrays copied entry by entry

Keys of a map are texts; a loop hands canonical decimals out as integers, and reading and assigning
turn what they are given into texts again.  Going through an array and indexing it agree because the
way out and the way in undo each other for every key.  So a loop that stores every entry under its
key, in a variable that was never set, copies the array.

## Main definitions

* `Value.ProperArray` — the arrays that scripts can have.
* `Value.keyed`, `Value.copied` — entries under the texts of their keys, and the copy made of them.
* `State.SameBut` — states that agree but for the values of some variables.

## Main results

* `Value.index_of_mem_entries` — the key of an entry reads the value of the entry.
* `Value.keyed_entries` — entries under the texts of their keys are those of the array.
* `foreach_copies` — iterating, indexing and copying agree.
-/

namespace Stencil

variable {σ : Type} {host : Host σ} {st s : State σ}

namespace Value

/-- A list with a word for each of its positions, or a map in which no key occurs twice. -/
inductive ProperArray : Value → Prop
  | list {vs : List Value} (h : (vs.length : Int) ≤ Int64.maxValue.toInt) : ProperArray (list vs)
  | map {es : List (String × Value)} (h : (Assoc.keys es).Nodup) : ProperArray (map es)

variable {a k x : Value} {vs : List Value} {n : Nat} {done : List (Value × Value)}

theorem ProperArray.short (h : a.ProperArray) : a.Short := by
  cases h with
  | list h => exact h
  | map h => trivial

theorem ProperArray.nodup_keys (h : a.ProperArray) : (Assoc.keys a.fields).Nodup := by
  cases h with
  | list h => exact nodup_fields_list _
  | map h => exact h

/-! ### Keys out and in -/

/-- The value of a key is written as the key. -/
theorem toKey_keyValue (k : String) : (keyValue k).toKey = k := by
  unfold keyValue
  split
  · split
    next h => exact h
    next => rfl
  · rfl

/-- Entries under the texts of their keys. -/
def keyed (entries : List (Value × Value)) : List (String × Value) :=
  entries.map fun e => (e.1.toKey, e.2)

theorem keyed_entries (h : a.Short) : keyed a.entries = a.fields := by
  have hkey : ∀ e : String × Value, ((keyValue e.1).toKey, e.2) = e := by
    intro e
    rw [toKey_keyValue]
  rw [keyed, entries_eq h, List.map_map]
  exact List.map_id'' hkey _

theorem getElem?_of_mem_numbered (h : (k, x) ∈ numbered n vs) :
    ∃ i, vs[i]? = some x ∧ k = int (Int64.ofNat (n + i)) := by
  rw [numbered_eq_zipIdx] at h
  obtain ⟨e, he, heq⟩ := List.mem_map.mp h
  cases heq
  obtain ⟨hle, hi⟩ := List.mem_zipIdx_iff_le_and_getElem?_sub.mp he
  exact ⟨e.2 - n, hi, by rw [Nat.add_sub_cancel' hle]⟩

/-- **The key of an entry reads its value.** -/
theorem index_of_mem_entries (ha : a.ProperArray) (h : (k, x) ∈ a.entries) : a.index k = x := by
  cases ha with
  | @list vs hlength =>
    obtain ⟨i, hi, rfl⟩ := getElem?_of_mem_numbered h
    obtain ⟨hlt, -⟩ := List.getElem?_eq_some_iff.mp hi
    have hword : (Int64.ofNat i).toInt = i := by
      have hmax : Int64.maxValue.toInt = 2 ^ 63 - 1 := rfl
      exact Int64.toInt_ofNat_of_lt (by omega)
    show itemAt vs (Int64.ofNat (0 + i)) = x
    rw [Nat.zero_add, itemAt, hword, if_neg (by omega), Int.toNat_natCast, hi]
    rfl
  | @map es hkeys =>
    obtain ⟨e, he, heq⟩ := List.mem_map.mp h
    cases heq
    show (Assoc.get? es (keyValue e.1).toKey).getD null = e.2
    rw [toKey_keyValue, Assoc.get?_of_mem hkeys he]
    rfl

theorem length_entries (h : a.ProperArray) : a.entries.length = a.count := by
  cases h with
  | @list vs =>
    show (numbered 0 vs).length = vs.length
    rw [numbered_eq_zipIdx, List.length_map, List.length_zipIdx]
  | map => exact List.length_map _

/-! ### The copy -/

/-- What a variable that was never set becomes when entries are stored in it. -/
def copied : List (Value × Value) → Value
  | [] => null
  | entries => map (keyed entries)

/-- A new key comes last. -/
theorem write_copied (h : k.toKey ∉ Assoc.keys (keyed done)) :
    write x [.key k.toKey] (copied done) = (copied (done ++ [(k, x)]), true) := by
  cases done with
  | nil => rfl
  | cons e done =>
    have hslot : ((copied (e :: done)).opened (.key k.toKey)).slot? (.key k.toKey) =
        some (.entry k.toKey) := rfl
    rw [write_of_slot? hslot]
    show (map (Assoc.insert (keyed (e :: done)) k.toKey x), true) = _
    rw [Assoc.insert_of_notMem h]
    simp [copied, keyed]

/-- The copy is a map, and of a list it is the map with its positions for keys. -/
theorem entries_copied (h : a.Short) : (copied a.entries).entries = a.entries := by
  have hmap : (map (keyed a.entries)).entries = a.entries := by
    rw [keyed_entries h]
    exact (entries_eq h).symm
  cases hentries : a.entries with
  | nil => rfl
  | cons e entries =>
    rw [hentries] at hmap
    exact hmap

end Value

/-! ### States that agree but for some variables -/

/-- The second state is the first one, but for the values of some variables. -/
structure State.SameBut (roots : List Root) (st st' : State σ) : Prop where
  others : ∀ root ∉ roots, st'.root root = st.root root
  rest : ∃ vars locals, st' = { st with context := { st.context with vars }, locals }

namespace State.SameBut

variable {roots : List Root} {root : Root}

theorem refl (st : State σ) : st.SameBut roots st :=
  ⟨fun _ _ => rfl, st.context.vars, st.locals, rfl⟩

theorem setRoot (h : st.SameBut roots s) (hr : root ∈ roots) (v : Value) :
    st.SameBut roots (s.setRoot v root) where
  others other ho := by
    have hne : other ≠ root := by
      rintro rfl
      exact ho hr
    rw [State.root_setRoot_of_ne _ _ hne, h.others other ho]
  rest := by
    obtain ⟨vars, locals, rfl⟩ := h.rest
    cases root with
    | context name => exact ⟨_, _, rfl⟩
    | «local» name => exact ⟨_, _, rfl⟩

end State.SameBut

/-! ### The loop -/

/-- The statement `target[key] = value;`. -/
def Stmt.storing (target key value : Expr) : Stmt :=
  .expr (.assign .set (.index target key) value)

/-- The loop `foreach (subject as key => value) { target[key] = value; }`. -/
def Stmt.copying (subject key value target : Expr) : Stmt :=
  .foreach subject (some key) value [Stmt.storing target key value]

section Copying

variable {subject key value target : Expr} {rk rv rb : Root} {done entries : List (Value × Value)}
  {a k x : Value}

theorem assignTo_of_denotes (hd : target.Denotes host st rb []) (v : Value) :
    target.assignTo host v st = .ok () (st.setRoot v rb) := by
  have hstore := Run.store_eq ⟨rb, []⟩ v st
  rw [Expr.assignTo, Run.bind_of_ok (Expr.place_of_denotes hd)]
  exact hstore

theorem eval_of_denotes_nil (hd : target.Denotes host st rb []) :
    target.eval host st = .ok (st.root rb) st := Expr.eval_of_denotes hd

/-- One round binds the entry to the variables of the loop and adds it to the copy. -/
theorem exec_storing (hkey : key.Denotes host st rk []) (hvalue : value.Denotes host st rv [])
    (htarget : target.Denotes host st rb []) (hdistinct : [rb, rk, rv].Nodup)
    (hcopy : st.root rb = Value.copied done) (hnew : k.toKey ∉ Assoc.keys (Value.keyed done)) :
    bindEntry host (some key) value k x st = .ok () ((st.setRoot k rk).setRoot x rv) ∧
      execBlock host [Stmt.storing target key value] ((st.setRoot k rk).setRoot x rv) =
        .ok .normal (((st.setRoot k rk).setRoot x rv).setRoot
          (Value.copied (done ++ [(k, x)])) rb) := by
  simp only [List.nodup_cons, List.mem_cons, List.not_mem_nil, or_false, not_or] at hdistinct
  obtain ⟨⟨hbk, hbv⟩, hkv, -⟩ := hdistinct
  constructor
  · rw [bindEntry]
    dsimp only
    rw [Run.bind_of_ok (assignTo_of_denotes hkey k)]
    exact assignTo_of_denotes (hvalue.of_nil _) x
  · generalize hs : (st.setRoot k rk).setRoot x rv = s
    have hk : s.root rk = k := by
      rw [← hs, State.root_setRoot_of_ne _ _ hkv, State.root_setRoot_self]
    have hx : s.root rv = x := by
      rw [← hs, State.root_setRoot_self]
    have hb : s.root rb = Value.copied done := by
      rw [← hs, State.root_setRoot_of_ne _ _ hbv, State.root_setRoot_of_ne _ _ hbk, hcopy]
    have hkeyEval := eval_of_denotes_nil (hkey.of_nil s)
    have hvalueEval := eval_of_denotes_nil (hvalue.of_nil s)
    rw [hk] at hkeyEval
    rw [hx] at hvalueEval
    have hexec : (Stmt.storing target key value).exec host s =
        .ok .normal (s.setRoot (Value.copied (done ++ [(k, x)])) rb) := by
      have h := exec_assign ((htarget.of_nil s).index hkeyEval) hvalueEval
      rw [List.nil_append, List.map_singleton, Access.step, hb, Value.write_copied hnew] at h
      exact h
    exact (execBlock_singleton _).trans hexec

/-- The rounds for entries of different keys copy them behind those that are copied already. -/
theorem rounds_storing (hkey : key.Denotes host st rk []) (hvalue : value.Denotes host st rv [])
    (htarget : target.Denotes host st rb []) (hdistinct : [rb, rk, rv].Nodup)
    (hcopy : s.root rb = Value.copied done)
    (hkeys : (Assoc.keys (Value.keyed (done ++ entries))).Nodup)
    (hsame : st.SameBut [rb, rk, rv] s) :
    ∃ s', Rounds (bindEntry host (some key) value)
        (execBlock host [Stmt.storing target key value]) entries s s' ∧
      s'.root rb = Value.copied (done ++ entries) ∧ st.SameBut [rb, rk, rv] s' := by
  induction entries generalizing done s with
  | nil =>
    rw [List.append_nil]
    exact ⟨s, .nil, hcopy, hsame⟩
  | cons e entries ih =>
    obtain ⟨k, x⟩ := e
    have hnew : k.toKey ∉ Assoc.keys (Value.keyed done) := by
      intro hmem
      rw [Assoc.keys, Value.keyed, List.map_append, List.map_append, List.nodup_append] at hkeys
      exact hkeys.2.2 _ hmem _ List.mem_cons_self rfl
    obtain ⟨hbind, hbody⟩ := exec_storing (hkey.of_nil s) (hvalue.of_nil s) (htarget.of_nil s)
      hdistinct hcopy hnew (x := x)
    have hbound : st.SameBut [rb, rk, rv] ((s.setRoot k rk).setRoot x rv) :=
      (hsame.setRoot (by simp) k).setRoot (by simp) x
    have hsame' : st.SameBut [rb, rk, rv] (((s.setRoot k rk).setRoot x rv).setRoot
        (Value.copied (done ++ [(k, x)])) rb) := hbound.setRoot (by simp) _
    rw [List.append_cons] at hkeys ⊢
    obtain ⟨s', hrounds, hcopied, hs'⟩ := ih (State.root_setRoot_self _ _ _) hkeys hsame'
    exact ⟨s', .cons hbind hbody (.inl rfl) hrounds, hcopied, hs'⟩

/-- **Iterating an array and indexing it agree.**  The key of every entry reads the value of the
entry, no two keys have one text, and they are the keys that `array_keys` lists.  The loop that
stores the entries of the array under their keys, in a variable that was never set, ends normally if
its limit allows a round for each of them; the variable then has the same entries, and nothing but
it and the variables of the loop has changed. -/
theorem foreach_copies (ha : a.ProperArray) :
    (∀ k x, (k, x) ∈ a.entries → a.index k = x) ∧
    (a.entries.map fun e => e.1.toKey).Nodup ∧
    callBuiltin? "array_keys" [a] = some (.ok (.list (a.entries.map Prod.fst))) ∧
    ∀ {σ : Type} {host : Host σ} {st : State σ} {subject key value target : Expr}
      {rk rv rb : Root}, subject.eval host st = .ok a st → key.Denotes host st rk [] →
      value.Denotes host st rv [] → target.Denotes host st rb [] → [rb, rk, rv].Nodup →
      st.root rb = .null → a.count ≤ host.limit →
      ∃ st', (Stmt.copying subject key value target).exec host st = .ok .normal st' ∧
        (st'.root rb).entries = a.entries ∧ st.SameBut [rb, rk, rv] st' := by
  have hnodup : (Assoc.keys (Value.keyed a.entries)).Nodup := by
    rw [Value.keyed_entries ha.short]
    exact ha.nodup_keys
  refine ⟨fun k x => Value.index_of_mem_entries ha, ?_, rfl, ?_⟩
  · rw [Assoc.keys, Value.keyed, List.map_map] at hnodup
    exact hnodup
  · intro σ host st subject key value target rk rv rb hsubject hkey hvalue htarget hdistinct hunset
      hlimit
    have hnone : st.root rb = Value.copied [] := hunset
    obtain ⟨st', hrounds, hcopied, hsame⟩ :=
      rounds_storing hkey hvalue htarget hdistinct hnone hnodup (.refl st)
    refine ⟨st', ?_, ?_, hsame⟩
    · rw [Stmt.copying, exec_foreach hsubject]
      exact eachRound_of_rounds hrounds ((Value.length_entries ha).trans_le hlimit)
    · rw [hcopied]
      exact Value.entries_copied ha.short

/-- A map with a name, a decimal that is not canonical and a negative one for keys. -/
theorem foreach_copies_map :
    let a := Value.map [("x", .int 1), ("01", .bool true), ("-7", .null)]
    let host : Host Unit := { bareHost with limit := 3 }
    let st : State Unit := { untouched with locals := [("a", a)] }
    a.ProperArray ∧
      a.entries = [(.string "x", .int 1), (.string "01", .bool true), (.int (-7), .null)] ∧
      a.index (.string "01") = .bool true ∧
      ∃ st', (Stmt.copying (.var "a") (.var "k") (.var "v") (.var "b")).exec host st =
          .ok .normal st' ∧
        (st'.root (.local "b")).entries = a.entries := by
  intro a host st
  have ha : a.ProperArray := .map (by decide)
  have hentries : a.entries =
      [(.string "x", .int 1), (.string "01", .bool true), (.int (-7), .null)] := rfl
  have hvar : ∀ name, name ≠ contextName →
      (Expr.var name).Denotes host st (.local name) [] := fun _ h => .local h
  obtain ⟨hindex, -, -, hloop⟩ := foreach_copies ha
  have hsubject : (Expr.var "a").eval host st = .ok a st := rfl
  obtain ⟨st', hexec, hcopied, -⟩ := hloop hsubject (hvar "k" (by decide)) (hvar "v" (by decide))
    (hvar "b" (by decide)) (by decide) rfl (by decide)
  refine ⟨ha, hentries, hindex _ _ ?_, st', hexec, hcopied⟩
  rw [hentries]
  simp

end Copying

end Stencil
