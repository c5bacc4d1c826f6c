import Stencil.Proofs.Assignment.Literals
import Stencil.Script.Builtin

/-!
# Arrays merged

Merging numbers the elements without a name anew: the items of lists, and the entries of maps under
the decimals of words.  The numbers are decimals of words themselves, and no name is one.  So the
numbered elements meet neither each other nor a named one, and none of them is lost.

## Main definitions

* `IsDecimal` — the keys of a map that count as integers.
* `Value.elements` — the elements of an array, some with a name.
* `Value.unnamed`, `Value.named` — the elements of the two kinds.
* `Value.numberedFrom` — elements under the keys they get in the merged array.
* `Value.positioned` — values under numbers.

## Main results

* `Value.mergeArrays_lists` — lists are put together.
* `Value.mergeArrays_elements` — other arrays make the map of their elements.
* `Value.arrayMerge_keeps_elements` — **merging loses no element without a name.**
-/

namespace Stencil

variable {k : String}

/-! ### Decimals of words -/

/-- The key is the decimal of a word. -/
def IsDecimal (k : String) : Prop := ∃ i : Int64, wordText i = k

theorem isDecimal_iff : IsDecimal k ↔ (Number.readInteger? k.toList).map wordText = some k := by
  constructor
  · rintro ⟨i, rfl⟩
    rw [readInteger?_wordText, Option.map_some]
  · intro h
    obtain ⟨i, -, hi⟩ := Option.map_eq_some_iff.mp h
    exact ⟨i, hi⟩

instance : DecidablePred IsDecimal := fun _ => decidable_of_iff _ isDecimal_iff.symm

theorem isDecimal_toString {n : Nat} (h : (n : Int) ≤ Int64.maxValue.toInt) :
    IsDecimal (toString n) :=
  ⟨Int64.ofNat n, wordText_ofNat h⟩

theorem keyValue_of_not_isDecimal (h : ¬ IsDecimal k) : keyValue k = .string k := by
  unfold keyValue
  split
  next i hi => exact if_neg fun hk => h ⟨i, hk⟩
  next => rfl

namespace Value

/-! ### Elements -/

/-- Elements with and without a name. -/
abbrev Elements := List (Option String × Value)

/-- The elements of an array in order.  Those under the decimals of words have no name, as those of
a list. -/
def elements : Value → Elements
  | list vs => vs.map fun v => (none, v)
  | map es => es.map fun (k, v) => (if IsDecimal k then none else some k, v)
  | _ => []

/-- The values of the elements without a name. -/
def unnamed : Elements → List Value
  | [] => []
  | (none, v) :: rest => v :: unnamed rest
  | (some _, _) :: rest => unnamed rest

/-- The elements with a name. -/
def named : Elements → List (String × Value)
  | [] => []
  | (none, _) :: rest => named rest
  | (some k, v) :: rest => (k, v) :: named rest

/-- Elements under their names, and those without a name under the numbers from `n` on. -/
def numberedFrom : Nat → Elements → List (String × Value)
  | _, [] => []
  | n, (none, v) :: rest => (toString n, v) :: numberedFrom (n + 1) rest
  | n, (some k, v) :: rest => (k, v) :: numberedFrom n rest

/-- Values under the numbers from `n` on. -/
def positioned : Nat → List Value → List (String × Value)
  | _, [] => []
  | n, v :: rest => (toString n, v) :: positioned (n + 1) rest

variable {els : Elements} {n : Nat}

theorem positioned_eq (n : Nat) (vs : List Value) : positioned n vs = keyedItems n (plain vs) := by
  induction vs generalizing n with
  | nil => rfl
  | cons v vs ih => exact congrArg ((toString n, v) :: ·) (ih (n + 1))

theorem nodup_positioned (vs : List Value) : (Assoc.keys (positioned 0 vs)).Nodup := by
  rw [positioned_eq]
  exact nodup_fields_list vs

/-- Of the numbered elements those under decimals are the ones without a name. -/
theorem filter_numberedFrom (hnames : ∀ k v, (some k, v) ∈ els → ¬ IsDecimal k)
    (hmax : (n + (unnamed els).length : Int) ≤ Int64.maxValue.toInt) :
    (numberedFrom n els).filter (fun e => IsDecimal e.1) = positioned n (unnamed els) ∧
      (numberedFrom n els).filter (fun e => ¬ IsDecimal e.1) = named els := by
  induction els generalizing n with
  | nil => exact ⟨rfl, rfl⟩
  | cons e rest ih =>
    have hrest (k v) (h : (some k, v) ∈ rest) : ¬ IsDecimal k :=
      hnames k v (List.mem_cons_of_mem _ h)
    obtain ⟨_ | k, v⟩ := e
    · rw [unnamed, List.length_cons, Int.natCast_add, Int.natCast_one] at hmax
      have hdecimal : IsDecimal (toString n) := isDecimal_toString (by omega)
      obtain ⟨hunnamed, hnamed⟩ := ih (n := n + 1) hrest (by omega)
      constructor
      · simp only [numberedFrom, unnamed, positioned, ← hunnamed]
        exact List.filter_cons_of_pos (by simpa using hdecimal)
      · simp only [numberedFrom, named, ← hnamed]
        exact List.filter_cons_of_neg (by simpa using hdecimal)
    · have hname := hnames k v List.mem_cons_self
      obtain ⟨hunnamed, hnamed⟩ := ih hrest hmax
      constructor
      · simp only [numberedFrom, unnamed, ← hunnamed]
        exact List.filter_cons_of_neg (by simpa using hname)
      · simp only [numberedFrom, named, ← hnamed]
        exact List.filter_cons_of_pos (by simpa using hname)

theorem not_isDecimal_of_mem_elements {v x : Value} (h : (some k, x) ∈ v.elements) :
    ¬ IsDecimal k := by
  cases v with
  | list vs => simp [elements] at h
  | map es =>
    obtain ⟨e, -, he⟩ := List.mem_map.mp h
    obtain ⟨hname, -⟩ := Prod.mk.inj he
    split at hname
    · cases hname
    · cases hname
      assumption
  | _ => cases h

/-! ### Elements as scripts see them -/

/-- An entry as an element: an integer is no name. -/
def element : Value × Value → Option String × Value
  | (int _, v) => (none, v)
  | (key, v) => (some key.toKey, v)

theorem element_keyValue (k : String) (v : Value) :
    element (keyValue k, v) = (if IsDecimal k then none else some k, v) := by
  split
  next h =>
    obtain ⟨i, rfl⟩ := h
    rw [keyValue_wordText]
    rfl
  next h =>
    rw [keyValue_of_not_isDecimal h]
    rfl

theorem map_element_entries (v : Value) : v.entries.map element = v.elements := by
  cases v with
  | list vs =>
    have hvalues := List.zipIdx_map_fst 0 vs
    calc (numbered 0 vs).map element
        = (vs.zipIdx.map Prod.fst).map fun v => (none, v) := by
          rw [numbered_eq_zipIdx, List.map_map, List.map_map]
          rfl
      _ = vs.map fun v => (none, v) := by rw [hvalues]
  | map es =>
    rw [entries, List.map_map]
    exact List.map_congr_left fun e _ => element_keyValue e.1 e.2
  | _ => rfl

theorem mergeEntries_eq (n : Nat) (m : List (String × Value)) (es : List (Value × Value)) :
    mergeEntries n m es =
      (numberedFrom n (es.map element)).foldl (fun m (k, v) => Assoc.insert m k v) m := by
  induction es generalizing n m with
  | nil => rfl
  | cons e rest ih =>
    obtain ⟨key, v⟩ := e
    cases key with
    | int i => exact ih (n + 1) (Assoc.insert m (toString n) v)
    | _ => exact ih n (Assoc.insert m _ v)

/-! ### The merged array -/

/-- **Lists are put together.** -/
theorem mergeArrays_lists (vss : List (List Value)) :
    mergeArrays (vss.map list) = list vss.flatten := by
  have hall : (vss.map list).all isList = true := by simp [isList]
  have hvalues (vs : List Value) : (numbered 0 vs).map Prod.snd = vs := by
    rw [numbered_eq_zipIdx, List.map_map]
    exact List.zipIdx_map_fst 0 vs
  have hitems : ((vss.map list).flatMap entries).map Prod.snd = vss.flatten := by
    rw [List.map_flatMap, List.flatMap_map, List.flatten_eq_flatMap]
    exact congrArg (vss.flatMap ·) (funext hvalues)
  rw [mergeArrays, if_pos hall, hitems]

/-- **Other arrays make the map of their elements**, those without a name being numbered. -/
theorem mergeArrays_elements {args : List Value} (h : ∃ v ∈ args, isList v = false) :
    mergeArrays args = map (Assoc.ofList (numberedFrom 0 (args.flatMap elements))) := by
  have hall : ¬ args.all isList = true := by
    obtain ⟨v, hv, hlist⟩ := h
    intro hall
    rw [List.all_eq_true.mp hall v hv] at hlist
    cases hlist
  have helements : (args.flatMap entries).map element = args.flatMap elements := by
    rw [List.map_flatMap]
    exact congrArg (args.flatMap ·) (funext map_element_entries)
  rw [mergeArrays, if_neg hall, mergeEntries_eq, helements]
  rfl

theorem callBuiltin?_array_merge (args : List Value) :
    callBuiltin? "array_merge" args = some (.ok (mergeArrays args)) := rfl

/-- **Merging loses no element without a name.**  Lists alone are put together.  Other arguments make
the map in which each key stands once, in the place of its first element and with the value of its
last one.  As long as there is a word for each element without a name, as there is for each item of a
list, the entries under decimals are exactly these elements, in order under the numbers from zero on,
and the other entries come from the elements with a name. -/
theorem arrayMerge_keeps_elements (args : List Value) :
    (∀ vss : List (List Value), args = vss.map list →
      callBuiltin? "array_merge" args = some (.ok (list vss.flatten))) ∧
    ((∃ v ∈ args, isList v = false) →
      ∃ m, callBuiltin? "array_merge" args = some (.ok (map m)) ∧
        Assoc.Collects (numberedFrom 0 (args.flatMap elements)) m ∧
        (((unnamed (args.flatMap elements)).length : Int) ≤ Int64.maxValue.toInt →
          m.filter (fun e => IsDecimal e.1) = positioned 0 (unnamed (args.flatMap elements)) ∧
          Assoc.Collects (named (args.flatMap elements)) (m.filter fun e => ¬ IsDecimal e.1))) := by
  constructor
  · rintro vss rfl
    rw [callBuiltin?_array_merge, mergeArrays_lists]
  · intro h
    refine ⟨Assoc.ofList (numberedFrom 0 (args.flatMap elements)), ?_, Assoc.collects_ofList _, ?_⟩
    · rw [callBuiltin?_array_merge, mergeArrays_elements h]
    · intro hmax
      have hmax' : ((0 : Nat) + (unnamed (args.flatMap elements)).length : Int) ≤
          Int64.maxValue.toInt := by simpa using hmax
      have hnames : ∀ k x, (some k, x) ∈ args.flatMap elements → ¬ IsDecimal k := by
        intro k x hx
        obtain ⟨v, -, hv⟩ := List.mem_flatMap.mp hx
        exact not_isDecimal_of_mem_elements hv
      obtain ⟨hunnamed, hnamed⟩ := filter_numberedFrom hnames hmax'
      constructor
      · rw [Assoc.filter_ofList fun k => decide (IsDecimal k), hunnamed]
        exact Assoc.ofList_of_nodup (nodup_positioned _)
      · rw [Assoc.filter_ofList fun k => decide (¬ IsDecimal k), hnamed]
        exact Assoc.collects_ofList _

/-- A list, a map with the key five among other keys, and a map that sets one of these again. -/
def mixedArrays : List Value :=
  [list [int 1, string "a"], map [("x", int 2), ("5", string "b"), ("05", null)], string "s",
    map [("x", int 3), ("-0", bool true)]]

theorem arrayMerge_keeps_mixed :
    callBuiltin? "array_merge" [list [int 1], list [], list [int 2]] =
        some (.ok (list [int 1, int 2])) ∧
      isList (string "s") = false ∧ (unnamed (mixedArrays.flatMap elements)).length = 3 ∧
      ∃ m, callBuiltin? "array_merge" mixedArrays = some (.ok (map m)) ∧
        m.filter (fun e => IsDecimal e.1) =
          [("0", int 1), ("1", string "a"), ("2", string "b")] ∧
        Assoc.Collects [("x", int 2), ("05", null), ("x", int 3), ("-0", bool true)]
          (m.filter fun e => ¬ IsDecimal e.1) := by
  have hmixed : mixedArrays.flatMap elements =
      [(none, int 1), (none, string "a"), (some "x", int 2), (none, string "b"),
        (some "05", null), (some "x", int 3), (some "-0", bool true)] := by
    rfl
  obtain ⟨m, hm, -, hparts⟩ := (arrayMerge_keeps_elements mixedArrays).2
    ⟨string "s", by simp [mixedArrays], rfl⟩
  rw [hmixed] at hparts
  obtain ⟨hunnamed, hnamed⟩ := hparts (by decide)
  refine ⟨(arrayMerge_keeps_elements _).1 [[int 1], [], [int 2]] rfl, rfl, ?_, m, hm, ?_, hnamed⟩
  · rw [hmixed]
    rfl
  · rw [hunnamed]
    rfl

end Value

end Stencil
