import Mathlib.Data.List.Induction
import Stencil.Assoc

/-!
# Maps collected from entries

Entries that are put into an empty map one after another make the map in which each key stands once,
in the place of its first entry and with the value of its last one.  Keys do not meddle with each
other: the part of the map that belongs to some of the keys is made of their entries alone.

## Main definitions

* `Assoc.Last es x a` — the last entry of the key `x` has the value `a`.
* `Assoc.Collects es m` — the map `m` is made of the entries `es`.

## Main results

* `Assoc.collects_ofList` — entries that are put into a map one after another make it.
* `Assoc.filter_ofList` — a part of the keys is collected from their entries.
-/

namespace Stencil.Assoc

variable {κ α : Type} {m es : Assoc κ α} {x y : κ} {a b : α}

/-! ### The last entry of a key -/

/-- The last entry of a key has the value. -/
def Last (es : Assoc κ α) (x : κ) (a : α) : Prop :=
  ∃ before after, es = before ++ (x, a) :: after ∧ x ∉ keys after

theorem last_concat : Last (es ++ [(x, a)]) y b ↔ (y, b) = (x, a) ∨ Last es y b ∧ y ≠ x := by
  constructor
  · rintro ⟨before, after, heq, hnew⟩
    rcases List.eq_nil_or_concat after with rfl | ⟨after, e, rfl⟩
    · have hlast := (List.append_inj' heq rfl).2
      exact .inl (List.singleton_inj.mp hlast).symm
    · rw [List.concat_eq_append] at heq hnew
      rw [← List.cons_append, ← List.append_assoc] at heq
      obtain ⟨hes, hlast⟩ := List.append_inj' heq rfl
      obtain rfl := List.singleton_inj.mp hlast
      simp only [keys, List.map_append, List.map_singleton, List.mem_append, List.mem_singleton,
        not_or] at hnew
      exact .inr ⟨⟨before, after, hes, hnew.1⟩, hnew.2⟩
  · rintro (heq | ⟨⟨before, after, rfl, hnew⟩, hne⟩)
    · cases heq
      exact ⟨es, [], rfl, List.not_mem_nil⟩
    · refine ⟨before, after ++ [(x, a)], by simp, ?_⟩
      simpa [keys, hne] using hnew

/-! ### One more entry -/

variable [DecidableEq κ]

theorem ofList_concat (es : Assoc κ α) (x : κ) (a : α) :
    ofList (es ++ [(x, a)]) = insert (ofList es) x a :=
  List.foldl_append

theorem keys_insert_of_mem (h : x ∈ keys m) (a : α) :
    keys (insert m x a) = keys m := by
  induction m with
  | nil => cases h
  | cons e rest ih =>
    obtain ⟨k, v⟩ := e
    by_cases hk : k = x
    · simp [insert, keys, hk]
    · have hrest : x ∈ keys rest := by simpa [keys, Ne.symm hk] using h
      have hkeys := ih hrest
      simp only [keys] at hkeys
      simp [insert, keys, hk, hkeys]

theorem mem_keys_insert_iff {a : α} : y ∈ keys (insert m x a) ↔ y = x ∨ y ∈ keys m := by
  refine ⟨mem_keys_insert, ?_⟩
  rintro (rfl | hy)
  · exact List.mem_map.mpr ⟨(y, a), mem_of_get? (get?_insert_self m y a), rfl⟩
  · exact (keys_prefix_insert m x a).subset hy

theorem mem_keys_ofList : y ∈ keys (ofList es) ↔ y ∈ keys es := by
  induction es using List.reverseRecOn with
  | nil => rfl
  | append_singleton es e ih =>
    obtain ⟨x, a⟩ := e
    rw [ofList_concat, mem_keys_insert_iff, ih]
    simp [keys, or_comm]

theorem nodup_keys_ofList (es : Assoc κ α) : (keys (ofList es)).Nodup := by
  induction es using List.reverseRecOn with
  | nil => exact List.nodup_nil
  | append_singleton es e ih =>
    rw [ofList_concat]
    exact nodup_keys_insert ih _ _

/-- A key that the first entries do not have is set in the others. -/
theorem insert_append_of_notMem (h : x ∉ keys m) (es : Assoc κ α) (a : α) :
    insert (m ++ es) x a = m ++ insert es x a := by
  induction m with
  | nil => rfl
  | cons e rest ih =>
    obtain ⟨k, v⟩ := e
    simp only [keys, List.map_cons, List.mem_cons, not_or] at h
    rw [List.cons_append, insert, if_neg (Ne.symm h.1), ih h.2, List.cons_append]

/-- Of two assignments to a key the later one counts. -/
theorem insert_insert (m : Assoc κ α) (x : κ) (a b : α) :
    insert (insert m x a) x b = insert m x b := by
  induction m with
  | nil => simp [insert]
  | cons e rest ih =>
    obtain ⟨k, v⟩ := e
    by_cases hk : k = x <;> simp [insert, hk, ih]

/-- Inserting replaces the entry of the key and leaves the others. -/
theorem mem_insert_iff {e : κ × α} (h : (keys m).Nodup) :
    e ∈ insert m x a ↔ e = (x, a) ∨ e ∈ m ∧ e.1 ≠ x := by
  induction m with
  | nil => simp [insert]
  | cons e' rest ih =>
    obtain ⟨k, v⟩ := e'
    simp only [keys, List.map_cons, List.nodup_cons] at h
    by_cases hk : k = x
    · subst hk
      have hrest : e ∈ rest → e.1 ≠ k := fun he hek => h.1 (List.mem_map.mpr ⟨e, he, hek⟩)
      rw [insert, if_pos rfl, List.mem_cons, List.mem_cons]
      constructor
      · rintro (he | he)
        · exact .inl he
        · exact .inr ⟨.inr he, hrest he⟩
      · rintro (he | ⟨rfl | he, hne⟩)
        · exact .inl he
        · exact absurd rfl hne
        · exact .inr he
    · rw [insert, if_neg hk, List.mem_cons, ih h.2, List.mem_cons]
      constructor
      · rintro (rfl | he | ⟨he, hne⟩)
        · exact .inr ⟨.inl rfl, hk⟩
        · exact .inl he
        · exact .inr ⟨.inr he, hne⟩
      · rintro (he | ⟨rfl | he, hne⟩)
        · exact .inr (.inl he)
        · exact .inl rfl
        · exact .inr (.inr ⟨he, hne⟩)

/-! ### All the entries -/

/-- The map is made of the entries: each key once, in the place of its first entry and with the
value of its last one. -/
structure Collects (es m : Assoc κ α) : Prop where
  keys_eq : keys m = (keys es).eraseDups
  mem_iff : ∀ {x a}, (x, a) ∈ m ↔ Last es x a

theorem mem_ofList_iff : (x, a) ∈ ofList es ↔ Last es x a := by
  induction es using List.reverseRecOn with
  | nil => exact ⟨fun h => absurd h List.not_mem_nil, fun ⟨_, _, heq, _⟩ => by simp at heq⟩
  | append_singleton es e ih =>
    rw [ofList_concat, mem_insert_iff (nodup_keys_ofList es), ih, last_concat]

theorem keys_ofList (es : Assoc κ α) : keys (ofList es) = (keys es).eraseDups := by
  induction es using List.reverseRecOn with
  | nil => rfl
  | append_singleton es e ih =>
    obtain ⟨x, a⟩ := e
    have hkeys : keys (es ++ [(x, a)]) = keys es ++ [x] := List.map_append
    rw [ofList_concat, hkeys, List.eraseDups_append, ← ih]
    by_cases hx : x ∈ keys es
    · have hold : [x].removeAll (keys es) = [] := by simp [List.removeAll, hx]
      rw [hold, keys_insert_of_mem (mem_keys_ofList.mpr hx)]
      exact (List.append_nil _).symm
    · have hnew : [x].removeAll (keys es) = [x] := by simp [List.removeAll, hx]
      rw [hnew, insert_of_notMem (mt mem_keys_ofList.mp hx), keys, List.map_append]
      rfl

/-- **A map is made of the entries put into it.** -/
theorem collects_ofList (es : Assoc κ α) : Collects es (ofList es) :=
  ⟨keys_ofList es, mem_ofList_iff⟩

/-! ### A part of the keys -/

theorem filter_insert (p : κ → Bool) (m : Assoc κ α) (x : κ) (a : α) :
    (insert m x a).filter (fun e => p e.1) =
      if p x then insert (m.filter fun e => p e.1) x a else m.filter fun e => p e.1 := by
  induction m with
  | nil => by_cases hx : p x <;> simp [insert, hx]
  | cons e rest ih =>
    obtain ⟨k, v⟩ := e
    by_cases hk : k = x
    · subst hk
      by_cases hp : p k <;> simp [insert, hp]
    · rw [insert, if_neg hk, List.filter_cons, ih, List.filter_cons]
      by_cases hp : p k <;> by_cases hx : p x <;> simp [insert, hp, hx, hk]

/-- Keys are collected apart from each other. -/
theorem filter_ofList (p : κ → Bool) (es : Assoc κ α) :
    (ofList es).filter (fun e => p e.1) = ofList (es.filter fun e => p e.1) := by
  induction es using List.reverseRecOn with
  | nil => rfl
  | append_singleton es e ih =>
    obtain ⟨x, a⟩ := e
    rw [ofList_concat, filter_insert, ih, List.filter_append]
    by_cases hx : p x
    · simp [hx, ofList_concat]
    · simp [hx]

end Stencil.Assoc
