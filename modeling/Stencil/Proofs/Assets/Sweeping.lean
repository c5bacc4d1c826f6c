import Mathlib.Data.List.Infix
import Mathlib.Data.Nat.Find
import Mathlib.Logic.Function.Iterate
import Stencil.Proofs.Following

/-!
# Sweeping double points out of a path

The source of an asset loses its double points in sweeps: one sweep goes from left to right and
takes out every directory together with a double point behind it.  When more than two double points
follow each other, the first one goes with the directory in front of it and the second one is taken
for a directory itself.  Peeling is the sweep that knows better: only a name goes with a double
point.

Every double point takes one name away, so the number of names less the number of double points
tells how long the resolved path is.  Peeling keeps that number, and a sweep makes it larger as soon
as it mistakes a double point, after which nothing makes it smaller again.

## Main definitions

* `sweep`, `peel` — a sweep, and one that takes no double point for a directory.
* `surplus` — the number of names less the number of double points.
* `StaysUnder` — a path that never climbs above its start.

## Main results

* `sweep_eq_peel`, `surplus_lt_sweep` — a sweep is a peeling, or it makes the surplus larger.
* `sweeps_eq_leadFrom_iff` — repeated sweeps resolve a path exactly when no peeling of it has three
  double points in a row.
-/

namespace Stencil

/-- The segment that leads one directory up. -/
abbrev doublePoint : Segment := ['.', '.']

/-- One sweep: every directory that a double point follows goes together with it. -/
def sweep : List Segment → List Segment
  | [] => []
  | [s] => [s]
  | s :: t :: rest => if t = doublePoint then sweep rest else s :: sweep (t :: rest)

/-- One peeling: every name that a double point follows goes together with it. -/
def peel : List Segment → List Segment
  | [] => []
  | [s] => [s]
  | s :: t :: rest =>
    if s ≠ doublePoint ∧ t = doublePoint then peel rest else s :: peel (t :: rest)

/-- The number of other segments less the number of double points. -/
def surplus : List Segment → Int
  | [] => 0
  | s :: rest => (if s = doublePoint then -1 else 1) + surplus rest

/-- A path that never climbs above its start. -/
def StaysUnder (segs : List Segment) : Prop := ∀ p, p <+: segs → 0 ≤ surplus p

instance (segs : List Segment) : Decidable (StaysUnder segs) :=
  decidable_of_iff (∀ p ∈ segs.inits, 0 ≤ surplus p) <| by
    simp only [StaysUnder, List.mem_inits]

/-- Double points that a sweep is mistaken about: two at the start, or three in a row. -/
def Crowded (segs : List Segment) : Prop :=
  [doublePoint, doublePoint] <+: segs ∨ [doublePoint, doublePoint, doublePoint] <:+: segs

variable {s t : Segment} {segs rest names : List Segment} {n k : Nat}

/-! ### One sweep -/

theorem sweep_sublist (segs : List Segment) : (sweep segs).Sublist segs := by
  induction segs using sweep.induct with
  | case1 => exact List.Sublist.refl _
  | case2 s => exact List.Sublist.refl _
  | case3 s rest ih =>
    rw [sweep, if_pos rfl]
    exact (ih.cons doublePoint).cons s
  | case4 s t rest ht ih =>
    rw [sweep, if_neg ht]
    exact ih.cons_cons s

theorem length_sweep_lt (h : sweep segs ≠ segs) : (sweep segs).length < segs.length :=
  Nat.lt_of_le_of_ne (sweep_sublist segs).length_le fun heq =>
    h ((sweep_sublist segs).eq_of_length heq)

/-- A sweep takes out no name without a double point. -/
theorem surplus_le_sweep (segs : List Segment) : surplus segs ≤ surplus (sweep segs) := by
  induction segs using sweep.induct with
  | case1 => exact Int.le_refl _
  | case2 s => exact Int.le_refl _
  | case3 s rest ih =>
    rw [sweep, if_pos rfl, surplus, surplus, if_pos rfl]
    split <;> omega
  | case4 s t rest ht ih =>
    rw [sweep, if_neg ht, surplus, surplus.eq_def (s :: _)]
    dsimp only
    omega

/-- Behind a name and its double point, two double points are left of three. -/
theorem crowded_parent_iff (hs : s ≠ doublePoint) :
    Crowded (s :: doublePoint :: rest) ↔ Crowded rest := by
  simp only [Crowded, List.infix_cons_iff, List.cons_prefix_cons, hs.symm, false_and, false_or,
    true_and]

theorem crowded_cons_iff (ht : t ≠ doublePoint) :
    Crowded (s :: t :: rest) ↔ Crowded (t :: rest) := by
  simp only [Crowded, List.infix_cons_iff, List.cons_prefix_cons, ht.symm, false_and, and_false,
    false_or]

/-- **A sweep that is mistaken about a double point makes the surplus larger.** -/
theorem surplus_lt_sweep (h : Crowded segs) : surplus segs < surplus (sweep segs) := by
  induction segs using sweep.induct with
  | case1 => simp [Crowded] at h
  | case2 s => simp [Crowded, List.infix_cons_iff] at h
  | case3 s rest ih =>
    have hle := surplus_le_sweep rest
    rw [sweep, if_pos rfl, surplus, surplus, if_pos rfl]
    by_cases hs : s = doublePoint
    · rw [if_pos hs]
      omega
    · have := ih ((crowded_parent_iff hs).mp h)
      rw [if_neg hs]
      omega
  | case4 s t rest ht ih =>
    have := ih ((crowded_cons_iff ht).mp h)
    rw [sweep, if_neg ht, surplus, surplus.eq_def (s :: _)]
    dsimp only
    omega

/-- **A sweep that is not mistaken is a peeling.** -/
theorem sweep_eq_peel (h : ¬ Crowded segs) : sweep segs = peel segs := by
  induction segs using sweep.induct with
  | case1 => rfl
  | case2 s => rfl
  | case3 s rest ih =>
    have hs : s ≠ doublePoint := by
      rintro rfl
      exact h (Or.inl (List.prefix_append [doublePoint, doublePoint] rest))
    rw [sweep, if_pos rfl, peel, if_pos ⟨hs, rfl⟩, ih ((crowded_parent_iff hs).not.mp h)]
  | case4 s t rest ht ih =>
    rw [sweep, if_neg ht, peel, if_neg fun hp => ht hp.2, ih ((crowded_cons_iff ht).not.mp h)]

/-! ### One peeling -/

/-- Peeling takes a name with every double point. -/
theorem surplus_peel (segs : List Segment) : surplus (peel segs) = surplus segs := by
  induction segs using peel.induct with
  | case1 => rfl
  | case2 s => rfl
  | case3 s t rest hp ih =>
    rw [peel, if_pos hp, ih, surplus, surplus, if_neg hp.1, if_pos hp.2]
    omega
  | case4 s t rest hp ih =>
    rw [peel, if_neg hp, surplus, ih, surplus.eq_def (s :: _)]

theorem le_surplus_of_prefix_peel {b : Int} (h : ∀ p, p <+: segs → b ≤ surplus p) :
    ∀ p, p <+: peel segs → b ≤ surplus p := by
  induction segs using peel.induct generalizing b with
  | case1 => exact h
  | case2 s => exact h
  | case3 s t rest hp ih =>
    rw [peel, if_pos hp]
    refine ih fun p hpre => ?_
    have hb := h (s :: t :: p) (by simpa [List.cons_prefix_cons] using hpre)
    rw [surplus, surplus, if_neg hp.1, if_pos hp.2] at hb
    omega
  | case4 s t rest hp ih =>
    rw [peel, if_neg hp]
    intro p hpre
    cases p with
    | nil => exact h [] (List.nil_prefix)
    | cons u p =>
      obtain ⟨rfl, hrest⟩ := List.cons_prefix_cons.mp hpre
      have hb := ih (b := b - (if u = doublePoint then -1 else 1)) (fun q hq => ?_) p hrest
      · rw [surplus]
        omega
      · have := h (u :: q) (by simpa [List.cons_prefix_cons] using hq)
        rw [surplus] at this
        omega

/-- Peeling never lets a path climb higher. -/
theorem StaysUnder.peel (h : StaysUnder segs) : StaysUnder (peel segs) :=
  le_surplus_of_prefix_peel h

theorem StaysUnder.not_twice (h : StaysUnder segs) : ¬ [doublePoint, doublePoint] <+: segs := by
  intro hp
  exact absurd (h _ hp) (by decide)

theorem peel_sublist (segs : List Segment) : (peel segs).Sublist segs := by
  induction segs using peel.induct with
  | case1 => exact List.Sublist.refl _
  | case2 s => exact List.Sublist.refl _
  | case3 s t rest hp ih =>
    rw [peel, if_pos hp]
    exact (ih.cons t).cons s
  | case4 s t rest hp ih =>
    rw [peel, if_neg hp]
    exact ih.cons_cons s

/-- The segments of a path without points: names and double points. -/
def Pointless (segs : List Segment) : Prop := ∀ s ∈ segs, IsFileName s ∨ s = doublePoint

theorem Pointless.peel (h : Pointless segs) : Pointless (peel segs) :=
  fun s hs => h s ((peel_sublist segs).subset hs)

theorem leadFrom_name (hs : IsFileName s) (names rest : List Segment) :
    leadFrom names (s :: rest) = leadFrom (names ++ [s]) rest := by
  rw [leadFrom, hs.idle, if_neg Bool.false_ne_true, if_neg hs.up]

theorem leadFrom_doublePoint (names rest : List Segment) :
    leadFrom names (doublePoint :: rest) = leadFrom names.dropLast rest := rfl

/-- Peeling leads to the same place. -/
theorem leadFrom_peel (h : Pointless segs) (names : List Segment) :
    leadFrom names (peel segs) = leadFrom names segs := by
  induction segs using peel.induct generalizing names with
  | case1 => rfl
  | case2 s => rfl
  | case3 s t rest hp ih =>
    obtain ⟨hs, rfl⟩ := hp
    have hname : IsFileName s := (h s List.mem_cons_self).resolve_right hs
    have hrest : Pointless rest :=
      fun u hu => h u (List.mem_cons_of_mem _ (List.mem_cons_of_mem _ hu))
    rw [peel, if_pos ⟨hs, rfl⟩, ih hrest, leadFrom_name hname, leadFrom_doublePoint,
      List.dropLast_concat]
  | case4 s t rest hp ih =>
    have hrest : Pointless (t :: rest) := fun u hu => h u (List.mem_cons_of_mem _ hu)
    rw [peel, if_neg hp, leadFrom, leadFrom.eq_def _ (s :: _)]
    simp only [ih hrest]

/-- A path under its start that cannot be peeled has no double points. -/
theorem notMem_of_peel_eq (h : peel segs = segs) (hhead : segs.head? ≠ some doublePoint) :
    doublePoint ∉ segs := by
  induction segs using peel.induct with
  | case1 => exact List.not_mem_nil
  | case2 s => simpa using hhead.symm
  | case3 s t rest hp ih =>
    have := (peel_sublist rest).length_le
    rw [peel, if_pos hp] at h
    rw [h] at this
    simp only [List.length_cons] at this
    omega
  | case4 s t rest hp ih =>
    rw [peel, if_neg hp, List.cons.injEq] at h
    have hs : s ≠ doublePoint := by simpa using hhead
    have ht : t ≠ doublePoint := fun ht => hp ⟨hs, ht⟩
    rw [List.mem_cons, not_or]
    exact ⟨hs.symm, ih h.2 (by simpa using ht)⟩

theorem StaysUnder.head?_ne (h : StaysUnder segs) : segs.head? ≠ some doublePoint := by
  intro hhead
  obtain ⟨rest, rfl⟩ := List.head?_eq_some_iff.mp hhead
  exact absurd (h [doublePoint] (List.prefix_append [doublePoint] rest)) (by decide)

/-- A path that cannot be peeled is resolved. -/
theorem leadFrom_of_peel_eq (h : peel segs = segs) (hsegs : Pointless segs)
    (hunder : StaysUnder segs) : leadFrom [] segs = segs := by
  have hnone := notMem_of_peel_eq h hunder.head?_ne
  refine leadFrom_of_names [] fun s hs => (hsegs s hs).resolve_right ?_
  rintro rfl
  exact hnone hs

theorem isFileName_of_mem_leadFrom (hnames : ∀ s ∈ names, IsFileName s) (hsegs : Pointless segs) :
    ∀ s ∈ leadFrom names segs, IsFileName s := by
  induction segs generalizing names with
  | nil => exact hnames
  | cons s rest ih =>
    have hrest : Pointless rest := fun u hu => hsegs u (List.mem_cons_of_mem _ hu)
    obtain hs | rfl := hsegs s List.mem_cons_self
    · rw [leadFrom_name hs]
      refine ih (fun u hu => ?_) hrest
      obtain hu | hu := List.mem_append.mp hu
      · exact hnames u hu
      · rwa [List.mem_singleton.mp hu]
    · rw [leadFrom_doublePoint]
      exact ih (fun u hu => hnames u (List.mem_of_mem_dropLast hu)) hrest

/-- The surplus of a path is what its resolution is longer than its start. -/
theorem length_leadFrom (hsegs : Pointless segs)
    (h : ∀ p, p <+: segs → 0 ≤ names.length + surplus p) :
    ((leadFrom names segs).length : Int) = names.length + surplus segs := by
  induction segs generalizing names with
  | nil => simp [leadFrom, surplus]
  | cons s rest ih =>
    have hrest : Pointless rest := fun u hu => hsegs u (List.mem_cons_of_mem _ hu)
    have hcons : ∀ p, p <+: rest → 0 ≤ names.length + surplus (s :: p) := fun p hp =>
      h (s :: p) (List.cons_prefix_cons.mpr ⟨rfl, hp⟩)
    obtain hs | rfl := hsegs s List.mem_cons_self
    · simp only [surplus, if_neg hs.up] at hcons ⊢
      rw [leadFrom_name hs, ih hrest fun p hp => ?_]
      · rw [List.length_append, List.length_singleton]
        omega
      · have := hcons p hp
        rw [List.length_append, List.length_singleton]
        omega
    · have hpos := hcons [] List.nil_prefix
      simp only [surplus, if_pos] at hcons hpos ⊢
      rw [leadFrom_doublePoint, ih hrest fun p hp => ?_]
      · rw [List.length_dropLast]
        omega
      · have := hcons p hp
        rw [List.length_dropLast]
        omega

theorem surplus_of_names (h : ∀ s ∈ segs, IsFileName s) : surplus segs = segs.length := by
  induction segs with
  | nil => rfl
  | cons s rest ih =>
    rw [surplus, if_neg (h s List.mem_cons_self).up, ih fun u hu => h u (List.mem_cons_of_mem _ hu),
      List.length_cons]
    omega

/-- Resolving a path keeps its surplus. -/
theorem surplus_leadFrom (hsegs : Pointless segs) (h : StaysUnder segs) :
    surplus (leadFrom [] segs) = surplus segs := by
  rw [surplus_of_names (isFileName_of_mem_leadFrom (by simp) hsegs),
    length_leadFrom hsegs fun p hp => by simpa using h p hp]
  simp

/-! ### Repeated sweeps -/

theorem surplus_le_sweeps (segs : List Segment) (n : Nat) :
    surplus segs ≤ surplus (sweep^[n] segs) := by
  induction n with
  | zero => exact Int.le_refl _
  | succ n ih =>
    rw [Function.iterate_succ_apply']
    exact Int.le_trans ih (surplus_le_sweep _)

theorem surplus_peels (segs : List Segment) (n : Nat) : surplus (peel^[n] segs) = surplus segs := by
  induction n with
  | zero => rfl
  | succ n ih => rw [Function.iterate_succ_apply', surplus_peel, ih]

/-- As long as no sweep is mistaken, sweeping is peeling. -/
theorem sweeps_eq_peels (h : ∀ k < n, ¬ Crowded (peel^[k] segs)) :
    sweep^[n] segs = peel^[n] segs := by
  induction n with
  | zero => rfl
  | succ n ih =>
    rw [Function.iterate_succ_apply', Function.iterate_succ_apply',
      ih fun k hk => h k (Nat.lt_succ_of_lt hk), sweep_eq_peel (h n (Nat.lt_succ_self n))]

theorem sweeps_sublist (segs : List Segment) (n : Nat) : (sweep^[n] segs).Sublist segs := by
  induction n with
  | zero => exact List.Sublist.refl _
  | succ n ih =>
    rw [Function.iterate_succ_apply']
    exact (sweep_sublist _).trans ih

theorem peels_sublist (segs : List Segment) (n : Nat) : (peel^[n] segs).Sublist segs := by
  induction n with
  | zero => exact List.Sublist.refl _
  | succ n ih =>
    rw [Function.iterate_succ_apply']
    exact (peel_sublist _).trans ih

/-- Two double points never come three in a row. -/
theorem not_threefold_of_count_le (h : segs.count doublePoint ≤ 2) (n : Nat) :
    ¬ [doublePoint, doublePoint, doublePoint] <:+: peel^[n] segs := by
  intro hthree
  have hcount := (hthree.sublist.trans (peels_sublist segs n)).count_le doublePoint
  simp at hcount
  omega

theorem Pointless.peels (h : Pointless segs) (n : Nat) : Pointless (Stencil.peel^[n] segs) := by
  induction n with
  | zero => exact h
  | succ n ih =>
    rw [Function.iterate_succ_apply']
    exact ih.peel

theorem StaysUnder.peels (h : StaysUnder segs) (n : Nat) : StaysUnder (Stencil.peel^[n] segs) := by
  induction n with
  | zero => exact h
  | succ n ih =>
    rw [Function.iterate_succ_apply']
    exact ih.peel

theorem leadFrom_peels (h : Pointless segs) (n : Nat) :
    leadFrom [] (peel^[n] segs) = leadFrom [] segs := by
  induction n with
  | zero => rfl
  | succ n ih => rw [Function.iterate_succ_apply', leadFrom_peel (h.peels n), ih]

/-- What the sweeps end with has the largest surplus of all. -/
theorem surplus_sweeps_le (hdone : sweep (sweep^[n] segs) = sweep^[n] segs) (k : Nat) :
    surplus (sweep^[k] segs) ≤ surplus (sweep^[n] segs) := by
  have hlater : sweep^[n] (sweep^[k] segs) = sweep^[n] segs := by
    rw [← Function.iterate_add_apply, Nat.add_comm, Function.iterate_add_apply,
      Function.iterate_fixed hdone]
  rw [← hlater]
  exact surplus_le_sweeps _ n

/-- **Repeated sweeps resolve a path that stays under its start exactly when no peeling of it has
three double points in a row.** -/
theorem sweeps_eq_leadFrom_iff (hsegs : Pointless segs) (hunder : StaysUnder segs)
    (hdone : sweep (sweep^[n] segs) = sweep^[n] segs) :
    sweep^[n] segs = leadFrom [] segs ↔
      ∀ k, ¬ [doublePoint, doublePoint, doublePoint] <:+: peel^[k] segs := by
  constructor
  · intro heq k hk
    -- the first mistake leaves a surplus that no later sweep takes back
    classical
    have hex : ∃ k, Crowded (peel^[k] segs) := ⟨k, Or.inr hk⟩
    have hfirst := sweeps_eq_peels fun j (hj : j < Nat.find hex) => Nat.find_min hex hj
    have hlt := surplus_lt_sweep (Nat.find_spec hex)
    have hle := surplus_sweeps_le hdone (Nat.find hex + 1)
    rw [Function.iterate_succ_apply', hfirst, heq, surplus_leadFrom hsegs hunder] at hle
    rw [surplus_peels] at hlt
    omega
  · intro h
    have hcrowded : ∀ k, ¬ Crowded (peel^[k] segs) := fun k hk =>
      hk.elim (hunder.peels k).not_twice (h k)
    rw [sweeps_eq_peels fun k _ => hcrowded k] at hdone ⊢
    rw [sweep_eq_peel (hcrowded n)] at hdone
    rw [← leadFrom_peels hsegs n, leadFrom_of_peel_eq hdone (hsegs.peels n) (hunder.peels n)]

/-! ### Points -/

/-- The segment that leads nowhere. -/
abbrev point : Segment := ['.']

/-- What is left of a path when each point is taken out with the slash behind it, from left to
right: the slash in front of the next segment is gone then, so a point that follows at once
stays. -/
def thin : List Segment → List Segment
  | [] => []
  | [s] => if s = point then [] else [s]
  | s :: t :: rest => if s = point then t :: thin rest else s :: thin (t :: rest)

theorem thin_sublist (segs : List Segment) : (thin segs).Sublist segs := by
  induction segs using thin.induct with
  | case1 => exact List.Sublist.refl _
  | case2 => exact List.nil_sublist _
  | case3 s hs =>
    rw [thin, if_neg hs]
  | case4 t rest ih =>
    rw [thin, if_pos rfl]
    exact (ih.cons_cons t).cons point
  | case5 s t rest hs ih =>
    rw [thin, if_neg hs]
    exact ih.cons_cons s

theorem filter_thin (segs : List Segment) :
    (thin segs).filter (· ≠ point) = segs.filter (· ≠ point) := by
  induction segs using thin.induct with
  | case1 => rfl
  | case2 => rfl
  | case3 s hs => rw [thin, if_neg hs]
  | case4 t rest ih =>
    rw [thin, if_pos rfl, List.filter_cons, ih]
    simp [List.filter_cons]
  | case5 s t rest hs ih =>
    rw [thin, if_neg hs, List.filter_cons, ih]
    simp [List.filter_cons]

/-- A point is left exactly where two points follow each other. -/
theorem mem_thin_iff : point ∈ thin segs ↔ [point, point] <:+: segs := by
  induction segs using thin.induct with
  | case1 => simp [thin]
  | case2 => simp [thin, List.infix_cons_iff]
  | case3 s hs => simp [thin, hs, Ne.symm hs, List.infix_cons_iff]
  | case4 t rest ih =>
    rw [thin, if_pos rfl, List.mem_cons, ih]
    by_cases ht : point = t <;> simp [List.infix_cons_iff, List.cons_prefix_cons, ht]
  | case5 s t rest hs ih =>
    rw [thin, if_neg hs, List.mem_cons, ih, List.infix_cons_iff (a := s)]
    simp [List.cons_prefix_cons, Ne.symm hs]

theorem thin_eq_filter (h : ¬ [point, point] <:+: segs) : thin segs = segs.filter (· ≠ point) := by
  rw [← filter_thin, List.filter_eq_self.mpr]
  intro s hs
  rw [decide_eq_true_eq]
  rintro rfl
  exact h (mem_thin_iff.mp hs)

/-- Points count like names, so those that are left make the surplus larger. -/
theorem surplus_filter_point (segs : List Segment) :
    surplus segs = surplus (segs.filter (· ≠ point)) + segs.count point := by
  induction segs with
  | nil => rfl
  | cons s rest ih =>
    by_cases hs : s = point
    · subst hs
      rw [surplus, ih]
      simp
      omega
    · rw [surplus, ih, List.count_cons_of_ne hs]
      simp [hs, surplus]
      omega

end Stencil
