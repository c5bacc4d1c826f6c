import Mathlib.Logic.Relation
import Stencil.Proofs.Assets.Sources

/-!
# Collapsing repeated directories

A pass over the directories of a path goes from the first one to the last one.  Where a run of plain
names is followed by itself, the longest such run is taken out once and the pass stays; elsewhere it
keeps the directory and moves on.  All that goes is runs that follow themselves, and a path stays
exactly when it has none.

A pass may leave such a run: when a run is taken out further to the right, a directory that was kept
already can come to stand in front of a run that now follows itself.  One pass is enough exactly
when this does not happen, and a pass for every directory is always enough.

## Main definitions

* `directories`, `lastSegment` — the parts of a path.
* `DropsRun` — a run that follows itself is taken out once.
* `StartsRun` — the first directories are a run that follows itself.
* `PassReaches` — where a pass comes by.
* `RunFree` — no run of directories follows itself.

## Main results

* `reflTransGen_collapseRuns` — only runs that follow themselves are taken out.
* `collapseRuns_eq_self_iff` — what a pass leaves as it is.
* `runFree_collapseRuns_iff` — when one pass is enough.
* `not_repeatsRun_iterate` — enough passes always settle a path.
* `collapseRepeated_settles` — **all of it for paths**.
-/

namespace Stencil

open Text

variable {segs rest t : List Segment} {s : Segment} {p : Path} {n : Nat}

/-! ### Taking out runs -/

/-- A run of plain directories that follows itself is taken out once. -/
def DropsRun (segs rest : List Segment) : Prop :=
  ∃ before run after, run ≠ [] ∧ run.all isPlainName = true ∧
    segs = before ++ (run ++ (run ++ after)) ∧ rest = before ++ (run ++ after)

theorem DropsRun.cons (h : DropsRun segs rest) (s : Segment) :
    DropsRun (s :: segs) (s :: rest) := by
  obtain ⟨before, run, after, hne, hplain, rfl, rfl⟩ := h
  exact ⟨s :: before, run, after, hne, hplain, rfl, rfl⟩

theorem DropsRun.length_lt (h : DropsRun segs rest) : rest.length < segs.length := by
  obtain ⟨before, run, after, hne, -, rfl, rfl⟩ := h
  have hpos := List.length_pos_of_ne_nil hne
  simp only [List.length_append]
  omega

theorem sublist_of_dropsRun (h : Relation.ReflTransGen DropsRun segs rest) :
    rest.Sublist segs := by
  induction h with
  | refl => exact List.Sublist.refl _
  | tail _ hdrops ih =>
    refine List.Sublist.trans ?_ ih
    obtain ⟨before, run, after, -, -, rfl, rfl⟩ := hdrops
    exact (List.Sublist.refl before).append (List.sublist_append_right run _)

/-- What is no plain name stays. -/
theorem filter_of_dropsRun (h : Relation.ReflTransGen DropsRun segs rest) :
    rest.filter (! isPlainName ·) = segs.filter (! isPlainName ·) := by
  induction h with
  | refl => rfl
  | tail _ hdrops ih =>
    obtain ⟨before, run, after, -, hplain, rfl, rfl⟩ := hdrops
    have hnone : run.filter (! isPlainName ·) = [] := by
      refine List.filter_eq_nil_iff.mpr fun s hs => ?_
      rw [List.all_eq_true.mp hplain s hs]
      exact Bool.false_ne_true
    rw [← ih]
    simp only [List.filter_append, hnone, List.nil_append]

/-! ### Runs at the start -/

/-- The first directories are a run of plain names that follows itself. -/
def StartsRun (segs : List Segment) : Prop :=
  ∃ run : List Segment, run ≠ [] ∧ run.all isPlainName = true ∧ run ++ run <+: segs

theorem repeatsRun_cons : RepeatsRun (s :: rest) ↔ StartsRun (s :: rest) ∨ RepeatsRun rest := by
  constructor
  · rintro ⟨run, hne, hplain, hinfix⟩
    exact (List.infix_cons_iff.mp hinfix).imp (fun h => ⟨run, hne, hplain, h⟩)
      fun h => ⟨run, hne, hplain, h⟩
  · rintro (⟨run, hne, hplain, hprefix⟩ | h)
    · exact ⟨run, hne, hplain, hprefix.isInfix⟩
    · exact h.cons s

theorem not_repeatsRun_nil : ¬ RepeatsRun [] := by
  rintro ⟨run, hne, -, hinfix⟩
  exact hne (List.append_eq_nil_iff.mp (List.infix_nil.mp hinfix)).1

theorem RepeatsRun.of_suffix (h : RepeatsRun rest) (hsuffix : rest <:+ segs) : RepeatsRun segs := by
  obtain ⟨run, hne, hplain, hinfix⟩ := h
  exact ⟨run, hne, hplain, hinfix.trans hsuffix.isInfix⟩

theorem repeatsAt_of_repeatedRun (h : repeatedRun n segs = some k) : repeatsAt segs k = true := by
  induction n with
  | zero => cases h
  | succ n ih =>
    rw [repeatedRun] at h
    split at h
    next hrepeats =>
      cases h
      exact hrepeats
    next => exact ih h

theorem repeatsAt_eq_false_of_repeatedRun (h : repeatedRun n segs = none) (hpos : 0 < k)
    (hk : k ≤ n) : repeatsAt segs k = false := by
  induction n with
  | zero => omega
  | succ n ih =>
    rw [repeatedRun] at h
    split at h
    next => cases h
    next hrepeats =>
      obtain rfl | hlt := Nat.eq_or_lt_of_le hk
      · simpa using hrepeats
      · exact ih h (by omega)

/-- The run that is found: the path starts with it twice. -/
theorem exists_run (h : repeatedRun (segs.length / 2) segs = some n) :
    ∃ run after, run ≠ [] ∧ run.all isPlainName = true ∧ run.length = n ∧
      segs = run ++ (run ++ after) := by
  have hpos := repeatedRun_pos h
  have hle := repeatedRun_le h
  obtain ⟨hplain, hsame⟩ : (segs.take n).all isPlainName = true ∧
      segs.take n = (segs.drop n).take n := by
    simpa [repeatsAt] using repeatsAt_of_repeatedRun h
  have hlen : (segs.take n).length = n := by
    rw [List.length_take]
    omega
  refine ⟨segs.take n, (segs.drop n).drop n, List.ne_nil_of_length_pos (by omega), hplain, hlen, ?_⟩
  nth_rewrite 2 [hsame]
  rw [List.take_append_drop, List.take_append_drop]

/-- No run is found exactly when the first directories are none. -/
theorem repeatedRun_eq_none_iff :
    repeatedRun (segs.length / 2) segs = none ↔ ¬ StartsRun segs := by
  constructor
  · rintro hnone ⟨run, hne, hplain, after, rfl⟩
    have hpos := List.length_pos_of_ne_nil hne
    have hrepeats := repeatsAt_eq_false_of_repeatedRun hnone hpos (by
      simp only [List.length_append]
      omega)
    simp [repeatsAt, hplain] at hrepeats
  · intro hnot
    refine Option.eq_none_iff_forall_ne_some.mpr fun n hn => hnot ?_
    obtain ⟨run, after, hne, hplain, -, hsegs⟩ := exists_run hn
    exact ⟨run, hne, hplain, after, by rw [hsegs, List.append_assoc]⟩

/-! ### One pass -/

theorem collapseRuns_of_some (h : repeatedRun (segs.length / 2) segs = some n) :
    collapseRuns segs = collapseRuns (segs.drop n) := by
  obtain ⟨run, after, hne, -, rfl, hsegs⟩ := exists_run h
  obtain ⟨s, rest, hcons⟩ := List.exists_cons_of_ne_nil (l := segs) (by
    rw [hsegs]
    simp [hne])
  have hlen : (rest.length + 1) / 2 = segs.length / 2 := by rw [hcons, List.length_cons]
  have htaken : segs.take run.length ++ segs.drop (2 * run.length) = segs.drop run.length := by
    rw [hsegs, Nat.two_mul]
    simp
  subst hcons
  rw [collapseRuns]
  split
  next n' hn' =>
    rw [hlen, h] at hn'
    cases hn'
    rw [htaken]
  next hnone =>
    rw [hlen, h] at hnone
    cases hnone

theorem collapseRuns_of_not_startsRun (h : ¬ StartsRun (s :: rest)) :
    collapseRuns (s :: rest) = s :: collapseRuns rest := by
  have hnone := repeatedRun_eq_none_iff.mpr h
  rw [collapseRuns]
  split
  next n hn =>
    rw [List.length_cons, hn] at hnone
    cases hnone
  next => rfl

/-- A pass by its steps: a run that is found is taken out, and elsewhere a directory is kept. -/
theorem passInduction {motive : List Segment → Prop} (nil : motive [])
    (skip : ∀ segs n, repeatedRun (segs.length / 2) segs = some n → motive (segs.drop n) →
      motive segs)
    (keep : ∀ s rest, ¬ StartsRun (s :: rest) → motive rest → motive (s :: rest))
    (segs : List Segment) : motive segs := by
  induction hlen : segs.length using Nat.strong_induction_on generalizing segs with
  | _ len ih =>
    cases hrun : repeatedRun (segs.length / 2) segs with
    | some n =>
      have hpos := repeatedRun_pos hrun
      have hle := repeatedRun_le hrun
      exact skip segs n hrun (ih _ (by rw [List.length_drop]; omega) _ rfl)
    | none =>
      cases segs with
      | nil => exact nil
      | cons s rest =>
        exact keep s rest (repeatedRun_eq_none_iff.mp hrun) (ih _ (by
          rw [← hlen, List.length_cons]
          exact Nat.lt_succ_self _) _ rfl)

theorem dropsRun_of_some (h : repeatedRun (segs.length / 2) segs = some n) :
    DropsRun segs (segs.drop n) := by
  obtain ⟨run, after, hne, hplain, rfl, rfl⟩ := exists_run h
  exact ⟨[], run, after, hne, hplain, rfl, List.drop_left⟩

/-- **Only runs that follow themselves are taken out.** -/
theorem reflTransGen_collapseRuns (segs : List Segment) :
    Relation.ReflTransGen DropsRun segs (collapseRuns segs) := by
  induction segs using passInduction with
  | nil =>
    rw [collapseRuns]
  | skip segs n hrun ih =>
    rw [collapseRuns_of_some hrun]
    exact ih.head (dropsRun_of_some hrun)
  | keep s rest hrun ih =>
    rw [collapseRuns_of_not_startsRun hrun]
    exact ih.lift (s :: ·) fun _ _ h => h.cons s

theorem collapseRuns_sublist (segs : List Segment) : (collapseRuns segs).Sublist segs :=
  sublist_of_dropsRun (reflTransGen_collapseRuns segs)

/-- A pass leaves the directories as they are, or it takes one out. -/
theorem collapseRuns_eq_or_lt (segs : List Segment) :
    collapseRuns segs = segs ∨ (collapseRuns segs).length < segs.length := by
  obtain heq | ⟨rest, hdrops, hrest⟩ := (reflTransGen_collapseRuns segs).cases_head
  · exact .inl heq.symm
  · exact .inr (lt_of_le_of_lt (sublist_of_dropsRun hrest).length_le hdrops.length_lt)

/-- **A pass changes nothing exactly where no run follows itself.** -/
theorem collapseRuns_eq_self_iff : collapseRuns segs = segs ↔ ¬ RepeatsRun segs := by
  refine ⟨fun h => ?_, collapseRuns_of_not_repeatsRun⟩
  induction segs using passInduction with
  | nil => exact not_repeatsRun_nil
  | skip segs n hrun _ =>
    have hle := (collapseRuns_sublist (segs.drop n)).length_le
    have hlt := (dropsRun_of_some hrun).length_lt
    rw [← collapseRuns_of_some hrun, h] at hle
    omega
  | keep s rest hrun ih =>
    rw [collapseRuns_of_not_startsRun hrun, List.cons.injEq] at h
    exact fun hrepeats => (repeatsRun_cons.mp hrepeats).elim hrun (ih h.2)

/-! ### When one pass is enough -/

/-- A pass over the directories comes by in front of the others: it starts with the first directory,
skips the first of two equal runs, and moves on behind a directory that it keeps. -/
inductive PassReaches (segs : List Segment) : List Segment → Prop where
  /-- The pass starts. -/
  | start : PassReaches segs segs
  /-- A run that follows itself is taken out. -/
  | skip {t : List Segment} {n : Nat} (h : PassReaches segs t)
    (hrun : repeatedRun (t.length / 2) t = some n) : PassReaches segs (t.drop n)
  /-- A directory is kept. -/
  | keep {s : Segment} {rest : List Segment} (h : PassReaches segs (s :: rest))
    (hrun : ¬ StartsRun (s :: rest)) : PassReaches segs rest

theorem PassReaches.trans (h : PassReaches segs rest) (h' : PassReaches rest t) :
    PassReaches segs t := by
  induction h' with
  | start => exact h
  | skip _ hrun ih => exact ih.skip hrun
  | keep _ hrun ih => exact ih.keep hrun

/-- What comes of the directories that the pass has before itself ends the result. -/
theorem PassReaches.suffix (h : PassReaches segs t) : collapseRuns t <:+ collapseRuns segs := by
  induction h with
  | start => exact List.suffix_rfl
  | skip _ hrun ih => rwa [← collapseRuns_of_some hrun]
  | keep _ hrun ih =>
    rw [collapseRuns_of_not_startsRun hrun] at ih
    exact (List.suffix_cons _ _).trans ih

/-- No directory that a pass keeps comes to start a run that follows itself when the directories
behind it are collapsed. -/
def NothingMeets (segs : List Segment) : Prop :=
  ∀ s rest, PassReaches segs (s :: rest) → StartsRun (s :: collapseRuns rest) →
    StartsRun (s :: rest)

/-- **One pass is enough exactly when taking out runs brings no earlier ones together.** -/
theorem runFree_collapseRuns_iff : ¬ RepeatsRun (collapseRuns segs) ↔ NothingMeets segs := by
  constructor
  · intro hsettled s rest hreaches hstarts
    by_contra hrun
    have hsuffix := hreaches.suffix
    rw [collapseRuns_of_not_startsRun hrun] at hsuffix
    exact hsettled ((repeatsRun_cons.mpr (.inl hstarts)).of_suffix hsuffix)
  · intro h
    induction segs using passInduction with
    | nil =>
      rw [collapseRuns]
      exact not_repeatsRun_nil
    | skip segs n hrun ih =>
      rw [collapseRuns_of_some hrun]
      exact ih fun s rest hreaches => h s rest ((PassReaches.start.skip hrun).trans hreaches)
    | keep s rest hrun ih =>
      rw [collapseRuns_of_not_startsRun hrun]
      intro hrepeats
      obtain hstarts | hrest := repeatsRun_cons.mp hrepeats
      · exact hrun (h s rest .start hstarts)
      · exact ih (fun s' rest' hreaches =>
          h s' rest' ((PassReaches.start.keep hrun).trans hreaches)) hrest

/-- Passes settle the directories, or every one of them has taken one out. -/
theorem iterate_collapseRuns (segs : List Segment) (n : Nat) :
    ¬ RepeatsRun (collapseRuns^[n] segs) ∨ (collapseRuns^[n] segs).length + n ≤ segs.length := by
  induction n with
  | zero => exact .inr (Nat.le_refl _)
  | succ n ih =>
    rw [Function.iterate_succ_apply']
    obtain heq | hlt := collapseRuns_eq_or_lt (collapseRuns^[n] segs)
    · left
      rw [heq]
      exact collapseRuns_eq_self_iff.mp heq
    · obtain hsettled | hle := ih
      · rw [collapseRuns_eq_self_iff.mpr hsettled] at hlt
        exact absurd hlt (Nat.lt_irrefl _)
      · exact .inr (by omega)

/-- **A pass for every directory is always enough.** -/
theorem not_repeatsRun_iterate (h : segs.length ≤ n) : ¬ RepeatsRun (collapseRuns^[n] segs) := by
  obtain hsettled | hle := iterate_collapseRuns segs n
  · exact hsettled
  · rw [List.eq_nil_of_length_eq_zero (l := collapseRuns^[n] segs) (by omega)]
    exact not_repeatsRun_nil

/-! ### Paths -/

/-- The directories of a path: its segments in front of the last slash. -/
def directories (p : Path) : List Segment := (splitText ['/'] p).dropLast

/-- What stands behind the last slash of a path. -/
def lastSegment (p : Path) : Segment := (splitText ['/'] p).getLast (splitText_ne_nil '/' p)

/-- No run of plain directories of the path follows itself. -/
def RunFree (p : Path) : Prop := ¬ RepeatsRun (directories p)

theorem splitText_eq_concat (p : Path) : splitText ['/'] p = directories p ++ [lastSegment p] :=
  (List.dropLast_concat_getLast (splitText_ne_nil '/' p)).symm

theorem joinSegments_splitText (p : Path) : Path.joinSegments (splitText ['/'] p) = p := by
  induction p with
  | nil => rfl
  | cons c p ih =>
    by_cases hc : '/' = c
    · subst hc
      rw [splitText_cons_self, joinSegments_cons (splitText_ne_nil '/' p), ih]
      rfl
    · rw [splitText_cons_ne hc]
      cases hsegs : splitText ['/'] p with
      | nil => exact absurd hsegs (splitText_ne_nil '/' p)
      | cons s rest =>
        rw [hsegs] at ih
        cases rest with
        | nil => exact congrArg _ ih
        | cons r rest => exact congrArg _ ih

theorem collapseRepeated_eq (p : Path) :
    collapseRepeated p = Path.joinSegments (collapseRuns (directories p) ++ [lastSegment p]) := by
  have hlast : (splitText ['/'] p).getLast? = some (lastSegment p) :=
    List.getLast?_eq_some_getLast (splitText_ne_nil '/' p)
  rw [collapseRepeated, hlast]
  rfl

theorem splitText_collapseRepeated (p : Path) :
    splitText ['/'] (collapseRepeated p) = collapseRuns (directories p) ++ [lastSegment p] := by
  rw [collapseRepeated_eq]
  refine splitText_joinSegments (List.concat_ne_nil _ _) fun s hs => ?_
  have hsub : (collapseRuns (directories p) ++ [lastSegment p]).Sublist (splitText ['/'] p) := by
    rw [splitText_eq_concat]
    exact (collapseRuns_sublist _).append (List.Sublist.refl _)
  exact notMem_of_mem_splitText (hsub.subset hs)

@[simp] theorem directories_collapseRepeated (p : Path) :
    directories (collapseRepeated p) = collapseRuns (directories p) := by
  rw [directories, splitText_collapseRepeated, List.dropLast_concat]

@[simp] theorem lastSegment_collapseRepeated (p : Path) :
    lastSegment (collapseRepeated p) = lastSegment p := by
  simp only [lastSegment, splitText_collapseRepeated, List.getLast_concat]

theorem directories_iterate (p : Path) (n : Nat) :
    directories (collapseRepeated^[n] p) = collapseRuns^[n] (directories p) := by
  induction n with
  | zero => rfl
  | succ n ih =>
    rw [Function.iterate_succ_apply', Function.iterate_succ_apply', directories_collapseRepeated,
      ih]

/-- A path stays exactly when it is settled. -/
theorem collapseRepeated_eq_self_iff : collapseRepeated p = p ↔ RunFree p := by
  rw [RunFree, ← collapseRuns_eq_self_iff]
  refine ⟨fun h => ?_, fun h => ?_⟩
  · rw [← directories_collapseRepeated, h]
  · rw [collapseRepeated_eq, h, ← splitText_eq_concat, joinSegments_splitText]

/-- A path that comes of another one by taking out runs of directories that follow themselves: its
last segment and all segments that are no plain names stay, in their order. -/
structure CollapsesTo (p q : Path) : Prop where
  drops : Relation.ReflTransGen DropsRun (directories p) (directories q)
  others : (directories q).filter (! isPlainName ·) = (directories p).filter (! isPlainName ·)
  last : lastSegment q = lastSegment p

/-- **Collapsing takes out repetitions only and settles in the end.**  A pass takes out runs of
directories that follow themselves and nothing else.  It changes nothing exactly when there is none.
Its result has none, and a second pass changes nothing, exactly when taking out runs brings no
earlier ones together; and this holds of every path after as many passes as it has directories. -/
theorem collapseRepeated_settles (p : Path) :
    CollapsesTo p (collapseRepeated p) ∧
      (collapseRepeated p = p ↔ RunFree p) ∧
      (RunFree (collapseRepeated p) ∧ collapseRepeated (collapseRepeated p) = collapseRepeated p ↔
        NothingMeets (directories p)) ∧
      ∀ n, (directories p).length ≤ n → RunFree (collapseRepeated^[n] p) := by
  refine ⟨⟨?_, ?_, lastSegment_collapseRepeated p⟩, collapseRepeated_eq_self_iff, ?_,
    fun n hn => ?_⟩
  · rw [directories_collapseRepeated]
    exact reflTransGen_collapseRuns _
  · rw [directories_collapseRepeated]
    exact filter_of_dropsRun (reflTransGen_collapseRuns _)
  · rw [collapseRepeated_eq_self_iff, and_self, RunFree, directories_collapseRepeated,
      runFree_collapseRuns_iff]
  · rw [RunFree, directories_iterate]
    exact not_repeatsRun_iterate hn

/-- In `/a/b/a/a/b/x.png` the pass has kept `a` and `b` when it takes out one of the two `a` behind
them, and the run `a/b` comes to follow itself: a second pass would take it out. -/
theorem collapse_leaves_run :
    collapseRepeated "/a/b/a/a/b/x.png".toList = "/a/b/a/b/x.png".toList ∧
      ¬ RunFree (collapseRepeated "/a/b/a/a/b/x.png".toList) ∧
      collapseRepeated (collapseRepeated "/a/b/a/a/b/x.png".toList) = "/a/b/x.png".toList := by
  have hfirst : collapseRepeated "/a/b/a/a/b/x.png".toList = "/a/b/a/b/x.png".toList := by
    decide +kernel
  have hsecond : collapseRepeated "/a/b/a/b/x.png".toList = "/a/b/x.png".toList := by
    decide +kernel
  rw [hfirst, hsecond, ← collapseRepeated_eq_self_iff, hsecond]
  exact ⟨rfl, by decide, rfl⟩

end Stencil
