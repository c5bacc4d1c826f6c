import Stencil.Markup.Asset
import Stencil.Proofs.Assets.Sweeping
import Stencil.Proofs.Elements.Attributes
import Stencil.Proofs.Relative

/-!
# Sources taken from the directory of a template

The source of an asset is put behind the directory of the template, loses its points and its double
points, and should lead where its segments lead.  Every step works on the text, and each one is a
step on the segments: points at the start are dropped, points between slashes are thinned out, a
path without repeated runs is left alone, and removing parent steps is sweeping.

## Main definitions

* `AllSegments`, `IsRelative` — the segments of a path, and those of a relative source.
* `RepeatsRun` — a run of plain directories is followed by itself.

## Main results

* `withoutPoints_joinSegments`, `collapseRepeated_joinSegments`, `removeMatches_joinSegments` — the
  steps on the segments.
* `assetPath_joinSegments` — the whole path is the thinned one, swept until nothing changes.
* `assetPath_eq_resolved_iff` — **when a source leads where its segments lead**.
-/

namespace Stencil

open Text FileTree

variable {web dirs segs rest : List Segment} {s file : Segment} {cs a b : List Char} {n : Nat}

/-! ### Replacing in what is missed -/

section Replacing

variable {α : Type} {m : Matcher α}

theorem Misses.replaceMatches (h : Misses m a b) (f : α → List Char) :
    replaceMatches m f (a ++ b) = a ++ replaceMatches m f b := by
  rw [Text.replaceMatches, cut, h.cutFrom, List.flatMap_append, List.flatMap_map]
  congr 1
  exact List.flatMap_singleton' a

theorem replaceMatches_found {x : α} (ha : a ≠ []) (h : m (a ++ b) = some (x, a.length))
    (f : α → List Char) : replaceMatches m f (a ++ b) = f x ++ replaceMatches m f b := by
  rw [Text.replaceMatches, cut, cutFrom_found ha h]
  rfl

end Replacing

/-! ### Segments and their texts -/

/-- Segments as a path has them: nonempty and without slashes. -/
def AllSegments (segs : List Segment) : Prop := ∀ s ∈ segs, s ≠ [] ∧ '/' ∉ s

instance (segs : List Segment) : Decidable (AllSegments segs) :=
  inferInstanceAs (Decidable (∀ s ∈ segs, s ≠ [] ∧ '/' ∉ s))

theorem AllSegments.tail (h : AllSegments (s :: segs)) : AllSegments segs :=
  fun t ht => h t (List.mem_cons_of_mem s ht)

theorem joinSegments_concat (s : Segment) (rest : List Segment) (file : Segment) :
    Path.joinSegments (s :: rest ++ [file]) = s ++ '/' :: Path.joinSegments (rest ++ [file]) :=
  joinSegments_cons (List.concat_ne_nil file rest)

theorem splitText_concat (hsegs : AllSegments segs) (hfile : '/' ∉ file) :
    splitText ['/'] (Path.joinSegments (segs ++ [file])) = segs ++ [file] := by
  refine splitText_joinSegments (List.concat_ne_nil file segs) fun s hs => ?_
  obtain hs | hs := List.mem_append.mp hs
  · exact (hsegs s hs).2
  · rwa [List.mem_singleton.mp hs]

theorem joinSegments_concat_inj (hsegs : AllSegments segs) (hrest : AllSegments rest)
    (hfile : '/' ∉ file) :
    Path.joinSegments (segs ++ [file]) = Path.joinSegments (rest ++ [file]) ↔ segs = rest := by
  refine ⟨fun h => ?_, fun h => by rw [h]⟩
  have h := congrArg (splitText ['/']) h
  rw [splitText_concat hsegs hfile, splitText_concat hrest hfile] at h
  exact List.append_cancel_right h

/-- A path starts with a segment and a slash exactly when the segment is its first directory. -/
theorem startsWith_segment_iff (hs : '/' ∉ s) (hsegs : AllSegments segs) (hfile : '/' ∉ file) :
    startsWith (s ++ ['/']) (Path.joinSegments (segs ++ [file])) = true ↔ segs.head? = some s := by
  cases segs with
  | nil =>
    rw [startsWith_iff]
    refine ⟨fun h => absurd (h.subset ?_) hfile, nofun⟩
    simp
  | cons t rest =>
    rw [joinSegments_concat]
    refine ⟨fun h => ?_, fun h => ?_⟩
    · rw [List.head?_cons, eq_of_startsWith hs (hsegs t List.mem_cons_self).2 h]
    · obtain rfl : t = s := by simpa using h
      rw [startsWith_iff]
      exact ⟨Path.joinSegments (rest ++ [file]), by simp⟩

/-! ### Points at the start -/

theorem dropHere_of_ne (hs : s ≠ point) (hslash : '/' ∉ s) (cs : List Char) :
    dropHere (s ++ '/' :: cs) = s ++ '/' :: cs := by
  unfold dropHere
  split
  next ds heq =>
    match s with
    | [] => simp at heq
    | [c] =>
      obtain rfl : c = '.' := by simpa using (List.cons.inj heq).1
      exact absurd rfl hs
    | c :: d :: s =>
      obtain rfl : d = '/' := (List.cons.inj (List.cons.inj heq).2).1
      simp at hslash
  next => rfl

theorem dropHere_file (hfile : '/' ∉ file) : dropHere file = file := by
  unfold dropHere
  split
  · simp at hfile
  · rfl

theorem dropHere_joinSegments (hsegs : AllSegments segs) (hfile : '/' ∉ file) :
    dropHere (Path.joinSegments (segs ++ [file])) =
      Path.joinSegments (segs.dropWhile (· = point) ++ [file]) := by
  induction segs with
  | nil => exact dropHere_file hfile
  | cons s rest ih =>
    rw [joinSegments_concat]
    by_cases hs : s = point
    · subst hs
      rw [List.dropWhile_cons_of_pos (by simp), ← ih hsegs.tail]
      rfl
    · rw [List.dropWhile_cons_of_neg (by simpa using hs), joinSegments_concat,
        dropHere_of_ne hs (hsegs s List.mem_cons_self).2]

/-! ### Points between slashes -/

/-- The pattern of a point between slashes. -/
abbrev pointAt : Matcher Unit := phrase ['/', '.', '/']

theorem misses_pointAt (ha : '/' ∉ a) (b : List Char) : Misses pointAt a b := by
  induction a with
  | nil => trivial
  | cons c a ih =>
    rw [List.mem_cons, not_or] at ha
    exact ⟨by simp [phrase, dropStart?, ha.1], ih ha.2⟩

theorem misses_pointAt_slash (h : startsWith (point ++ ['/']) b = false) :
    Misses pointAt ['/'] b := by
  refine ⟨?_, trivial⟩
  rw [startsWith, Option.isSome_eq_false_iff, Option.isNone_iff_eq_none] at h
  show ((if '/' = '/' then dropStart? ['.', '/'] b else none).map fun _ => _) = none
  rw [if_pos rfl]
  exact congrArg _ h

/-- The text with every point between slashes taken out. -/
abbrev withoutPoints (cs : List Char) : List Char := replaceText ['/', '.', '/'] ['/'] cs

theorem withoutPoints_plain (ha : '/' ∉ a) (b : List Char) :
    withoutPoints (a ++ b) = a ++ withoutPoints b :=
  (misses_pointAt ha b).replaceMatches _

theorem withoutPoints_file (hfile : '/' ∉ file) : withoutPoints file = file := by
  have h := withoutPoints_plain hfile []
  rwa [List.append_nil, show withoutPoints [] = [] from rfl, List.append_nil] at h

theorem withoutPoints_point (cs : List Char) :
    withoutPoints ('/' :: (point ++ '/' :: cs)) = '/' :: withoutPoints cs := by
  have hfound : pointAt (['/', '.', '/'] ++ cs) = some ((), 3) := by simp [phrase, dropStart?]
  exact replaceMatches_found (List.cons_ne_nil _ _) hfound _

theorem withoutPoints_segment (hsegs : AllSegments (s :: segs)) (hfile : '/' ∉ file)
    (hs : s ≠ point) :
    withoutPoints ('/' :: Path.joinSegments (s :: segs ++ [file])) =
      '/' :: (s ++ withoutPoints ('/' :: Path.joinSegments (segs ++ [file]))) := by
  have hno : startsWith (point ++ ['/']) (Path.joinSegments (s :: segs ++ [file])) = false :=
    Bool.eq_false_iff.mpr fun h =>
      hs (Option.some.inj ((startsWith_segment_iff (by decide) hsegs hfile).mp h))
  rw [← withoutPoints_plain (hsegs s List.mem_cons_self).2, ← joinSegments_concat]
  exact (misses_pointAt_slash hno).replaceMatches _

/-- Points between slashes are taken out as thinning takes them out. -/
theorem withoutPoints_joinSegments (hsegs : AllSegments segs) (hfile : '/' ∉ file) :
    withoutPoints ('/' :: Path.joinSegments (segs ++ [file])) =
      '/' :: Path.joinSegments (thin segs ++ [file]) := by
  have hend : withoutPoints ('/' :: file) = '/' :: file := by
    have hno : startsWith (point ++ ['/']) file = false := by
      have hiff : startsWith (point ++ ['/']) (Path.joinSegments ([] ++ [file])) = true ↔
          [].head? = some point := startsWith_segment_iff (by decide) nofun hfile
      exact Bool.eq_false_iff.mpr fun h => nomatch hiff.mp h
    calc withoutPoints ('/' :: file) = '/' :: withoutPoints file :=
          (misses_pointAt_slash hno).replaceMatches _
      _ = '/' :: file := by rw [withoutPoints_file hfile]
  induction segs using thin.induct with
  | case1 => exact hend
  | case2 =>
    rw [joinSegments_concat, withoutPoints_point]
    exact congrArg _ (withoutPoints_file hfile)
  | case3 s hs =>
    rw [withoutPoints_segment hsegs hfile hs, thin, if_neg hs, joinSegments_concat]
    exact congrArg (fun cs => '/' :: (s ++ cs)) hend
  | case4 t rest ih =>
    have ht := hsegs t (List.mem_cons_of_mem _ List.mem_cons_self)
    rw [joinSegments_concat, withoutPoints_point, joinSegments_concat, withoutPoints_plain ht.2,
      ih hsegs.tail.tail, thin, if_pos rfl, joinSegments_concat]
  | case5 s t rest hs ih =>
    rw [withoutPoints_segment hsegs hfile hs, ih hsegs.tail, thin, if_neg hs, joinSegments_concat]

/-! ### Repeated directories -/

/-- A run of plain directories that is followed by itself. -/
def RepeatsRun (segs : List Segment) : Prop :=
  ∃ run : List Segment, run ≠ [] ∧ run.all isPlainName = true ∧ run ++ run <:+: segs

theorem RepeatsRun.cons (h : RepeatsRun segs) (s : Segment) : RepeatsRun (s :: segs) := by
  obtain ⟨run, hne, hplain, hinfix⟩ := h
  exact ⟨run, hne, hplain, List.infix_cons hinfix⟩

/-- Where no plain directory comes twice, no run is repeated. -/
theorem not_repeatsRun_of_nodup (h : (segs.filter isPlainName).Nodup) : ¬ RepeatsRun segs := by
  rintro ⟨run, hne, hplain, hinfix⟩
  have hkept : (run ++ run).filter isPlainName = run ++ run := by
    refine List.filter_eq_self.mpr fun s hs => List.all_eq_true.mp hplain s ?_
    simpa using hs
  have hsub := hinfix.sublist.filter isPlainName
  rw [hkept] at hsub
  obtain ⟨s, rest, rfl⟩ := List.exists_cons_of_ne_nil hne
  have happart := (List.nodup_append.mp (h.sublist hsub)).2.2
  exact happart s List.mem_cons_self s List.mem_cons_self rfl

theorem repeatedRun_eq_none (h : ¬ RepeatsRun segs) (hne : segs ≠ []) (n : Nat) :
    repeatedRun n segs = none := by
  induction n with
  | zero => rfl
  | succ n ih =>
    rw [repeatedRun, ih, if_neg]
    intro hrepeats
    rw [repeatsAt, Bool.and_eq_true, beq_iff_eq] at hrepeats
    refine h ⟨segs.take (n + 1), ?_, hrepeats.1, ?_⟩
    · simpa using hne
    · nth_rewrite 2 [hrepeats.2]
      refine ⟨[], (segs.drop (n + 1)).drop (n + 1), ?_⟩
      rw [List.nil_append, List.append_assoc, List.take_append_drop, List.take_append_drop]

theorem collapseRuns_of_not_repeatsRun (h : ¬ RepeatsRun segs) : collapseRuns segs = segs := by
  induction segs with
  | nil => rw [collapseRuns]
  | cons s rest ih =>
    unfold collapseRuns
    split
    next hrun =>
      rw [repeatedRun_eq_none h (List.cons_ne_nil s rest)] at hrun
      cases hrun
    next => rw [ih fun hrest => h (hrest.cons s)]

/-- A path in which no run is repeated stays as it is. -/
theorem collapseRepeated_joinSegments (hsegs : AllSegments segs) (hfile : '/' ∉ file)
    (h : ¬ RepeatsRun segs) :
    collapseRepeated ('/' :: Path.joinSegments (segs ++ [file])) =
      '/' :: Path.joinSegments (segs ++ [file]) := by
  have hroot : ¬ RepeatsRun ([] :: segs) := by
    rintro ⟨run, hne, hplain, hinfix⟩
    obtain hprefix | hinfix := List.infix_cons_iff.mp hinfix
    · -- the empty segment at the root is no plain name
      obtain ⟨s, run, rfl⟩ := List.exists_cons_of_ne_nil hne
      obtain rfl := (List.cons_prefix_cons.mp hprefix).1
      cases hplain
    · exact h ⟨run, hne, hplain, hinfix⟩
  have hsplit : splitText ['/'] ('/' :: Path.joinSegments (segs ++ [file])) =
      [] :: segs ++ [file] := by
    rw [splitText_cons_self, splitText_concat hsegs hfile]
    rfl
  rw [collapseRepeated, hsplit, List.dropLast_concat, List.getLast?_concat,
    collapseRuns_of_not_repeatsRun hroot]
  exact joinSegments_concat [] segs file

/-! ### Double points -/

theorem parentStepAt_segment (hs : '/' ∉ s) (cs : List Char) :
    parentStepAt (s ++ '/' :: cs) =
      if s ≠ [] ∧ startsWith (doublePoint ++ ['/']) cs = true then some ((), s.length + 4)
      else none := by
  have hne : ∀ c ∈ s, decide (c ≠ '/') = true := by
    intro c hc
    rw [decide_eq_true_eq]
    rintro rfl
    exact hs hc
  have hend : ∀ c, ('/' :: cs).head? = some c → decide (c ≠ '/') = false := by
    rintro c ⟨⟩
    rfl
  have hname := takeWhile_append_head hne hend
  have hstart : startsWith "/../".toList ('/' :: cs) = startsWith (doublePoint ++ ['/']) cs := rfl
  rw [parentStepAt, hname.1, hname.2, hstart]
  cases s <;> simp

theorem parentStepAt_of_notMem (ha : '/' ∉ a) : parentStepAt a = none := by
  have hrest : a.dropWhile (· ≠ '/') = [] := List.dropWhile_eq_nil_iff.mpr fun c hc => by
    rw [decide_eq_true_eq]
    rintro rfl
    exact ha hc
  rw [parentStepAt, hrest]
  exact if_neg (by simp [startsWith, dropStart?])

theorem misses_parentStepAt_file (ha : '/' ∉ a) : Misses parentStepAt a [] := by
  induction a with
  | nil => trivial
  | cons c a ih =>
    refine ⟨?_, ih fun h => ha (List.mem_cons_of_mem c h)⟩
    rw [List.append_nil]
    exact parentStepAt_of_notMem ha

/-- A segment that no double point follows is kept with its slash. -/
theorem misses_parentStepAt_segment (hs : '/' ∉ s)
    (hno : startsWith (doublePoint ++ ['/']) b = false) : Misses parentStepAt (s ++ ['/']) b := by
  induction s with
  | nil =>
    refine ⟨?_, trivial⟩
    exact parentStepAt_segment (s := []) (by simp) b
  | cons c s ih =>
    refine ⟨?_, ih fun h => hs (List.mem_cons_of_mem c h)⟩
    have h := parentStepAt_segment hs b
    rw [hno, if_neg (by simp)] at h
    show parentStepAt (c :: (s ++ ['/'] ++ b)) = none
    rw [List.append_assoc]
    exact h

/-- **Removing the matches is a sweep.** -/
theorem removeMatches_joinSegments (hsegs : AllSegments segs) (hfile : '/' ∉ file) :
    removeMatches parentStepAt (Path.joinSegments (segs ++ [file])) =
      Path.joinSegments (sweep segs ++ [file]) := by
  have hend : removeMatches parentStepAt file = file := by
    have h := (misses_parentStepAt_file hfile).replaceMatches fun _ => []
    rwa [List.append_nil, show replaceMatches parentStepAt (fun _ => []) [] = [] from rfl,
      List.append_nil] at h
  have hkept : ∀ {s segs}, AllSegments (s :: segs) → segs.head? ≠ some doublePoint →
      removeMatches parentStepAt (Path.joinSegments (s :: segs ++ [file])) =
        s ++ '/' :: removeMatches parentStepAt (Path.joinSegments (segs ++ [file])) := by
    intro s segs hsegs hhead
    have hno : startsWith (doublePoint ++ ['/']) (Path.joinSegments (segs ++ [file])) = false :=
      Bool.eq_false_iff.mpr fun h =>
        hhead ((startsWith_segment_iff (by decide) hsegs.tail hfile).mp h)
    have h := (misses_parentStepAt_segment (hsegs s List.mem_cons_self).2 hno).replaceMatches
      fun _ => []
    rw [joinSegments_concat]
    rw [List.append_assoc, List.append_assoc] at h
    exact h
  induction segs using sweep.induct with
  | case1 => exact hend
  | case2 s =>
    rw [hkept hsegs (by simp), sweep, joinSegments_concat]
    exact congrArg (fun cs => s ++ '/' :: cs) hend
  | case3 s rest ih =>
    have hs := hsegs s List.mem_cons_self
    rw [sweep, if_pos rfl, ← ih hsegs.tail.tail, joinSegments_concat, joinSegments_concat]
    have hstart : startsWith (doublePoint ++ ['/'])
        (doublePoint ++ '/' :: Path.joinSegments (rest ++ [file])) = true :=
      startsWith_iff.mpr ⟨Path.joinSegments (rest ++ [file]), rfl⟩
    have hmatch := parentStepAt_segment hs.2
      (doublePoint ++ '/' :: Path.joinSegments (rest ++ [file]))
    rw [if_pos ⟨hs.1, hstart⟩] at hmatch
    have h := replaceMatches_found (a := s ++ ['/', '.', '.', '/'])
      (b := Path.joinSegments (rest ++ [file])) (m := parentStepAt) (x := ()) (by simp)
      (by rw [List.append_assoc, List.length_append]; exact hmatch) fun _ => []
    rw [List.append_assoc] at h
    exact h
  | case4 s t rest ht ih =>
    rw [hkept hsegs (by simpa using ht), ih hsegs.tail, sweep, if_neg ht, joinSegments_concat]

theorem removeMatches_root (hsegs : AllSegments segs) (hfile : '/' ∉ file) :
    removeMatches parentStepAt ('/' :: Path.joinSegments (segs ++ [file])) =
      '/' :: Path.joinSegments (sweep segs ++ [file]) := by
  have hmisses : Misses parentStepAt ['/'] (Path.joinSegments (segs ++ [file])) :=
    ⟨parentStepAt_segment (s := []) (by simp) _, trivial⟩
  rw [← removeMatches_joinSegments hsegs hfile]
  exact hmisses.replaceMatches _

theorem AllSegments.append (hsegs : AllSegments segs) (hrest : AllSegments rest) :
    AllSegments (segs ++ rest) :=
  fun s hs => (List.mem_append.mp hs).elim (hsegs s) (hrest s)

theorem AllSegments.sublist (h : AllSegments segs) (hrest : rest.Sublist segs) :
    AllSegments rest :=
  fun s hs => h s (hrest.subset hs)

/-- Dropping parent steps is sweeping until nothing changes. -/
theorem dropParentSteps_joinSegments (hsegs : AllSegments segs) (hfile : '/' ∉ file)
    (hn : segs.length ≤ n) :
    ∃ k, dropParentSteps n ('/' :: Path.joinSegments (segs ++ [file])) =
        '/' :: Path.joinSegments (sweep^[k] segs ++ [file]) ∧
      sweep (sweep^[k] segs) = sweep^[k] segs := by
  induction n generalizing segs with
  | zero =>
    obtain rfl := List.eq_nil_of_length_eq_zero (Nat.le_zero.mp hn)
    exact ⟨0, rfl, rfl⟩
  | succ n ih =>
    have hswept := hsegs.sublist (sweep_sublist segs)
    rw [dropParentSteps, removeMatches_root hsegs hfile]
    by_cases hfixed : sweep segs = segs
    · refine ⟨0, ?_, hfixed⟩
      rw [hfixed, if_pos rfl]
      rfl
    · have hlt := length_sweep_lt hfixed
      obtain ⟨k, heq, hdone⟩ := ih hswept (by omega)
      refine ⟨k + 1, ?_, hdone⟩
      rw [if_neg fun h => hfixed
        ((joinSegments_concat_inj hswept hsegs hfile).mp (List.cons.inj h).2)]
      exact heq

/-! ### The whole path -/

theorem length_le_joinSegments (segs : List Segment) (file : Segment) :
    segs.length ≤ (Path.joinSegments (segs ++ [file])).length := by
  induction segs with
  | nil => exact Nat.zero_le _
  | cons s rest ih =>
    rw [joinSegments_concat, List.length_append, List.length_cons, List.length_cons]
    omega

theorem joinSegments_directory (web : List Segment) (hsegs : segs ≠ []) :
    Path.joinSegments (web ++ [[]]) ++ Path.joinSegments segs =
      Path.joinSegments (web ++ segs) := by
  induction web with
  | nil => rfl
  | cons s web ih =>
    rw [joinSegments_concat, List.append_assoc, List.cons_append, ih, List.cons_append,
      joinSegments_cons (List.append_ne_nil_of_right_ne_nil web hsegs)]

/-- A source is taken from a directory by dropping the parent steps of the thinned path. -/
theorem assetPath_eq_dropParentSteps (hweb : AllSegments web) (hdirs : AllSegments dirs)
    (hfile : '/' ∉ file) (hrun : ¬ RepeatsRun (thin (web ++ dirs.dropWhile (· = point)))) :
    assetPath (pathOf (web ++ [[]])) (Path.joinSegments (dirs ++ [file])) =
      dropParentSteps (pathOf (thin (web ++ dirs.dropWhile (· = point)) ++ [file])).length
        (pathOf (thin (web ++ dirs.dropWhile (· = point)) ++ [file])) := by
  have hall := hweb.append (hdirs.sublist (List.dropWhile_sublist (· = point)))
  have hjoined : pathOf (web ++ [[]]) ++ dropHere (Path.joinSegments (dirs ++ [file])) =
      pathOf (web ++ dirs.dropWhile (· = point) ++ [file]) := by
    rw [dropHere_joinSegments hdirs hfile, pathOf, pathOf, List.append_assoc,
      ← joinSegments_directory web (List.concat_ne_nil file _)]
    rfl
  have hpoints : replaceText "/./".toList ['/']
      (pathOf (web ++ dirs.dropWhile (· = point) ++ [file])) =
        pathOf (thin (web ++ dirs.dropWhile (· = point)) ++ [file]) :=
    withoutPoints_joinSegments hall hfile
  have hcollapsed : collapseRepeated (pathOf (thin (web ++ dirs.dropWhile (· = point)) ++ [file])) =
      pathOf (thin (web ++ dirs.dropWhile (· = point)) ++ [file]) :=
    collapseRepeated_joinSegments (hall.sublist (thin_sublist _)) hfile hrun
  rw [assetPath, hjoined, hpoints, hcollapsed]

/-- **A source is taken from a directory by sweeping the thinned path.** -/
theorem assetPath_joinSegments (hweb : AllSegments web) (hdirs : AllSegments dirs)
    (hfile : '/' ∉ file) (hrun : ¬ RepeatsRun (thin (web ++ dirs.dropWhile (· = point)))) :
    ∃ k, assetPath (pathOf (web ++ [[]])) (Path.joinSegments (dirs ++ [file])) =
        pathOf (sweep^[k] (thin (web ++ dirs.dropWhile (· = point))) ++ [file]) ∧
      sweep (sweep^[k] (thin (web ++ dirs.dropWhile (· = point)))) =
        sweep^[k] (thin (web ++ dirs.dropWhile (· = point))) := by
  have hall := hweb.append (hdirs.sublist (List.dropWhile_sublist (· = point)))
  rw [assetPath_eq_dropParentSteps hweb hdirs hfile hrun]
  refine dropParentSteps_joinSegments (hall.sublist (thin_sublist _)) hfile ?_
  rw [pathOf, List.length_cons]
  exact Nat.le_succ_of_le (length_le_joinSegments _ file)

/-! ### Resolution -/

/-- The segments of a source: names, points and double points. -/
def IsRelative (dirs : List Segment) : Prop :=
  ∀ s ∈ dirs, IsFileName s ∨ s = point ∨ s = doublePoint

instance (dirs : List Segment) : Decidable (IsRelative dirs) :=
  inferInstanceAs (Decidable (∀ s ∈ dirs, IsFileName s ∨ s = point ∨ s = doublePoint))

theorem IsFileName.ne_point (h : IsFileName s) : s ≠ point := by
  rintro rfl
  exact Bool.noConfusion h.idle

theorem allSegments_of_names (h : ∀ s ∈ segs, IsFileName s) : AllSegments segs :=
  fun s hs => ⟨(h s hs).ne_nil, (h s hs).slash⟩

theorem IsRelative.allSegments (h : IsRelative dirs) : AllSegments dirs := by
  intro s hs
  obtain hname | rfl | rfl := h s hs
  · exact ⟨hname.ne_nil, hname.slash⟩
  · decide
  · decide

theorem IsRelative.pointless (hweb : ∀ s ∈ web, IsFileName s) (h : IsRelative dirs) :
    Pointless (web ++ dirs.filter (· ≠ point)) := by
  intro s hs
  obtain hs | hs := List.mem_append.mp hs
  · exact Or.inl (hweb s hs)
  · obtain ⟨hmem, hne⟩ := List.mem_filter.mp hs
    exact (h s hmem).imp_right fun h => h.resolve_left (by simpa using hne)

theorem filter_names (h : ∀ s ∈ segs, IsFileName s) : segs.filter (· ≠ point) = segs :=
  List.filter_eq_self.mpr fun s hs => decide_eq_true (h s hs).ne_point

theorem filter_dropWhile_point (segs : List Segment) :
    (segs.dropWhile (· = point)).filter (· ≠ point) = segs.filter (· ≠ point) := by
  induction segs with
  | nil => rfl
  | cons s rest ih =>
    by_cases hs : s = point
    · simpa [hs] using ih
    · simp [hs]

/-- Points lead nowhere. -/
theorem leadFrom_filter_point (names segs : List Segment) :
    leadFrom names (segs.filter (· ≠ point)) = leadFrom names segs := by
  induction segs generalizing names with
  | nil => rfl
  | cons s rest ih =>
    by_cases hs : s = point
    · subst hs
      exact ih names
    · have hkept : (s :: rest).filter (· ≠ point) = s :: rest.filter (· ≠ point) :=
        List.filter_cons_of_pos (by simpa using hs)
      rw [hkept, leadFrom, leadFrom, ih, ih, ih]

theorem leadFrom_source (hfile : IsFileName file) (web dirs : List Segment) :
    leadFrom [] (web ++ dirs ++ [file]) =
      leadFrom [] (web ++ dirs.filter (· ≠ point)) ++ [file] := by
  rw [leadFrom_append, leadFrom_append, leadFrom_append, leadFrom_filter_point, leadFrom_name hfile]
  rfl

/-- A run of plain directories has no points, so taking points out keeps its repetition. -/
theorem RepeatsRun.filter (h : RepeatsRun segs) : RepeatsRun (segs.filter (· ≠ point)) := by
  obtain ⟨run, hne, hplain, before, after, rfl⟩ := h
  have hkept : run.filter (· ≠ point) = run := by
    refine List.filter_eq_self.mpr fun s hs => decide_eq_true ?_
    rintro rfl
    exact absurd (List.all_eq_true.mp hplain point hs) (by decide)
  refine ⟨run, hne, hplain, before.filter (· ≠ point), after.filter (· ≠ point), ?_⟩
  simp only [List.filter_append, hkept]

theorem not_points_iff (hweb : ∀ s ∈ web, IsFileName s) (segs : List Segment) :
    [point, point] <:+: web ++ segs ↔ [point, point] <:+: segs := by
  induction web with
  | nil => rfl
  | cons s web ih =>
    have hs := (hweb s List.mem_cons_self).ne_point
    rw [List.cons_append, List.infix_cons_iff, ih fun t ht => hweb t (List.mem_cons_of_mem s ht)]
    simp [List.cons_prefix_cons, hs.symm]

/-- **Asset paths resolve like paths, except where sweeping goes wrong.**  A source of names, points
and double points that stays under the root, in whose path no run of directories is repeated, is
taken from the directory to the path that its segments lead to exactly when no two points follow
each other behind those at its start and no peeling of the path has three double points in a row. -/
theorem assetPath_eq_resolved_iff (hweb : ∀ s ∈ web, IsFileName s) (hdirs : IsRelative dirs)
    (hfile : IsFileName file) (hunder : StaysUnder (web ++ dirs.filter (· ≠ point)))
    (hrun : ¬ RepeatsRun (web ++ dirs.filter (· ≠ point))) :
    assetPath (pathOf (web ++ [[]])) (Path.joinSegments (dirs ++ [file])) =
        pathOf (leadFrom [] (web ++ dirs ++ [file])) ↔
      ¬ [point, point] <:+: dirs.dropWhile (· = point) ∧
        ∀ k, ¬ [doublePoint, doublePoint, doublePoint] <:+:
          peel^[k] (web ++ dirs.filter (· ≠ point)) := by
  have hpointless := hdirs.pointless hweb
  have hweb' := allSegments_of_names hweb
  have hkept : (web ++ dirs.dropWhile (· = point)).filter (· ≠ point) =
      web ++ dirs.filter (· ≠ point) := by
    rw [List.filter_append, filter_names hweb, filter_dropWhile_point]
  have hthin : (thin (web ++ dirs.dropWhile (· = point))).filter (· ≠ point) =
      web ++ dirs.filter (· ≠ point) := by rw [filter_thin, hkept]
  have hrun' : ¬ RepeatsRun (thin (web ++ dirs.dropWhile (· = point))) := fun h =>
    hrun (hthin ▸ h.filter)
  obtain ⟨k, heq, hdone⟩ := assetPath_joinSegments hweb' hdirs.allSegments hfile.slash hrun'
  have hresolved : AllSegments (leadFrom [] (web ++ dirs.filter (· ≠ point))) :=
    allSegments_of_names (isFileName_of_mem_leadFrom (by simp) hpointless)
  have hswept : AllSegments (sweep^[k] (thin (web ++ dirs.dropWhile (· = point)))) :=
    (hweb'.append (hdirs.allSegments.sublist (List.dropWhile_sublist _))).sublist
      ((sweeps_sublist _ k).trans (thin_sublist _))
  rw [heq, leadFrom_source hfile, pathOf, pathOf, List.cons.injEq, eq_self, true_and,
    joinSegments_concat_inj hswept hresolved hfile.slash]
  by_cases hpoints : [point, point] <:+: web ++ dirs.dropWhile (· = point)
  · -- a point that is left counts as a name
    refine iff_of_false (fun hsame => ?_) fun h => h.1 ((not_points_iff hweb _).mp hpoints)
    have hle := surplus_le_sweeps (thin (web ++ dirs.dropWhile (· = point))) k
    have hcount := List.count_pos_iff.mpr (mem_thin_iff.mpr hpoints)
    rw [hsame, surplus_leadFrom hpointless hunder, surplus_filter_point, hthin] at hle
    omega
  · rw [not_points_iff hweb] at hpoints
    have hnone : thin (web ++ dirs.dropWhile (· = point)) = web ++ dirs.filter (· ≠ point) := by
      rw [thin_eq_filter (by rwa [not_points_iff hweb]), hkept]
    rw [hnone] at hdone ⊢
    rw [sweeps_eq_leadFrom_iff hpointless hunder hdone]
    exact (and_iff_right hpoints).symm

/-- From `/a/b/` the source `../img/./x.png` is found in `/a/img/`. -/
theorem assetPath_beside :
    assetPath ['/', 'a', '/', 'b', '/'] "../img/./x.png".toList = "/a/img/x.png".toList :=
  have hweb : ∀ s ∈ ([['a'], ['b']] : List Segment), IsFileName s := by decide
  have hdirs : IsRelative [['.', '.'], ['i', 'm', 'g'], ['.']] := by decide
  have hfile : IsFileName ['x', '.', 'p', 'n', 'g'] := by decide
  (assetPath_eq_resolved_iff hweb hdirs hfile (by decide)
    (not_repeatsRun_of_nodup (by decide))).mpr
    ⟨by decide, not_threefold_of_count_le (by decide)⟩

/-- Three double points in a row are too many: from `/a/b/c/` the source `../../../x.png` leads to
the root, but only the first double point takes a directory with it, and the third one takes the
second one instead. -/
theorem assetPath_threefold :
    assetPath "/a/b/c/".toList "../../../x.png".toList = "/a/b/x.png".toList ∧
      assetPath "/a/b/c/".toList "../../../x.png".toList ≠
        pathOf (leadFrom [] [['a'], ['b'], ['c'], ['.', '.'], ['.', '.'], ['.', '.'],
          ['x', '.', 'p', 'n', 'g']]) := by
  have heq : assetPath "/a/b/c/".toList "../../../x.png".toList = "/a/b/x.png".toList :=
    have hweb : AllSegments [['a'], ['b'], ['c']] := by decide
    have hdirs : AllSegments [['.', '.'], ['.', '.'], ['.', '.']] := by decide
    have hfile : '/' ∉ ['x', '.', 'p', 'n', 'g'] := by decide
    (assetPath_eq_dropParentSteps hweb hdirs hfile
      (not_repeatsRun_of_nodup (by decide))).trans (by decide)
  exact ⟨heq, heq ▸ by decide⟩

end Stencil
