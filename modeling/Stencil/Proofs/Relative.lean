import Stencil.Path.Resolve
import Stencil.Proofs.Following
import Stencil.Proofs.Searching

/-!
# Directories relative to the root

Compiled code names a directory by the rest of its path under the root of the application.  The rest
is cleaned as a text: backslashes become slashes, and points in front of slashes are left out.  So
the name leads back to the directory unless a segment has a backslash, or one of the segments before
the last ends in a point.

## Main definitions

* `Returns` — the directories whose names lead back to them.

## Main results

* `relativeTo?_pathOf` — the rest of a path under a directory.
* `join_relativeToRoot` — **the root, joined with the name of such a directory, is the directory.**
-/

namespace Stencil

open Text FileTree

/-! ### Paths of names -/

section Names

variable {a b r segs : List Segment} {s : Segment} {cs q : List Char} {c : Char}

theorem IsFileName.ne_nil (h : IsFileName s) : s ≠ [] := by
  rintro rfl
  exact Bool.noConfusion h.idle

theorem joinSegments_cons (hr : r ≠ []) :
    Path.joinSegments (s :: r) = s ++ '/' :: Path.joinSegments r := by
  obtain ⟨u, rest, rfl⟩ := List.exists_cons_of_ne_nil hr
  rfl

theorem joinSegments_append (ha : a ≠ []) (hr : r ≠ []) :
    Path.joinSegments (a ++ r) = Path.joinSegments a ++ '/' :: Path.joinSegments r := by
  induction a with
  | nil => exact absurd rfl ha
  | cons s a ih =>
    rw [List.cons_append]
    cases a with
    | nil => exact joinSegments_cons hr
    | cons u a =>
      show s ++ '/' :: Path.joinSegments (u :: a ++ r) = _
      rw [ih (List.cons_ne_nil u a), joinSegments_cons (List.cons_ne_nil u a), List.append_assoc,
        List.cons_append]

theorem joinSegments_ne_nil (h : ∀ s ∈ r, IsFileName s) (hr : r ≠ []) :
    Path.joinSegments r ≠ [] := by
  obtain ⟨s, rest, rfl⟩ := List.exists_cons_of_ne_nil hr
  have hs := (h s List.mem_cons_self).ne_nil
  cases rest with
  | nil => exact hs
  | cons u rest =>
    rw [joinSegments_cons (List.cons_ne_nil u rest)]
    exact List.append_ne_nil_of_left_ne_nil hs _

/-- Names with slashes between them start with no slash. -/
theorem head?_joinSegments (h : ∀ s ∈ r, IsFileName s) :
    (Path.joinSegments r).head? ≠ some '/' := by
  cases r with
  | nil => simp [Path.joinSegments]
  | cons s rest =>
    have hs := h s List.mem_cons_self
    obtain ⟨c, s, rfl⟩ := List.exists_cons_of_ne_nil hs.ne_nil
    have hc : c ≠ '/' := fun hc => hs.slash (hc ▸ List.mem_cons_self)
    cases rest with
    | nil => simpa [Path.joinSegments] using hc
    | cons u rest => simpa [Path.joinSegments] using hc

/-- Names with slashes between them end with no slash. -/
theorem getLast?_joinSegments (h : ∀ s ∈ r, IsFileName s) :
    (Path.joinSegments r).getLast? ≠ some '/' := by
  induction r with
  | nil => simp [Path.joinSegments]
  | cons s rest ih =>
    have hrest := fun u hu => h u (List.mem_cons_of_mem s hu)
    cases rest with
    | nil =>
      intro hlast
      exact (h s List.mem_cons_self).slash (List.mem_of_getLast? hlast)
    | cons u rest =>
      have hne := joinSegments_ne_nil hrest (List.cons_ne_nil u rest)
      have hlast := List.getLast?_eq_some_getLast hne
      have ih := ih hrest
      rw [joinSegments_cons (List.cons_ne_nil u rest), List.getLast?_append,
        List.getLast?_cons_of_ne_nil hne]
      rw [hlast] at ih ⊢
      exact ih

theorem mem_joinSegments (hc : c ≠ '/') : c ∈ Path.joinSegments r ↔ ∃ s ∈ r, c ∈ s := by
  induction r with
  | nil => simp [Path.joinSegments]
  | cons s rest ih =>
    cases rest with
    | nil => simp [Path.joinSegments]
    | cons u rest =>
      rw [joinSegments_cons (List.cons_ne_nil u rest), List.mem_append, List.mem_cons, ih]
      simp [hc]

theorem isAbsolute_of_head? (h : cs.head? ≠ some '/') : Path.isAbsolute cs = false := by
  unfold Path.isAbsolute
  split
  next => exact absurd rfl h
  next => rfl

/-- A path of names, joined with a relative one. -/
theorem join_pathOf (ha : ∀ s ∈ a, IsFileName s) (hq : Path.isAbsolute q = false) :
    (pathOf a).join q =
      if a = [] then '/' :: q else '/' :: (Path.joinSegments a ++ '/' :: q) := by
  rw [Path.join, hq, if_neg Bool.false_ne_true, pathOf]
  by_cases hnil : a = []
  · subst hnil
    rfl
  · have hlast : ('/' :: Path.joinSegments a).getLast? ≠ some '/' := by
      rw [List.getLast?_cons_of_ne_nil (joinSegments_ne_nil ha hnil)]
      exact getLast?_joinSegments ha
    rw [if_neg hnil, if_neg (by simpa using hlast)]
    rfl

/-- Its segments are the names and those of the relative path. -/
theorem split_join_pathOf (ha : ∀ s ∈ a, IsFileName s) (hq : Path.isAbsolute q = false) :
    Path.split ((pathOf a).join q) = (.root, a ++ splitText ['/'] q) := by
  rw [join_pathOf ha hq]
  split
  next hnil =>
    subst hnil
    rfl
  next hne =>
    show (Path.Start.root, splitText ['/'] (Path.joinSegments a ++ '/' :: q)) = _
    rw [splitText_join, splitText_joinSegments hne fun s hs => (ha s hs).slash]

theorem target_join_pathOf (ha : ∀ s ∈ a, IsFileName s) (hq : Path.isAbsolute q = false) :
    ((pathOf a).join q).target [] = leadFrom a (splitText ['/'] q) := by
  rw [Path.target, split_join_pathOf ha hq]
  dsimp only
  rw [leadFrom_append, leadFrom_of_names [] ha, List.nil_append]

end Names

/-! ### The rest of a path under a directory -/

section Under

variable {a b r : List Segment}

theorem dropWhile_isIdle (h : ∀ s ∈ r, IsFileName s) : r.dropWhile Path.isIdle = r := by
  cases r with
  | nil => rfl
  | cons s r => exact List.dropWhile_cons_of_neg (by simp [(h s List.mem_cons_self).idle])

theorem dropIdleEnd_of_names (h : ∀ s ∈ r, IsFileName s) : Path.dropIdleEnd r = r := by
  rw [Path.dropIdleEnd, dropWhile_isIdle fun s hs => h s (List.mem_reverse.mp hs),
    List.reverse_reverse]

theorem dropBase_append (ha : ∀ s ∈ a, IsFileName s) : Path.dropBase a (a ++ r) = some r := by
  induction a with
  | nil => rfl
  | cons s a ih =>
    have hs : Path.isIdle s = false := (ha s List.mem_cons_self).idle
    rw [List.cons_append, Path.dropBase, List.dropWhile_cons_of_neg (by simp [hs])]
    exact (if_pos rfl).trans (ih fun s hs => ha s (List.mem_cons_of_mem _ hs))

theorem dropBase_eq_none (hb : ∀ s ∈ b, IsFileName s) (h : ¬ a <+: b) :
    Path.dropBase a b = none := by
  induction a generalizing b with
  | nil => exact absurd (List.nil_prefix) h
  | cons s a ih =>
    rw [Path.dropBase, dropWhile_isIdle hb]
    cases b with
    | nil => rfl
    | cons u b =>
      show (if u = s then Path.dropBase a b else none) = none
      split
      next heq =>
        subst heq
        exact ih (fun s hs => hb s (List.mem_cons_of_mem _ hs)) fun hpre =>
          h (List.cons_prefix_cons.mpr ⟨rfl, hpre⟩)
      next => rfl

/-- The segments of the path of names, the idle one of the root aside. -/
theorem filter_split_pathOf (h : ∀ s ∈ a, IsFileName s) :
    (Path.split (pathOf a)).2.filter (! Path.isIdle ·) = a := by
  rw [split_pathOf h]
  split
  next hnil =>
    subst hnil
    rfl
  next => exact List.filter_eq_self.mpr fun s hs => by rw [(h s hs).idle]; rfl

theorem relativeTo?_eq (ha : ∀ s ∈ a, IsFileName s) (b : List Segment) :
    Path.relativeTo? (pathOf a) (pathOf b) =
      (Path.dropBase a (Path.split (pathOf b)).2).map fun rest =>
        Path.joinSegments (Path.dropIdleEnd (rest.dropWhile Path.isIdle)) := by
  have hnames := filter_split_pathOf ha
  have hbase : Path.split (pathOf a) = (.root, (Path.split (pathOf a)).2) := rfl
  have hpath : Path.split (pathOf b) = (.root, (Path.split (pathOf b)).2) := rfl
  rw [Path.relativeTo?, hbase, hpath]
  dsimp only
  rw [hnames]
  exact if_pos rfl

/-- **The rest of a path** behind the names of a directory. -/
theorem relativeTo?_pathOf (ha : ∀ s ∈ a, IsFileName s) (hr : ∀ s ∈ r, IsFileName s) :
    Path.relativeTo? (pathOf a) (pathOf (a ++ r)) = some (Path.joinSegments r) := by
  have hall : ∀ s ∈ a ++ r, IsFileName s := by
    intro s hs
    rcases List.mem_append.mp hs with hs | hs
    · exact ha s hs
    · exact hr s hs
  rw [relativeTo?_eq ha, split_pathOf hall]
  split
  next hnil =>
    obtain ⟨rfl, rfl⟩ := List.append_eq_nil_iff.mp hnil
    rfl
  next =>
    rw [dropBase_append ha, Option.map_some, dropWhile_isIdle hr, dropIdleEnd_of_names hr]

theorem relativeTo?_pathOf_of_not_prefix (ha : ∀ s ∈ a, IsFileName s) (hb : ∀ s ∈ b, IsFileName s)
    (h : ¬ a <+: b) : Path.relativeTo? (pathOf a) (pathOf b) = none := by
  rw [relativeTo?_eq ha, split_pathOf hb, Option.map_eq_none_iff]
  split
  next hnil =>
    subst hnil
    obtain ⟨s, a, rfl⟩ := List.exists_cons_of_ne_nil fun hnil => h (hnil ▸ List.nil_prefix)
    rfl
  next => exact dropBase_eq_none hb h

end Under

/-! ### Cleaned texts -/

/-- Segments that stay when their path is cleaned: without backslashes, and no point in front of a
slash. -/
structure StaysClean (r : List Segment) : Prop where
  noBackslash : ∀ s ∈ r, '\\' ∉ s
  noPoint : ∀ s ∈ r.dropLast, s.getLast? ≠ some '.'

instance (r : List Segment) : Decidable (StaysClean r) :=
  decidable_of_iff ((∀ s ∈ r, '\\' ∉ s) ∧ ∀ s ∈ r.dropLast, s.getLast? ≠ some '.')
    ⟨fun ⟨h₁, h₂⟩ => ⟨h₁, h₂⟩, fun ⟨h₁, h₂⟩ => ⟨h₁, h₂⟩⟩

section Cleaning

variable {r : List Segment} {cs : List Char}

theorem withSlashes_of_notMem (h : '\\' ∉ cs) : Path.withSlashes cs = cs := by
  rw [Path.withSlashes]
  refine (List.map_congr_left fun c hc => ?_).trans (List.map_id cs)
  exact if_neg fun heq : c = '\\' => h (heq ▸ hc)

theorem dropWhile_of_head? {p : Char → Bool} (h : ∀ c ∈ cs.head?, p c = false) :
    cs.dropWhile p = cs := by
  cases cs with
  | nil => rfl
  | cons c cs => exact List.dropWhile_cons_of_neg (by simp [h c rfl])

theorem stripBoth_of_ends {p : Char → Bool} (hhead : ∀ c ∈ cs.head?, p c = false)
    (hlast : ∀ c ∈ cs.getLast?, p c = false) : stripBoth p cs = cs := by
  rw [stripBoth, dropWhile_of_head? hhead,
    dropWhile_of_head? (by rwa [List.head?_reverse]), List.reverse_reverse]

/-- Where no segment before the last ends in a point, no point stands in front of a slash. -/
theorem not_occurs_pointSlash (hr : ∀ s ∈ r, IsFileName s)
    (h : ∀ s ∈ r.dropLast, s.getLast? ≠ some '.') :
    occurs (phrase ['.', '/']) (Path.joinSegments r) = false := by
  have hno : ∀ s ∈ r, contains ['.', '/'] s = false := by
    intro s hs
    rw [← Bool.not_eq_true, contains_iff_isInfix]
    exact fun hin => (hr s hs).slash (hin.subset (by simp))
  induction r with
  | nil => rfl
  | cons s rest ih =>
    have hs := hno s List.mem_cons_self
    cases rest with
    | nil => exact misses_nil.mp (misses_phrase hs (.inl fun d hd => by cases hd))
    | cons u rest =>
      have hpoint := h s (by simp)
      have hmisses : Misses (phrase ['.', '/']) s ('/' :: Path.joinSegments (u :: rest)) :=
        misses_phrase hs (.inr fun d hd hmem => hpoint (by
          rw [List.mem_singleton.mp hmem] at hd
          exact hd))
      rw [joinSegments_cons (List.cons_ne_nil u rest), hmisses.occurs]
      exact ih (fun s hs => hr s (List.mem_cons_of_mem _ hs))
        (fun s hs => h s (List.mem_cons_of_mem _ hs))
        (fun s hs => hno s (List.mem_cons_of_mem _ hs))

/-- The name of a directory under the root, when its segments stay. -/
theorem relativeToRoot_of_staysClean {a : List Segment} (ha : ∀ s ∈ a, IsFileName s)
    (hr : ∀ s ∈ r, IsFileName s) (h : StaysClean r) :
    relativeToRoot (pathOf a) (pathOf (a ++ r)) =
      if r = [] then ['.'] else Path.joinSegments r := by
  have hback : '\\' ∉ Path.joinSegments r := by
    rw [mem_joinSegments (by decide)]
    rintro ⟨s, hs, hmem⟩
    exact h.noBackslash s hs hmem
  have hslash : ∀ c, c ≠ '/' → (c == '/') = false := fun c hc => by simpa using hc
  have hstrip : stripBoth (· == '/') (Path.joinSegments r) = Path.joinSegments r := by
    refine stripBoth_of_ends (fun c hc => hslash c ?_) (fun c hc => hslash c ?_)
    · rintro rfl
      exact head?_joinSegments hr hc
    · rintro rfl
      exact getLast?_joinSegments hr hc
  rw [relativeToRoot, relativeTo?_pathOf ha hr]
  dsimp only
  rw [withSlashes_of_notMem hback, replaceText,
    replaceMatches_of_not_occurs _ (not_occurs_pointSlash hr h.noPoint), hstrip]
  by_cases hnil : r = []
  · subst hnil
    rfl
  · have hne := joinSegments_ne_nil hr hnil
    rw [if_neg hnil, if_neg (by simpa using hne)]

end Cleaning

/-! ### Directories that are named -/

/-- The name of the directory leads back to it: the segments behind those of the root stay, and
outside of the root no segment has a backslash. -/
def Returns (a b : List Segment) : Prop :=
  if a <+: b then StaysClean (b.drop a.length) else ∀ s ∈ b, '\\' ∉ s

instance (a b : List Segment) : Decidable (Returns a b) :=
  inferInstanceAs (Decidable (if a <+: b then _ else _))

section Naming

variable {a b r : List Segment}

/-- The name of the root is a point. -/
theorem relativeToRoot_self (ha : ∀ s ∈ a, IsFileName s) :
    relativeToRoot (pathOf a) (pathOf a) = ['.'] := by
  have h := relativeToRoot_of_staysClean (r := []) ha (by simp) ⟨by simp, by simp⟩
  rwa [List.append_nil] at h

/-- **The root, joined with the name of a directory,** is the directory, or the root with a point
behind it. -/
theorem join_relativeToRoot (ha : ∀ s ∈ a, IsFileName s) (hb : ∀ s ∈ b, IsFileName s)
    (h : Returns a b) :
    (pathOf a).join (relativeToRoot (pathOf a) (pathOf b)) =
      if b = a then (pathOf a).join ['.'] else pathOf b := by
  rw [Returns] at h
  split at h
  next hpre =>
    obtain ⟨r, rfl⟩ := hpre
    rw [List.drop_left] at h
    have hr : ∀ s ∈ r, IsFileName s := fun s hs => hb s (List.mem_append_right a hs)
    rw [relativeToRoot_of_staysClean ha hr h]
    by_cases hnil : r = []
    · subst hnil
      rw [if_pos rfl, if_pos (List.append_nil a)]
    · have hrel := isAbsolute_of_head? (head?_joinSegments hr)
      rw [if_neg hnil, if_neg (by simpa using hnil), join_pathOf ha hrel]
      split
      next hroot =>
        subst hroot
        rfl
      next hroot => rw [pathOf, joinSegments_append hroot hnil]
  next hpre =>
    have hback : '\\' ∉ pathOf b := by
      rw [pathOf, List.mem_cons, not_or, mem_joinSegments (by decide)]
      exact ⟨by decide, fun ⟨s, hs, hmem⟩ => h s hs hmem⟩
    have hne : b ≠ a := by
      rintro rfl
      exact hpre List.prefix_rfl
    rw [relativeToRoot, relativeTo?_pathOf_of_not_prefix ha hb hpre, if_neg hne]
    dsimp only
    rw [withSlashes_of_notMem hback]
    rfl

theorem target_join_relativeToRoot (ha : ∀ s ∈ a, IsFileName s) (hb : ∀ s ∈ b, IsFileName s)
    (h : Returns a b) :
    ((pathOf a).join (relativeToRoot (pathOf a) (pathOf b))).target [] = b := by
  rw [join_relativeToRoot ha hb h]
  split
  next heq =>
    subst heq
    rw [target_join_pathOf ha rfl]
    rfl
  next => exact target_pathOf hb

end Naming

/-! ### Directories that are lost -/

section Losing

variable {α : Type} {m : Matcher α} {a b r names segs : List Segment} {s : Segment}
  {x c : Char} {cs : List Char}

theorem mem_of_mem_splitText (hs : s ∈ splitText [x] cs) (hc : c ∈ s) : c ∈ cs := by
  induction cs generalizing s with
  | nil =>
    rw [splitText_nil, List.mem_singleton] at hs
    exact hs ▸ hc
  | cons d cs ih =>
    by_cases hd : x = d
    · subst hd
      rw [splitText_cons_self, List.mem_cons] at hs
      rcases hs with rfl | hs
      · cases hc
      · exact List.mem_cons_of_mem _ (ih hs hc)
    · rw [splitText_cons_ne hd] at hs
      cases hcs : splitText [x] cs with
      | nil => exact absurd hcs (splitText_ne_nil x cs)
      | cons piece more =>
        rw [hcs] at hs ih
        rcases List.mem_cons.mp hs with rfl | hs
        · rcases List.mem_cons.mp hc with rfl | hc
          · exact List.mem_cons_self
          · exact List.mem_cons_of_mem _ (ih List.mem_cons_self hc)
        · exact List.mem_cons_of_mem _ (ih (List.mem_cons_of_mem _ hs) hc)

theorem length_splitText (x : Char) (cs : List Char) :
    (splitText [x] cs).length = cs.count x + 1 := by
  induction cs with
  | nil => rfl
  | cons c cs ih =>
    by_cases hc : x = c
    · subst hc
      rw [splitText_cons_self, List.length_cons, ih, List.count_cons_self]
    · rw [splitText_cons_ne hc, List.count_cons_of_ne (Ne.symm hc), ← ih]
      cases hcs : splitText [x] cs with
      | nil => exact absurd hcs (splitText_ne_nil x cs)
      | cons piece more => rfl

/-- Where segments lead: some of the first names are left, and segments follow them. -/
theorem exists_leadFrom_eq (names segs : List Segment) :
    ∃ k ms, leadFrom names segs = names.take k ++ ms ∧ ms.length ≤ segs.length ∧
      ∀ s ∈ ms, s ∈ segs := by
  induction segs generalizing names with
  | nil => exact ⟨names.length, [], by simp [leadFrom], Nat.le_refl _, by simp⟩
  | cons s segs ih =>
    rw [leadFrom]
    split_ifs
    · obtain ⟨k, ms, heq, hlen, hmem⟩ := ih names
      exact ⟨k, ms, heq, Nat.le_succ_of_le hlen, fun u hu => List.mem_cons_of_mem _ (hmem u hu)⟩
    · obtain ⟨k, ms, heq, hlen, hmem⟩ := ih names.dropLast
      refine ⟨min k (names.length - 1), ms, ?_, Nat.le_succ_of_le hlen,
        fun u hu => List.mem_cons_of_mem _ (hmem u hu)⟩
      rw [heq, List.dropLast_eq_take, List.take_take]
    · obtain ⟨k, ms, heq, hlen, hmem⟩ := ih (names ++ [s])
      by_cases hk : k ≤ names.length
      · refine ⟨k, ms, ?_, Nat.le_succ_of_le hlen, fun u hu => List.mem_cons_of_mem _ (hmem u hu)⟩
        rw [heq, List.take_append_of_le_length hk]
      · refine ⟨names.length, s :: ms, ?_, Nat.succ_le_succ hlen, ?_⟩
        · rw [heq, List.take_length, List.take_of_length_le (by simp; omega), List.append_assoc]
          rfl
        · intro u hu
          rcases List.mem_cons.mp hu with rfl | hu
          · exact List.mem_cons_self
          · exact List.mem_cons_of_mem _ (hmem u hu)

/-- Segments that lead from names to more names hold these. -/
theorem of_leadFrom_eq_append (h : leadFrom a segs = a ++ r) :
    r.length ≤ segs.length ∧ ∀ s ∈ r, s ∈ segs := by
  obtain ⟨k, ms, heq, hlen, hmem⟩ := exists_leadFrom_eq a segs
  rw [h] at heq
  have hms : ms = a.drop k ++ r := by
    have hsplit : a.take k ++ (a.drop k ++ r) = a.take k ++ ms := by
      rw [← List.append_assoc, List.take_append_drop, heq]
    exact (List.append_cancel_left hsplit).symm
  rw [hms] at hlen hmem
  rw [List.length_append] at hlen
  exact ⟨by omega, fun s hs => hmem s (List.mem_append_right _ hs)⟩

theorem render_nil_sublist (ps : List (Piece α)) :
    (ps.flatMap (Piece.render fun _ => [])).Sublist (ps.flatMap Piece.source) := by
  induction ps with
  | nil => exact List.Sublist.slnil
  | cons piece ps ih =>
    rw [List.flatMap_cons, List.flatMap_cons]
    refine List.Sublist.append ?_ ih
    cases piece with
    | plain c => exact List.Sublist.refl _
    | found a source => exact List.nil_sublist source

/-- What is left without the matches of a pattern. -/
theorem removeMatches_sublist (m : Matcher α) (cs : List Char) :
    (removeMatches m cs).Sublist cs := by
  have h := render_nil_sublist (cut m cs)
  rwa [flatMap_source_cut] at h

/-- A match that is left out takes its characters with it. -/
theorem count_render_nil_lt {ps : List (Piece α)} {a : α} {source : List Char}
    (hmem : .found a source ∈ ps) (hx : x ∈ source) :
    (ps.flatMap (Piece.render fun _ => [])).count x < (ps.flatMap Piece.source).count x := by
  obtain ⟨before, after, rfl⟩ := List.append_of_mem hmem
  have hbefore := (render_nil_sublist before).count_le x
  have hafter := (render_nil_sublist after).count_le x
  have hsource := List.count_pos_iff.mpr hx
  simp only [List.flatMap_append, List.flatMap_cons, List.count_append, Piece.render,
    Piece.source_found, List.count_nil]
  omega

/-- A pattern that occurs is found. -/
theorem exists_found_of_occurs (h : occurs m cs = true) :
    ∃ a source, .found a source ∈ cut m cs := by
  rw [cut]
  induction cs with
  | nil => cases h
  | cons c cs ih =>
    rw [cutFrom]
    cases hm : m (c :: cs) with
    | some y => exact ⟨_, _, List.mem_cons_self⟩
    | none =>
      rw [occurs, hm, Option.isSome_none, Bool.false_or] at h
      obtain ⟨a, source, hmem⟩ := ih h
      exact ⟨a, source, List.mem_cons_of_mem _ hmem⟩

/-- Where a point stands in front of a slash, a slash is left out. -/
theorem count_replaceText_pointSlash (h : occurs (phrase ['.', '/']) cs = true) :
    (replaceText ['.', '/'] [] cs).count '/' < cs.count '/' := by
  obtain ⟨a, source, hmem⟩ := exists_found_of_occurs h
  obtain ⟨c, ds, k, hm, rfl⟩ := exists_of_mem_cutFrom hmem
  have hslash : '/' ∈ c :: ds.take (k - 1) := by
    obtain ⟨rest, hopen, hk⟩ := Option.map_eq_some_iff.mp hm
    cases hk
    rw [dropStart?_eq_some_iff] at hopen
    cases hopen
    exact List.mem_cons_of_mem _ List.mem_cons_self
  have hcount := count_render_nil_lt hmem hslash
  rwa [flatMap_source_cut] at hcount

theorem occurs_of_contained {p : List Char} (hp : p ≠ []) (h : p <:+: cs) :
    occurs (phrase p) cs = true := by
  obtain ⟨before, after, rfl⟩ := h
  rw [List.append_assoc]
  refine occurs_append before ?_
  obtain ⟨c, p, rfl⟩ := List.exists_cons_of_ne_nil hp
  refine occurs_cons ?_
  have hopen : dropStart? (c :: p) (c :: p ++ after) = some after := dropStart?_append _ _
  show (Option.map _ (dropStart? (c :: p) (c :: p ++ after))).isSome = true
  rw [hopen]
  rfl

theorem stripBoth_sublist (p : Char → Bool) (cs : List Char) : (stripBoth p cs).Sublist cs := by
  have hright : ((cs.dropWhile p).reverse.dropWhile p).reverse.Sublist (cs.dropWhile p) := by
    have h := (List.dropWhile_sublist p (l := (cs.dropWhile p).reverse)).reverse
    rwa [List.reverse_reverse] at h
  exact hright.trans (List.dropWhile_sublist p)

/-- What is stripped starts with no character of those that are stripped. -/
theorem head?_stripBoth (p : Char → Bool) (cs : List Char) :
    ∀ c ∈ (stripBoth p cs).head?, p c = false := by
  intro c hc
  have hpre : stripBoth p cs <+: cs.dropWhile p := by
    have h := List.reverse_prefix.mpr (List.dropWhile_suffix p (l := (cs.dropWhile p).reverse))
    rwa [List.reverse_reverse] at h
  have hhead : (cs.dropWhile p).head? = some c := by
    obtain ⟨after, hafter⟩ := hpre
    rw [← hafter, List.head?_append, hc]
    rfl
  have hnot := List.head?_dropWhile_not p cs
  rw [hhead] at hnot
  exact hnot

theorem notMem_withSlashes (cs : List Char) : '\\' ∉ Path.withSlashes cs := by
  rw [Path.withSlashes, List.mem_map]
  rintro ⟨c, -, hc⟩
  split at hc
  next => exact absurd hc (by decide)
  next hne => exact hne hc

/-- A point in front of a slash, where a segment before the last ends in one. -/
theorem pointSlash_contained {s : Segment} (hs : s ∈ r.dropLast) (hlast : s.getLast? = some '.') :
    ['.', '/'] <:+: Path.joinSegments r := by
  induction r with
  | nil => cases hs
  | cons u rest ih =>
    cases rest with
    | nil => cases hs
    | cons v rest =>
      rw [joinSegments_cons (List.cons_ne_nil v rest)]
      rw [List.dropLast_cons_of_ne_nil (List.cons_ne_nil v rest)] at hs
      rcases List.mem_cons.mp hs with rfl | hs
      · obtain ⟨init, rfl⟩ := List.getLast?_eq_some_iff.mp hlast
        exact ⟨init, Path.joinSegments (v :: rest), by simp⟩
      · have hin := ih hs
        exact hin.trans ((List.suffix_append (u ++ ['/']) _).isInfix.trans (by simp))

/-- The name of a directory under the root is relative, has no backslashes, and no more slashes than
the rest of the path without points in front of slashes. -/
theorem relativeToRoot_append (ha : ∀ s ∈ a, IsFileName s) (hr : ∀ s ∈ r, IsFileName s) :
    Path.isAbsolute (relativeToRoot (pathOf a) (pathOf (a ++ r))) = false ∧
      '\\' ∉ relativeToRoot (pathOf a) (pathOf (a ++ r)) ∧
      (relativeToRoot (pathOf a) (pathOf (a ++ r))).count '/' ≤
        (replaceText ['.', '/'] [] (Path.withSlashes (Path.joinSegments r))).count '/' := by
  rw [relativeToRoot, relativeTo?_pathOf ha hr]
  dsimp only
  have hback := notMem_withSlashes (Path.joinSegments r)
  generalize Path.withSlashes (Path.joinSegments r) = cs at hback ⊢
  have hsub := stripBoth_sublist (· == '/') (replaceText ['.', '/'] [] cs)
  have hhead := head?_stripBoth (· == '/') (replaceText ['.', '/'] [] cs)
  generalize stripBoth (· == '/') (replaceText ['.', '/'] [] cs) = rest at hsub hhead ⊢
  split
  next => exact ⟨rfl, by decide, Nat.zero_le _⟩
  next =>
    refine ⟨isAbsolute_of_head? fun hslash => ?_, fun hmem => hback ?_, hsub.count_le '/'⟩
    · exact absurd (hhead '/' hslash) (by decide)
    · exact (removeMatches_sublist _ cs).subset (hsub.subset hmem)

/-- **Only directories whose segments stay have a name that leads back to them.** -/
theorem returns_of_target (ha : ∀ s ∈ a, IsFileName s) (hb : ∀ s ∈ b, IsFileName s)
    (h : ((pathOf a).join (relativeToRoot (pathOf a) (pathOf b))).target [] = b) :
    Returns a b := by
  rw [Returns]
  split
  next hpre =>
    obtain ⟨r, rfl⟩ := hpre
    have hr : ∀ s ∈ r, IsFileName s := fun s hs => hb s (List.mem_append_right a hs)
    obtain ⟨hrel, hback, hcount⟩ := relativeToRoot_append ha hr
    rw [target_join_pathOf ha hrel] at h
    obtain ⟨hlength, hmem⟩ := of_leadFrom_eq_append h
    have hclean : ∀ s ∈ r, '\\' ∉ s := fun s hs hin => hback (mem_of_mem_splitText (hmem s hs) hin)
    rw [List.drop_left]
    refine ⟨hclean, fun s hs hlast => ?_⟩
    -- with the point a slash would go, and there would be too few segments
    have hne : r ≠ [] := by
      rintro rfl
      cases hs
    have hwhole : '\\' ∉ Path.joinSegments r := by
      rw [mem_joinSegments (by decide)]
      exact fun ⟨s, hs, hin⟩ => hclean s hs hin
    have hlost := count_replaceText_pointSlash
      (occurs_of_contained (List.cons_ne_nil _ _) (pointSlash_contained hs hlast))
    have hsegments := length_splitText '/' (Path.joinSegments r)
    rw [splitText_joinSegments hne fun s hs => (hr s hs).slash] at hsegments
    rw [withSlashes_of_notMem hwhole] at hcount
    rw [length_splitText] at hlength
    omega
  next hpre =>
    rw [relativeToRoot, relativeTo?_pathOf_of_not_prefix ha hb hpre] at h
    have hlead : leadFrom [] (splitText ['/'] (Path.withSlashes (Path.joinSegments b))) =
        [] ++ b := h
    intro s hs hin
    exact notMem_withSlashes _ (mem_of_mem_splitText ((of_leadFrom_eq_append hlead).2 s hs) hin)

/-- **The name of a directory leads back to it** exactly when its segments stay. -/
theorem returns_iff (ha : ∀ s ∈ a, IsFileName s) (hb : ∀ s ∈ b, IsFileName s) :
    Returns a b ↔
      ((pathOf a).join (relativeToRoot (pathOf a) (pathOf b))).target [] = b :=
  ⟨target_join_relativeToRoot ha hb, returns_of_target ha hb⟩

end Losing

end Stencil
