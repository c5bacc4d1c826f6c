import Stencil.FileTree

/-!
# Where paths lead

There are no links in a file tree, so the segments of a path alone tell where it leads, if it leads
anywhere.  The tree only decides whether it does: every directory on the way has to exist.  A path
that leads somewhere can be replaced by its names from the root.

## Main definitions

* `leadFrom`, `Path.target` — where segments and paths lead.
* `IsFileName` — the segments that lead into a directory.

## Main results

* `splitText_join`, `splitText_joinSegments` — the segments of joined texts.
* `FileTree.names?_eq_target` — a path that leads somewhere leads to its target.
* `FileTree.names?_pathOf` — the names that a path leads to lead there again.
* `FileTree.canonical?_congr` — whether a path leads somewhere decides where it does.
-/

namespace Stencil

open Text

/-! ### The pieces between separators -/

section Splitting

variable {x : Char} {a b cs : List Char}

@[simp] theorem splitText_nil (x : Char) : splitText [x] [] = [[]] := rfl

theorem splitText_cons_self (x : Char) (cs : List Char) :
    splitText [x] (x :: cs) = [] :: splitText [x] cs := by
  unfold splitText cut
  simp [cutFrom, phrase, dropStart?, splitPieces]

theorem splitText_cons_ne {c : Char} (h : x ≠ c) (cs : List Char) :
    splitText [x] (c :: cs) = match splitText [x] cs with
      | [] => [[c]]
      | piece :: more => (c :: piece) :: more := by
  have hcut : cut (phrase [x]) (c :: cs) = .plain c :: cut (phrase [x]) cs := by
    unfold cut
    simp [cutFrom, phrase, dropStart?, h]
  exact congrArg splitPieces hcut

theorem splitText_ne_nil (x : Char) (cs : List Char) : splitText [x] cs ≠ [] := by
  cases cs with
  | nil => simp
  | cons c cs =>
    by_cases h : x = c
    · subst h
      rw [splitText_cons_self]
      simp
    · rw [splitText_cons_ne h]
      split <;> simp

theorem notMem_of_mem_splitText {s : List Char} (h : s ∈ splitText [x] cs) : x ∉ s := by
  induction cs generalizing s with
  | nil =>
    have : s = [] := by simpa using h
    simp [this]
  | cons c cs ih =>
    by_cases hc : x = c
    · subst hc
      rw [splitText_cons_self, List.mem_cons] at h
      rcases h with rfl | h
      · simp
      · exact ih h
    · rw [splitText_cons_ne hc] at h
      cases hcs : splitText [x] cs with
      | nil => exact absurd hcs (splitText_ne_nil x cs)
      | cons piece more =>
        rw [hcs] at h ih
        rcases List.mem_cons.mp h with rfl | h
        · have hpiece := ih (List.mem_cons_self ..)
          simp [hc, hpiece]
        · exact ih (List.mem_cons_of_mem _ h)

/-- A separator between two texts separates their pieces. -/
theorem splitText_join (x : Char) (a b : List Char) :
    splitText [x] (a ++ x :: b) = splitText [x] a ++ splitText [x] b := by
  induction a with
  | nil => simp [splitText_cons_self]
  | cons c a ih =>
    by_cases hc : x = c
    · subst hc
      rw [List.cons_append, splitText_cons_self, splitText_cons_self, ih, List.cons_append]
    · rw [List.cons_append, splitText_cons_ne hc, splitText_cons_ne hc, ih]
      cases ha : splitText [x] a with
      | nil => exact absurd ha (splitText_ne_nil x a)
      | cons piece more => rfl

theorem splitText_of_notMem (h : x ∉ a) : splitText [x] a = [a] := by
  induction a with
  | nil => rfl
  | cons c a ih =>
    rw [List.mem_cons, not_or] at h
    rw [splitText_cons_ne h.1, ih h.2]

/-- The segments of a path made of segments. -/
theorem splitText_joinSegments {segs : List Segment} (hne : segs ≠ [])
    (h : ∀ s ∈ segs, '/' ∉ s) : splitText ['/'] (Path.joinSegments segs) = segs := by
  induction segs with
  | nil => exact absurd rfl hne
  | cons s rest ih =>
    have hs := splitText_of_notMem (h s (List.mem_cons_self ..))
    cases rest with
    | nil => exact hs
    | cons r rest =>
      have hrest := ih (by simp) fun s hs => h s (List.mem_cons_of_mem _ hs)
      change splitText ['/'] (s ++ '/' :: Path.joinSegments (r :: rest)) = _
      rw [splitText_join, hs, hrest]
      rfl

end Splitting

/-! ### Targets -/

/-- A segment that leads into a directory: neither an idle one nor a double point, and without
slashes. -/
structure IsFileName (s : Segment) : Prop where
  idle : Path.isIdle s = false
  up : s ≠ ['.', '.']
  slash : '/' ∉ s

instance (s : Segment) : Decidable (IsFileName s) :=
  decidable_of_iff (Path.isIdle s = false ∧ s ≠ ['.', '.'] ∧ '/' ∉ s)
    ⟨fun ⟨hidle, hup, hslash⟩ => ⟨hidle, hup, hslash⟩, fun h => ⟨h.idle, h.up, h.slash⟩⟩

/-- Where segments lead from names, if they lead anywhere. -/
def leadFrom (names : List Segment) : List Segment → List Segment
  | [] => names
  | s :: rest =>
    if Path.isIdle s then leadFrom names rest
    else if s = ['.', '.'] then leadFrom names.dropLast rest
    else leadFrom (names ++ [s]) rest

/-- Where a path leads, if it leads anywhere; a relative one is followed from `here`. -/
def Path.target (here : List Segment) (p : Path) : List Segment :=
  match Path.split p with
  | (.root, segs) => leadFrom [] segs
  | (_, segs) => leadFrom here segs

theorem leadFrom_append (names a b : List Segment) :
    leadFrom names (a ++ b) = leadFrom (leadFrom names a) b := by
  induction a generalizing names with
  | nil => rfl
  | cons s rest ih =>
    simp only [List.cons_append, leadFrom, ih]
    split
    · rfl
    · split <;> rfl

theorem leadFrom_idle (names : List Segment) {segs : List Segment}
    (h : ∀ s ∈ segs, Path.isIdle s = true) : leadFrom names segs = names := by
  induction segs with
  | nil => rfl
  | cons s rest ih =>
    rw [leadFrom, if_pos (h s (List.mem_cons_self ..))]
    exact ih fun s hs => h s (List.mem_cons_of_mem _ hs)

theorem leadFrom_of_names (names : List Segment) {segs : List Segment}
    (h : ∀ s ∈ segs, IsFileName s) : leadFrom names segs = names ++ segs := by
  induction segs generalizing names with
  | nil => simp [leadFrom]
  | cons s rest ih =>
    have hs := h s (List.mem_cons_self ..)
    rw [leadFrom, hs.idle, if_neg Bool.false_ne_true, if_neg hs.up,
      ih _ fun s hs => h s (List.mem_cons_of_mem _ hs)]
    simp

/-- An absolute path and its segments. -/
theorem Path.split_of_isAbsolute {p : Path} (h : Path.isAbsolute p = true) :
    ∃ cs, p = '/' :: cs ∧ Path.split p = (.root, splitText ['/'] cs) := by
  unfold Path.isAbsolute at h
  split at h
  · exact ⟨_, rfl, rfl⟩
  · contradiction

/-- An absolute path leads to the same place from everywhere. -/
theorem Path.target_of_isAbsolute {p : Path} (h : Path.isAbsolute p = true) (here : List Segment) :
    p.target here = p.target [] := by
  obtain ⟨cs, -, hsplit⟩ := Path.split_of_isAbsolute h
  simp only [Path.target, hsplit]

theorem Path.isAbsolute_join {p : Path} (h : Path.isAbsolute p = true) (q : Path) :
    Path.isAbsolute (p.join q) = true := by
  obtain ⟨cs, rfl, -⟩ := Path.split_of_isAbsolute h
  unfold Path.join
  split
  · assumption
  · split <;> rfl

theorem Path.isAbsolute_of_parent? {p dir : Path} (h : Path.isAbsolute p = true)
    (hdir : Path.parent? p = some dir) : Path.isAbsolute dir = true := by
  obtain ⟨cs, -, hsplit⟩ := Path.split_of_isAbsolute h
  unfold Path.parent? at hdir
  rw [hsplit] at hdir
  dsimp only at hdir
  split at hdir
  · cases hdir
    rfl
  · contradiction
  · contradiction

/-! ### Following -/

namespace FileTree

variable {t t' : FileTree} {names segs r : List Segment} {p : Path}

theorem follow_append (t : FileTree) (names a b : List Segment) :
    t.follow names (a ++ b) = (t.follow names a).bind fun r => t.follow r b := by
  induction a generalizing names with
  | nil => rfl
  | cons s rest ih =>
    simp only [List.cons_append, follow, ih]
    split
    · split
      · rfl
      · split
        · rfl
        · split <;> rfl
    · rfl

/-- What segments lead to is settled by the segments. -/
theorem follow_eq_leadFrom (h : t.follow names segs = some r) : r = leadFrom names segs := by
  induction segs generalizing names with
  | nil => exact (Option.some.inj h).symm
  | cons s rest ih =>
    simp only [follow] at h
    rw [leadFrom]
    split at h
    · split at h
      · rw [if_pos ‹_›]
        exact ih h
      · rw [if_neg ‹_›]
        split at h
        · rw [if_pos ‹_›]
          exact ih h
        · rw [if_neg ‹_›]
          split at h
          · exact ih h
          · contradiction
    · contradiction

theorem startOf_of_isAbsolute (t : FileTree) (h : Path.isAbsolute p = true) :
    t.startOf p = ([], (Path.split p).2) := by
  obtain ⟨cs, -, hsplit⟩ := Path.split_of_isAbsolute h
  simp only [startOf, hsplit]

theorem names?_of_isAbsolute (t : FileTree) (h : Path.isAbsolute p = true) :
    t.names? p = t.follow [] (Path.split p).2 := by
  have hstart := t.startOf_of_isAbsolute h
  obtain ⟨cs, rfl, -⟩ := Path.split_of_isAbsolute h
  unfold names?
  rw [hstart]
  rfl

/-- A path that leads somewhere leads to its target. -/
theorem names?_eq_target (h : t.names? p = some r) : r = p.target t.here := by
  unfold names? at h
  split at h
  · contradiction
  · unfold startOf at h
    unfold Path.target
    generalize Path.split p = x at h ⊢
    rcases x with ⟨start, segs⟩
    cases start <;> exact follow_eq_leadFrom h

theorem names?_eq_target_of_isAbsolute (hp : Path.isAbsolute p = true) (h : t.names? p = some r) :
    r = p.target [] :=
  (names?_eq_target h).trans (Path.target_of_isAbsolute hp t.here)

theorem isSome_node?_of_follow (h : t.follow names segs = some r) :
    r <+: names ∨ (t.node? r).isSome := by
  induction segs generalizing names with
  | nil =>
    have : names = r := by simpa [follow] using h
    exact .inl (this ▸ List.prefix_rfl)
  | cons s rest ih =>
    simp only [follow] at h
    split at h
    · split at h
      · exact ih h
      · split at h
        · rcases ih h with hr | hr
          · exact .inl (hr.trans (List.dropLast_prefix names))
          · exact .inr hr
        · split at h
          · rename_i hnode
            rcases ih h with hr | hr
            · rcases List.prefix_concat_iff.mp hr with heq | hr
              · exact .inr (heq ▸ hnode)
              · exact .inl hr
            · exact .inr hr
          · contradiction
    · contradiction

/-- What an absolute path leads to is there. -/
theorem isSome_node?_of_names? (hp : Path.isAbsolute p = true) (h : t.names? p = some r) :
    (t.node? r).isSome := by
  rw [t.names?_of_isAbsolute hp] at h
  rcases isSome_node?_of_follow h with hr | hr
  · have : r = [] := List.prefix_nil.mp hr
    subst this
    rfl
  · exact hr

/-- What an absolute path leads to stands at its target. -/
theorem node?_target_of_find? {n : Node} (hp : Path.isAbsolute p = true)
    (h : t.find? p = some n) : t.node? (p.target []) = some n := by
  obtain ⟨r, hr, hnode⟩ := Option.bind_eq_some_iff.mp h
  rw [← names?_eq_target_of_isAbsolute hp hr]
  exact hnode

theorem find?_of_time? {time : Nat} (h : t.time? p = some time) :
    ∃ content, t.find? p = some (.file content time) := by
  unfold time? at h
  split at h
  · rename_i content changed hfile
    cases h
    exact ⟨content, hfile⟩
  · contradiction

theorem find?_of_read? {cs : List Char} (h : t.read? p = some cs) :
    ∃ time, t.find? p = some (.file (.text cs) time) := by
  unfold read? at h
  split at h
  · rename_i text time hfile
    cases h
    exact ⟨time, hfile⟩
  · contradiction

theorem read?_congr (h : t.find? p = t'.find? p) : t.read? p = t'.read? p := by
  unfold read?
  rw [h]

/-- What has no time has no text. -/
theorem read?_eq_none (h : t.time? p = none) : t.read? p = none := by
  cases hread : t.read? p with
  | none => rfl
  | some cs =>
    obtain ⟨time, hfile⟩ := find?_of_read? hread
    unfold time? at h
    rw [hfile] at h
    contradiction

/-- Whether a path leads somewhere decides where it leads. -/
theorem canonical?_congr (hhere : t.here = t'.here)
    (h : (t.canonical? p).isSome = (t'.canonical? p).isSome) :
    t.canonical? p = t'.canonical? p := by
  unfold canonical? at h ⊢
  rw [Option.isSome_map, Option.isSome_map] at h
  congr 1
  cases hr : t.names? p with
  | none =>
    rw [hr] at h
    exact (Option.isNone_iff_eq_none.mp (by simpa using h.symm)).symm
  | some r =>
    rw [hr] at h
    obtain ⟨r', hr'⟩ := Option.isSome_iff_exists.mp h.symm
    rw [hr', names?_eq_target hr, names?_eq_target hr', hhere]

/-! ### Canonical paths -/

/-- From names that are followed to themselves, segments lead to such names again. -/
theorem follow_canonical (hsegs : ∀ s ∈ segs, '/' ∉ s) (hnames : ∀ s ∈ names, IsFileName s)
    (hself : t.follow [] names = some names) (h : t.follow names segs = some r) :
    (∀ s ∈ r, IsFileName s) ∧ t.follow [] r = some r := by
  induction segs generalizing names with
  | nil =>
    have : names = r := by simpa [follow] using h
    subst this
    exact ⟨hnames, hself⟩
  | cons s rest ih =>
    have hrest : ∀ s ∈ rest, '/' ∉ s := fun s hs => hsegs s (List.mem_cons_of_mem _ hs)
    simp only [follow] at h
    split at h
    · rename_i hdir
      split at h
      · exact ih hrest hnames hself h
      · rename_i hidle
        split at h
        · -- the names before the last one are followed to themselves, too
          apply ih hrest (fun s hs => hnames s (List.dropLast_subset names hs)) ?_ h
          rcases List.eq_nil_or_concat names with rfl | ⟨init, last, rfl⟩
          · exact hself
          · rw [List.concat_eq_append] at hself hnames ⊢
            rw [follow_append] at hself
            obtain ⟨x, hx, -⟩ := Option.bind_eq_some_iff.mp hself
            have hx' := follow_eq_leadFrom hx
            rw [leadFrom_of_names _ fun s hs => hnames s (by simp [hs]), List.nil_append] at hx'
            rw [List.dropLast_concat, hx, hx']
        · rename_i hup
          split at h
          · rename_i hnode
            have hname : IsFileName s :=
              ⟨by simpa using hidle, hup, hsegs s (List.mem_cons_self ..)⟩
            apply ih hrest ?_ ?_ h
            · intro x hx
              rcases List.mem_append.mp hx with hx | hx
              · exact hnames x hx
              · exact List.mem_singleton.mp hx ▸ hname
            · rw [follow_append, hself]
              simp [follow, hdir, hname.idle, hup, hnode]
          · contradiction
    · contradiction

theorem split_pathOf (h : ∀ s ∈ r, IsFileName s) :
    (Path.split (pathOf r)).2 = if r = [] then [[]] else r := by
  change splitText ['/'] (Path.joinSegments r) = _
  split
  · rename_i hr
    subst hr
    rfl
  · rename_i hr
    exact splitText_joinSegments hr fun s hs => (h s hs).slash

/-- What an absolute path leads to consists of names, and these lead there again. -/
theorem names?_pathOf (hp : Path.isAbsolute p = true) (h : t.names? p = some r) :
    (∀ s ∈ r, IsFileName s) ∧ t.names? (pathOf r) = some r := by
  obtain ⟨cs, -, hsplit⟩ := Path.split_of_isAbsolute hp
  rw [t.names?_of_isAbsolute hp, hsplit] at h
  obtain ⟨hnames, hself⟩ := follow_canonical (fun s hs => notMem_of_mem_splitText hs)
    (by simp) rfl h
  refine ⟨hnames, ?_⟩
  rw [t.names?_of_isAbsolute rfl, split_pathOf hnames]
  split
  · rename_i hr
    subst hr
    rfl
  · exact hself

theorem target_pathOf (h : ∀ s ∈ r, IsFileName s) : (pathOf r).target [] = r := by
  have hsplit : Path.split (pathOf r) = (.root, (Path.split (pathOf r)).2) := rfl
  unfold Path.target
  rw [hsplit, split_pathOf h]
  dsimp only
  split
  · rename_i hr
    subst hr
    rfl
  · rw [leadFrom_of_names _ h, List.nil_append]

theorem find?_pathOf (hp : Path.isAbsolute p = true) (h : t.names? p = some r) :
    t.find? (pathOf r) = t.find? p := by
  unfold find?
  rw [(names?_pathOf hp h).2, h]

end FileTree

end Stencil
