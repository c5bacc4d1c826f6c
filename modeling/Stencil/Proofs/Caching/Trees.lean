import Mathlib.Data.List.TakeWhile
import Stencil.Proofs.Following
import Stencil.Template.Render

/-!
# File trees with compiled files

Compiled code is kept in files of the cache directory.  A tree with such files and the same tree
without them differ at names that lead to no directory.  Whatever does not end at such names is
found and read in both trees alike.

## Main definitions

* `FileTree.AgreeOff` — trees that differ at hidden names only.
* `Template.at`, `Template.place` — the template at a path, and the names of its compiled file.

## Main results

* `FileTree.AgreeOff.find?_eq`, `FileTree.AgreeOff.canonical?_eq` — hidden names aside, paths lead
  to the same nodes.
* `Template.find_eq_of_agreeOff` — templates are found alike.
* `Handler.writeCompiled_eq` — writing compiled code sets one file.
-/

namespace Stencil

open Text

namespace FileTree

/-- The trees agree except at hidden names, and these lead to no directory in either of them. -/
structure AgreeOff (hidden : List Segment → Prop) (t t' : FileTree) : Prop where
  here : t.here = t'.here
  same : ∀ names, ¬ hidden names → t.node? names = t'.node? names
  noDir : ∀ names, hidden names → t.isDirAt names = false ∧ t'.isDirAt names = false

theorem isFile_iff {t : FileTree} {p : Path} : t.isFile p = true ↔
    ∃ r content time, t.names? p = some r ∧ t.node? r = some (.file content time) := by
  unfold isFile find?
  cases t.names? p with
  | none => simp
  | some r =>
    cases hr : t.node? r with
    | none => simp [hr]
    | some n => cases n <;> simp [hr]

namespace AgreeOff

variable {hidden : List Segment → Prop} {t t' : FileTree} {names segs r : List Segment} {p : Path}

theorem symm (h : AgreeOff hidden t t') : AgreeOff hidden t' t :=
  ⟨h.here.symm, fun names hn => (h.same names hn).symm, fun names hn => (h.noDir names hn).symm⟩

theorem trans {t'' : FileTree} (h : AgreeOff hidden t t') (h' : AgreeOff hidden t' t'') :
    AgreeOff hidden t t'' :=
  ⟨h.here.trans h'.here, fun names hn => (h.same names hn).trans (h'.same names hn),
    fun names hn => ⟨(h.noDir names hn).1, (h'.noDir names hn).2⟩⟩

theorem isDirAt_eq (h : AgreeOff hidden t t') (names : List Segment) :
    t.isDirAt names = t'.isDirAt names := by
  by_cases hn : hidden names
  · rw [(h.noDir names hn).1, (h.noDir names hn).2]
  · unfold isDirAt
    rw [h.same names hn]

/-- Segments that do not end at hidden names lead to the same names: nothing follows hidden ones. -/
theorem follow_eq (h : AgreeOff hidden t t') (hr : ¬ hidden r) (ht : t.follow names segs = some r) :
    t'.follow names segs = some r := by
  induction segs generalizing names with
  | nil => exact ht
  | cons s rest ih =>
    simp only [follow, ← h.isDirAt_eq] at ht ⊢
    split at ht
    · rw [if_pos ‹_›]
      split at ht
      · rw [if_pos ‹_›]
        exact ih ht
      · rw [if_neg ‹_›]
        split at ht
        · rw [if_pos ‹_›]
          exact ih ht
        · rw [if_neg ‹_›]
          split at ht
          · rename_i hnode
            by_cases hn : hidden (names ++ [s])
            · -- a hidden name is no directory, so that it would have to be the last one
              cases rest with
              | nil => exact absurd (Option.some.inj ht ▸ hn) hr
              | cons s' rest => simp [follow, (h.noDir _ hn).1] at ht
            · rw [← h.same _ hn, if_pos hnode]
              exact ih ht
          · contradiction
    · contradiction

theorem names?_eq (h : AgreeOff hidden t t') (hr : ¬ hidden r) (ht : t.names? p = some r) :
    t'.names? p = some r := by
  unfold names? at ht ⊢
  split at ht
  · contradiction
  · rw [if_neg ‹_›]
    have hstart : t'.startOf p = t.startOf p := by
      unfold startOf
      rw [h.here]
    rw [hstart]
    exact h.follow_eq hr ht

theorem find?_eq (h : AgreeOff hidden t t') (hp : ¬ hidden (p.target t.here)) :
    t.find? p = t'.find? p := by
  unfold find?
  cases ht : t.names? p with
  | some r =>
    have hr : ¬ hidden r := by rwa [names?_eq_target ht]
    rw [h.names?_eq hr ht]
    exact h.same r hr
  | none =>
    cases ht' : t'.names? p with
    | none => rfl
    | some r =>
      have hr : ¬ hidden r := by rwa [names?_eq_target ht', ← h.here]
      rw [h.symm.names?_eq hr ht'] at ht
      contradiction

theorem isFile_eq (h : AgreeOff hidden t t') (hp : ¬ hidden (p.target t.here)) :
    t.isFile p = t'.isFile p := by
  unfold isFile
  rw [h.find?_eq hp]

/-- A path that does not end at hidden names leads to the same place in both trees. -/
theorem canonical?_eq_of_not (h : AgreeOff hidden t t') (hp : Path.isAbsolute p = true)
    (hn : ¬ hidden (p.target [])) : t.canonical? p = t'.canonical? p := by
  have hr {t : FileTree} {r : List Segment} (ht : t.names? p = some r) : ¬ hidden r := by
    rwa [names?_eq_target_of_isAbsolute hp ht]
  unfold canonical?
  cases ht : t.names? p with
  | some r => rw [h.names?_eq (hr ht) ht]
  | none =>
    cases ht' : t'.names? p with
    | none => rfl
    | some r =>
      rw [h.symm.names?_eq (hr ht') ht'] at ht
      contradiction

/-- Segments lead to the same names when there is more at hidden names. -/
theorem follow_of_fewer (h : AgreeOff hidden t t')
    (hfewer : ∀ names, hidden names → (t'.node? names).isSome → (t.node? names).isSome)
    (ht : t'.follow names segs = some r) : t.follow names segs = some r := by
  induction segs generalizing names with
  | nil => exact ht
  | cons s rest ih =>
    simp only [follow, h.isDirAt_eq] at ht ⊢
    split at ht
    · rw [if_pos ‹_›]
      split at ht
      · rw [if_pos ‹_›]
        exact ih ht
      · rw [if_neg ‹_›]
        split at ht
        · rw [if_pos ‹_›]
          exact ih ht
        · rw [if_neg ‹_›]
          split at ht
          · rename_i hnode
            have hmore : (t.node? (names ++ [s])).isSome := by
              by_cases hn : hidden (names ++ [s])
              · exact hfewer _ hn hnode
              · rwa [h.same _ hn]
            rw [if_pos hmore]
            exact ih ht
          · contradiction
    · contradiction

/-- Files stand in the other tree, too, when there is more at hidden names. -/
theorem isFile_of_fewer (h : AgreeOff hidden t t')
    (hfewer : ∀ names, hidden names → (t'.node? names).isSome → (t.node? names).isSome)
    (hp : t'.isFile p = true) : t.isFile p = true := by
  obtain ⟨r, content, time, hr, hnode⟩ := isFile_iff.mp hp
  have hr' : t.names? p = some r := by
    unfold names? at hr ⊢
    split at hr
    · contradiction
    · rw [if_neg ‹_›]
      have hstart : t.startOf p = t'.startOf p := by
        unfold startOf
        rw [h.here]
      rw [hstart]
      exact h.follow_of_fewer hfewer hr
  by_cases hn : hidden r
  · have hmore := hfewer r hn (by rw [hnode]; rfl)
    have hdir := (h.noDir r hn).1
    unfold isDirAt at hdir
    cases hnode' : t.node? r with
    | none => simp [hnode'] at hmore
    | some node =>
      cases node with
      | dir => simp [hnode'] at hdir
      | file content' time' => exact isFile_iff.mpr ⟨r, content', time', hr', hnode'⟩
  · exact isFile_iff.mpr ⟨r, content, time, hr', (h.same r hn).trans hnode⟩

/-- Where nothing stands at hidden names, all files stand in the other tree, too. -/
theorem isFile_of_clean (h : AgreeOff hidden t t')
    (hclean : ∀ names, hidden names → t'.node? names = none) (hp : t'.isFile p = true) :
    t.isFile p = true :=
  h.isFile_of_fewer (fun names hn hnode => by rw [hclean names hn] at hnode; cases hnode) hp

/-- A path that exists now as it did at the start leads to the same place in the tree without
compiled files as at the start. -/
theorem canonical?_eq {start : FileTree} (h : AgreeOff hidden t t')
    (hclean : ∀ names, hidden names → t'.node? names = none)
    (hstart : ∀ names, hidden names → start.node? names = none) (hhere : t'.here = start.here)
    (hp : Path.isAbsolute p = true)
    (hexists : (t.canonical? p).isSome = (start.canonical? p).isSome) :
    t'.canonical? p = start.canonical? p := by
  have hnone {t : FileTree} (hn : hidden (p.target []))
      (ht : ∀ names, hidden names → t.node? names = none) : t.names? p = none := by
    cases hr : t.names? p with
    | none => rfl
    | some r =>
      have hnode := isSome_node?_of_names? hp hr
      rw [names?_eq_target_of_isAbsolute hp hr, ht _ hn] at hnode
      contradiction
  by_cases hn : hidden (p.target [])
  · unfold canonical?
    rw [hnone hn hclean, hnone hn hstart]
  · apply canonical?_congr hhere
    rw [← hexists, h.canonical?_eq_of_not hp hn]

end AgreeOff

end FileTree

/-! ### Templates -/

namespace Template

/-- The template at a path, for a handler. -/
def «at» (h : Handler) (p : Path) : Template := ofPath h.numbering h.config h.root p

/-- The names of the file with the compiled code of a template. -/
def place (h : Handler) (u : Template) : List Segment := h.cacheDir.target [] ++ [u.compiledName]

theorem isAbsolute_candidate (t : FileTree) (extension : String) {dir : Path} (file : List Char)
    (hdir : Path.isAbsolute dir = true) :
    Path.isAbsolute (candidate t extension dir file) = true := by
  unfold candidate
  dsimp only
  split <;> exact Path.isAbsolute_join hdir _

/-- What is found is a file at the candidate. -/
theorem find_eq (numbering : Numbering) (config : Config) (root : Path) (t : FileTree) {dir : Path}
    (file : List Char) (hdir : Path.isAbsolute dir = true) :
    find numbering config root t dir file =
      if t.isFile (candidate t config.extension dir file) then
        .ok (ofPath numbering config root
          (FileTree.pathOf ((candidate t config.extension dir file).target [])))
      else .error (.sourceNotFound (candidate t config.extension dir file)) := by
  have habs := isAbsolute_candidate t config.extension file hdir
  unfold find
  dsimp only
  generalize candidate t config.extension dir file = p at habs ⊢
  unfold FileTree.canonical?
  cases hr : t.names? p with
  | none =>
    have hfile : t.isFile p = false := by
      unfold FileTree.isFile FileTree.find?
      rw [hr]
      rfl
    rw [hfile]
    rfl
  | some r =>
    have hfound : t.isFile (FileTree.pathOf r) = t.isFile p := by
      unfold FileTree.isFile
      rw [FileTree.find?_pathOf habs hr]
    have htarget := FileTree.names?_eq_target_of_isAbsolute habs hr
    simp only [Option.map_some, hfound, ← htarget]

/-- The names of a template that was found. -/
theorem target_of_find {numbering : Numbering} {config : Config} {root : Path} {t : FileTree}
    {dir : Path} {file : List Char} {u : Template} (hdir : Path.isAbsolute dir = true)
    (h : find numbering config root t dir file = .ok u) :
    u.path.target [] = (candidate t config.extension dir file).target [] ∧
      u = ofPath numbering config root u.path ∧ Path.isAbsolute u.path = true := by
  have habs := isAbsolute_candidate t config.extension file hdir
  rw [find_eq _ _ _ _ _ hdir] at h
  split at h
  · rename_i hfile
    cases h
    obtain ⟨r, content, time, hr, -⟩ := FileTree.isFile_iff.mp hfile
    have hnames := (FileTree.names?_pathOf habs hr).1
    rw [FileTree.names?_eq_target_of_isAbsolute habs hr] at hnames
    exact ⟨FileTree.target_pathOf hnames, rfl, rfl⟩
  · contradiction

section Agreeing

variable {hidden : List Segment → Prop} {t t' : FileTree} {numbering : Numbering} {config : Config}
  {root dir : Path} {file : List Char}

/-- The candidate stays when files disappear, except for the candidate itself. -/
theorem candidate_eq {extension : String} (hsub : ∀ p, t'.isFile p = true → t.isFile p = true)
    (hkeep : t.isFile (candidate t extension dir file) = true →
      t'.isFile (candidate t extension dir file) = true) :
    candidate t' extension dir file = candidate t extension dir file := by
  unfold candidate at hkeep ⊢
  dsimp only at hkeep ⊢
  have hbare := hsub (dir.join file)
  have hextended := hsub (dir.join (file ++ '.' :: extension.toList))
  cases ht : t.isFile (dir.join file) with
  | true =>
    have hkeep' : t'.isFile (dir.join file) = true := by simpa [ht] using hkeep
    simp [hkeep']
  | false =>
    have hbare' : t'.isFile (dir.join file) = false := by
      rw [ht] at hbare
      simpa using hbare
    cases htx : t.isFile (dir.join (file ++ '.' :: extension.toList)) with
    | true =>
      simp only [ht, htx, Bool.not_false, Bool.true_and, if_true, true_implies] at hkeep
      simp [hbare', hkeep]
    | false =>
      have hextended' : t'.isFile (dir.join (file ++ '.' :: extension.toList)) = false := by
        rw [htx] at hextended
        simpa using hextended
      simp [hextended']

/-- A template that is found at names that are not hidden is found in both trees, when one of them
has all files of the other. -/
theorem find_eq_of_sub {u : Template} (h : FileTree.AgreeOff hidden t t')
    (hsub : ∀ p, t'.isFile p = true → t.isFile p = true) (hdir : Path.isAbsolute dir = true)
    (hu : ¬ hidden (u.path.target [])) (hfind : find numbering config root t dir file = .ok u) :
    find numbering config root t' dir file = .ok u := by
  rw [(target_of_find hdir hfind).1] at hu
  rw [find_eq _ _ _ _ _ hdir] at hfind ⊢
  split at hfind
  · rename_i hfile
    have habs := isAbsolute_candidate t config.extension file hdir
    have hsame : t'.isFile (candidate t config.extension dir file) = true := by
      rw [← h.isFile_eq (by rwa [Path.target_of_isAbsolute habs]), hfile]
    rw [candidate_eq hsub fun _ => hsame, hsame]
    exact hfind
  · contradiction

/-- A template that is not found is not found where there are fewer files. -/
theorem find_error_of_sub {e : TemplateError}
    (hsub : ∀ p, t'.isFile p = true → t.isFile p = true) (hdir : Path.isAbsolute dir = true)
    (hfind : find numbering config root t dir file = .error e) :
    find numbering config root t' dir file = .error e := by
  rw [find_eq _ _ _ _ _ hdir] at hfind ⊢
  split at hfind
  · contradiction
  · rename_i hfile
    rw [candidate_eq hsub fun hcandidate => absurd hcandidate hfile,
      if_neg fun hfile' => hfile (hsub _ hfile')]
    exact hfind

/-- A template that is found at names that are not hidden is found in both trees. -/
theorem find_eq_of_agreeOff {u : Template} (h : FileTree.AgreeOff hidden t t')
    (hclean : ∀ names, hidden names → t'.node? names = none) (hdir : Path.isAbsolute dir = true)
    (hu : ¬ hidden (u.path.target [])) (hfind : find numbering config root t dir file = .ok u) :
    find numbering config root t' dir file = .ok u :=
  find_eq_of_sub h (fun _ => h.isFile_of_clean hclean) hdir hu hfind

/-- A template that is not found is not found without the files at hidden names either. -/
theorem find_error_of_agreeOff {e : TemplateError} (h : FileTree.AgreeOff hidden t t')
    (hclean : ∀ names, hidden names → t'.node? names = none) (hdir : Path.isAbsolute dir = true)
    (hfind : find numbering config root t dir file = .error e) :
    find numbering config root t' dir file = .error e :=
  find_error_of_sub (fun _ => h.isFile_of_clean hclean) hdir hfind

end Agreeing

end Template

/-! ### Compiled files -/

section Compiled

variable {p : Path} {name : Segment} {t : FileTree}

theorem notMem_hexDigits (count n : Nat) : '/' ∉ hexDigits count n := by
  induction count generalizing n with
  | zero => simp [hexDigits]
  | succ count ih =>
    have hdigit : ∀ m < 16, '/' ≠ hexDigit m := by decide
    rw [hexDigits, List.mem_append, List.mem_singleton, not_or]
    exact ⟨ih _, hdigit _ (Nat.mod_lt _ (by decide))⟩

theorem Template.isFileName_compiledName (u : Template) : IsFileName u.compiledName := by
  have hlong : 13 ≤ u.compiledName.length := by
    unfold Template.compiledName
    rw [List.length_append]
    exact Nat.le_add_left ..
  refine ⟨?_, ?_, ?_⟩
  · unfold Path.isIdle
    rw [Bool.or_eq_false_iff]
    constructor
    · cases h : u.compiledName with
      | nil => simp [h] at hlong
      | cons _ _ => rfl
    · rw [beq_eq_false_iff_ne]
      intro h
      simp [h] at hlong
  · intro h
    simp [h] at hlong
  · unfold Template.compiledName
    rw [List.mem_append, not_or]
    exact ⟨notMem_hexDigits _ _, by decide⟩

/-- The segments of a name in a directory: those of the directory, except for idle ones at the end,
and the name. -/
theorem Path.split_join_name (hp : Path.isAbsolute p = true) (hname : IsFileName name) :
    ∃ base idles, Path.split (p.join name) = (.root, base ++ [name]) ∧
      (Path.split p).2 = base ++ idles ∧ ∀ s ∈ idles, Path.isIdle s = true := by
  have hrel : Path.isAbsolute name = false := by
    cases name with
    | nil => rfl
    | cons c cs =>
      unfold Path.isAbsolute
      split
      · rename_i hslash
        exact absurd (List.mem_cons_self ..) (hslash ▸ hname.slash)
      · rfl
  obtain ⟨cs, rfl, hsplit⟩ := Path.split_of_isAbsolute hp
  unfold Path.join
  rw [hrel, if_neg Bool.false_ne_true]
  split
  · rename_i hslash
    rcases List.eq_nil_or_concat cs with rfl | ⟨ds, c, rfl⟩
    · refine ⟨[], [[]], ?_, rfl, by simp [Path.isIdle]⟩
      change (Path.Start.root, splitText ['/'] name) = _
      rw [splitText_of_notMem hname.slash]
      rfl
    · have hc : c = '/' := by
        simpa [List.concat_eq_append, List.getLast?_cons] using hslash
      subst hc
      rw [List.concat_eq_append] at hsplit ⊢
      refine ⟨splitText ['/'] ds, [[]], ?_, ?_, by simp [Path.isIdle]⟩
      · have happ : '/' :: (ds ++ ['/']) ++ name = '/' :: (ds ++ '/' :: name) := by simp
        rw [happ]
        change (Path.Start.root, splitText ['/'] (ds ++ '/' :: name)) = _
        rw [splitText_join, splitText_of_notMem hname.slash]
      · rw [hsplit, splitText_join]
        rfl
  · refine ⟨splitText ['/'] cs, [], ?_, by rw [hsplit, List.append_nil], by simp⟩
    change (Path.Start.root, splitText ['/'] (cs ++ '/' :: name)) = _
    rw [splitText_join, splitText_of_notMem hname.slash]

/-- A name in a directory leads to the name after the names of the directory. -/
theorem Path.target_join_name (hp : Path.isAbsolute p = true) (hname : IsFileName name) :
    (p.join name).target [] = p.target [] ++ [name] := by
  obtain ⟨base, idles, hjoin, hsplit, hidles⟩ := Path.split_join_name hp hname
  obtain ⟨cs, -, hroot⟩ := Path.split_of_isAbsolute hp
  rw [hroot] at hsplit
  unfold Path.target
  rw [hjoin, hroot]
  dsimp only at hsplit ⊢
  rw [hsplit, leadFrom_append, leadFrom_append, leadFrom_idle _ hidles,
    leadFrom_of_names _ (by simpa using hname)]

theorem Path.dropIdleEnd_append (segs : List Segment) :
    ∃ idles, segs = Path.dropIdleEnd segs ++ idles ∧ ∀ s ∈ idles, Path.isIdle s = true := by
  refine ⟨(segs.reverse.takeWhile Path.isIdle).reverse, ?_, ?_⟩
  · unfold Path.dropIdleEnd
    rw [← List.reverse_append, List.takeWhile_append_dropWhile, List.reverse_reverse]
  · intro s hs
    exact List.mem_takeWhile_imp (List.mem_reverse.mp hs)

/-- The directory of a name in a directory leads to that directory. -/
theorem Path.parent?_join_name (hp : Path.isAbsolute p = true) (hname : IsFileName name) :
    ∃ dir, Path.parent? (p.join name) = some dir ∧ Path.isAbsolute dir = true ∧
      ∀ (t : FileTree) (r : List Segment), t.names? p = some r → t.names? dir = some r := by
  obtain ⟨base, idles, hjoin, hsplit, hidles⟩ := Path.split_join_name hp hname
  obtain ⟨ends, hbase, hends⟩ := Path.dropIdleEnd_append base
  refine ⟨Path.assemble .root (Path.dropIdleEnd base), ?_, rfl, ?_⟩
  · unfold Path.parent?
    simp [hjoin, hname.idle]
  · intro t r hr
    rw [t.names?_of_isAbsolute hp, hsplit, hbase, List.append_assoc, FileTree.follow_append] at hr
    obtain ⟨x, hx, hxr⟩ := Option.bind_eq_some_iff.mp hr
    have hidle : ∀ s ∈ ends ++ idles, Path.isIdle s = true := by
      intro s hs
      rcases List.mem_append.mp hs with hs | hs
      · exact hends s hs
      · exact hidles s hs
    have hxr' := FileTree.follow_eq_leadFrom hxr
    rw [leadFrom_idle _ hidle] at hxr'
    subst hxr'
    have hslash : ∀ s ∈ Path.dropIdleEnd base, '/' ∉ s := by
      obtain ⟨cs, -, hroot⟩ := Path.split_of_isAbsolute hp
      intro s hs
      rw [hroot] at hsplit
      have hmem : s ∈ splitText ['/'] cs := by
        rw [show splitText ['/'] cs = base ++ idles from hsplit, hbase]
        simp [hs]
      exact notMem_of_mem_splitText hmem
    rw [t.names?_of_isAbsolute rfl]
    change t.follow [] (splitText ['/'] (Path.joinSegments (Path.dropIdleEnd base))) = _
    by_cases hnil : Path.dropIdleEnd base = []
    · rw [hnil] at hx ⊢
      cases hx
      rfl
    · rw [splitText_joinSegments hnil hslash]
      exact hx

/-- Directories that are there are not made. -/
theorem FileTree.makeAlong_of_follow {names segs r : List Segment}
    (h : t.follow names segs = some r) (hdir : t.isDirAt r = true) :
    t.makeAlong names segs = (t, true) := by
  induction segs generalizing names with
  | nil =>
    cases h
    simp [makeAlong, hdir]
  | cons s rest ih =>
    simp only [follow] at h
    unfold makeAlong
    split at h
    · rw [if_pos ‹_›]
      split at h
      · rw [if_pos ‹_›]
        exact ih h
      · rw [if_neg ‹_›]
        split at h
        · rw [if_pos ‹_›]
          exact ih h
        · rw [if_neg ‹_›]
          split at h
          · rw [if_pos ‹_›]
            exact ih h
          · contradiction
    · contradiction

/-- **Writing compiled code sets one file of the cache directory**, as long as the directory is
there. -/
theorem Handler.writeCompiled_eq (hp : Path.isAbsolute p = true) (hname : IsFileName name)
    (hdir : t.find? p = some .dir) (code : List Char) (now : Nat) :
    Handler.writeCompiled t (p.join name) name code now =
      if t.node? (p.target [] ++ [name]) = some .dir then t
      else t.setNode (p.target [] ++ [name]) (.file (.text code) now) := by
  obtain ⟨dir, hparent, habs, hlead⟩ := Path.parent?_join_name hp hname
  obtain ⟨r, hr, hnode⟩ := Option.bind_eq_some_iff.mp hdir
  have hisDir : t.isDirAt r = true := by simpa [FileTree.isDirAt] using hnode
  have hdirNames := hlead t r hr
  have htarget := FileTree.names?_eq_target_of_isAbsolute hp hr
  have hmake : t.makeDirs dir = (t, true) := by
    have hfollow := hdirNames
    rw [t.names?_of_isAbsolute habs] at hfollow
    unfold FileTree.makeDirs
    rw [t.startOf_of_isAbsolute habs]
    exact FileTree.makeAlong_of_follow hfollow hisDir
  unfold Handler.writeCompiled
  rw [hparent]
  dsimp only
  rw [hmake]
  dsimp only
  unfold FileTree.write?
  rw [hdirNames, ← htarget]
  by_cases hplace : t.node? (r ++ [name]) = some .dir
  · simp [hplace]
  · simp [hplace, hisDir]

end Compiled

end Stencil
