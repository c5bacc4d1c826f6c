import Stencil.Proofs.Caching.Entries
import Stencil.Proofs.Caching.Lookups

/-!
# Loading with a cache and without one

Two worlds stand side by side: one in which compiled code and parsed programs are kept, and one in
which nothing is.  The first one is sound when every code that is fresh for a template, as the
template is now, is the code of the template, and when every program that is kept is the program of
its code.  Loading a template then gives the same program or failure in both worlds, and leaves
them sound.

What a compilation looks up must not have changed in between: compiled code depends on it, but its
freshness does not.  That is asked of every load.

## Main definitions

* `Handler.Current` — the code that is kept for a template is its code now, if it is fresh.
* `Handler.Sound` — the invariant of a world with a cache beside one without.
* `Handler.Fine` — a load of a template outside the cache directory, whose lookups are as at the
  start.

## Main results

* `Handler.Sound.alike_load` — a load with a cache and one without end alike.
* `Handler.Sound.store_follows` — so do the stores, unless a load is not fine.
-/

namespace Stencil

/-- Every program that is kept is the program of its code. -/
def HoldsPrograms (programs : Assoc Nat (List Char × Program)) : Prop :=
  ∀ (u : Template) (code : List Char) (program : Program),
    Assoc.get? programs u.identity = some (code, program) → u.parse code = .ok program

theorem Template.parse_congr {u v : Template} (huv : u.identity = v.identity) (code : List Char) :
    u.parse code = v.parse code := by
  unfold Template.parse Template.programName
  rw [huv]

theorem holdsPrograms_insert {programs : Assoc Nat (List Char × Program)} {u : Template}
    {code : List Char} {program : Program} (hp : HoldsPrograms programs)
    (hparse : u.parse code = .ok program) :
    HoldsPrograms (Assoc.insert programs u.identity (code, program)) := by
  intro v code' program' hv
  by_cases huv : u.identity = v.identity
  · rw [huv, Assoc.get?_insert_self] at hv
    cases hv
    rw [← Template.parse_congr huv]
    exact hparse
  · rw [Assoc.get?_insert_of_ne _ huv] at hv
    exact hp v code' program' hv

theorem isAbsolute_of_mem_lookups {root template declared q : Path}
    (hroot : Path.isAbsolute root = true) (htemplate : Path.isAbsolute template = true)
    (hq : q ∈ lookups root template declared) : Path.isAbsolute q = true := by
  unfold lookups at hq
  dsimp only at hq
  cases hdir : Path.parent? template with
  | none => simp [hdir] at hq
  | some dir =>
    have habs := Path.isAbsolute_of_parent? htemplate hdir
    rw [hdir] at hq
    dsimp only at hq
    split at hq
    · cases hq
    · split at hq
      · rename_i hrooted
        rw [hrooted] at hq
        rcases List.mem_cons.mp hq with rfl | hq
        · exact Path.isAbsolute_join hroot _
        · cases List.mem_singleton.mp hq
          rfl
      · rcases List.mem_cons.mp hq with rfl | hq
        · exact Path.isAbsolute_join habs _
        · obtain ⟨rest, -, rfl⟩ := Option.map_eq_some_iff.mp (Option.mem_toList.mp hq)
          exact Path.isAbsolute_join habs _

namespace Handler

variable {h : Handler} {start : FileTree} {w v : World} {u : Template}

/-- The code that is kept for the template at a path is the one that it would be given now, unless
the template or the compiler is newer. -/
def Current (h : Handler) (start tree : FileTree) (p : Path) (code : List Char) (time : Nat) :
    Prop :=
  ∀ content changed, tree.node? (p.target []) = some (.file content changed) →
    max changed h.compilerTime ≤ time →
    ∃ source program, content = .text source ∧ h.codeOf start (.at h p) source = .ok code ∧
      (Template.at h p).parse code = .ok program

/-- A world with a cache, `w`, beside one without, `v`. -/
structure Sound (h : Handler) (start : FileTree) (w v : World) : Prop where
  /-- Compiled files aside, the files are the same. -/
  trees : FileTree.AgreeOff h.IsPlace w.tree v.tree
  /-- Without a cache there are no compiled files. -/
  clean : ∀ names, h.IsPlace names → v.tree.node? names = none
  here : v.tree.here = start.here
  distinct : (Assoc.keys w.tree.nodes).Nodup ∧ (Assoc.keys v.tree.nodes).Nodup
  events : w.events = v.events
  cacheDir : w.tree.find? h.cacheDir = some .dir
  codes : HoldsCode w
  programs : HoldsPrograms w.programs
  entries : ∀ p code time, h.entry? w (.at h p) = some (code, time) →
    h.Current start v.tree p code time

/-- A load of a template with the files at that time: the template lies outside the cache
directory, and every path that a directive of it names exists if and only if it did at the start. -/
structure Fine (h : Handler) (start : FileTree) (load : Template × FileTree) : Prop where
  outside : ¬ h.InCache (load.1.path.target [])
  steady : ∀ source, load.2.read? load.1.path = some source →
    ∀ q ∈ h.compiler.lookups load.1.path load.1.webPath source,
      (load.2.canonical? q).isSome = (start.canonical? q).isSome

instance (h : Handler) (start : FileTree) (load : Template × FileTree) :
    Decidable (h.Fine start load) :=
  match hsource : load.2.read? load.1.path with
  | none =>
    decidable_of_iff (¬ h.InCache (load.1.path.target []))
      ⟨fun hout => ⟨hout, fun _ hread => by rw [hsource] at hread; cases hread⟩, Fine.outside⟩
  | some source =>
    decidable_of_iff (¬ h.InCache (load.1.path.target []) ∧
        ∀ q ∈ h.compiler.lookups load.1.path load.1.webPath source,
          (load.2.canonical? q).isSome = (start.canonical? q).isSome)
      ⟨fun hfine => ⟨hfine.1, fun _ hread => by rw [hsource] at hread; cases hread; exact hfine.2⟩,
        fun hfine => ⟨hfine.outside, hfine.steady source hsource⟩⟩

theorem codeOf_congr {t t' : FileTree} {source : List Char}
    (hq : ∀ q ∈ h.compiler.lookups u.path u.webPath source, t.canonical? q = t'.canonical? q) :
    h.codeOf t u source = h.codeOf t' u source := by
  unfold codeOf
  rw [h.compiler.compile_congr hq]

/-- The program of a code, from the table or parsed anew; the table holds programs of their codes
before and after. -/
theorem program_cases (hp : HoldsPrograms w.programs) (u : Template) (code : List Char) :
    (∃ e, u.parse code = .error e ∧ program u code w = .error e w) ∨
      ∃ program programs, u.parse code = .ok program ∧ HoldsPrograms programs ∧
        Handler.program u code w = .ok program { w with programs := programs } := by
  rw [program_eq]
  cases hfound : (Assoc.get? w.programs u.identity).filter fun kept => kept.1 == code with
  | some entry =>
    rcases entry with ⟨code', program⟩
    obtain ⟨hentry, hcode⟩ := Option.filter_eq_some_iff.mp hfound
    have hcode : code' = code := by simpa using hcode
    subst hcode
    exact .inr ⟨program, w.programs, hp u _ _ hentry, hp, rfl⟩
  | none =>
    cases hparse : u.parse code with
    | error e => exact .inl ⟨e, rfl, rfl⟩
    | ok program => exact .inr ⟨program, _, rfl, holdsPrograms_insert hp hparse, rfl⟩

namespace Sound

/-- Soundness is about the files, the code and the programs that are kept, and the resources asked
for. -/
theorem congr (hs : h.Sound start w v) {w' v' : World} (htree : w'.tree = w.tree)
    (hmemory : w'.memory = w.memory) (hprograms : HoldsPrograms w'.programs)
    (hevents : w'.events = v'.events) (hv : v'.tree = v.tree) : h.Sound start w' v' := by
  have hentry : ∀ u, h.entry? w' u = h.entry? w u := by
    intro u
    unfold entry?
    rw [htree, hmemory]
  refine
    { trees := by rw [htree, hv]; exact hs.trees
      clean := by rw [hv]; exact hs.clean
      here := by rw [hv]; exact hs.here
      distinct := by rw [htree, hv]; exact hs.distinct
      events := hevents
      cacheDir := by rw [htree]; exact hs.cacheDir
      codes := ?_
      programs := hprograms
      entries := ?_ }
  · intro key e he
    rw [hmemory] at he
    exact hs.codes key e he
  · intro p code time hkept
    rw [hentry] at hkept
    rw [hv]
    exact hs.entries p code time hkept

section Loading

variable (hroot : Path.isAbsolute h.root = true)
  (hinj : ∀ p q, h.numbering p h.config.version = h.numbering q h.config.version → p = q)
  (hstart : ∀ names, h.IsPlace names → start.node? names = none)

include hroot hinj in
/-- The world stays sound when the code of a template is kept. -/
theorem keep (hs : h.Sound start w v) {p : Path} {code : List Char}
    (hcurrent : h.Current start v.tree p code w.now) :
    h.Sound start (h.keep (.at h p) code w) v := by
  have hplaces := fun names hn => (hs.trees.noDir names hn).1
  have hagree : FileTree.AgreeOff h.IsPlace (h.keep (.at h p) code w).tree w.tree :=
    agreeOff_keep hroot hs.cacheDir hplaces code
  have hplace := hplaces _ (isPlace_place h (.at h p))
  obtain ⟨hprograms, hevents⟩ := keep_others h (.at h p) code w
  refine
    { trees := hagree.trans hs.trees
      clean := hs.clean
      here := hs.here
      distinct := ⟨?_, hs.distinct.2⟩
      events := hevents.trans hs.events
      cacheDir := ?_
      codes := holdsCode_keep hs.codes
      programs := by rw [hprograms]; exact hs.programs
      entries := ?_ }
  · rw [tree_keep hroot hs.cacheDir hplace code]
    cases h.backend with
    | memory => exact hs.distinct.1
    | files => exact Assoc.nodup_keys_insert hs.distinct.1 _ _
  · rw [hagree.find?_eq]
    · exact hs.cacheDir
    · rw [Path.target_of_isAbsolute (isAbsolute_cacheDir hroot)]
      exact not_isPlace_cacheDir h
  · intro q code' time hentry
    rw [entry?_keep hroot hs.cacheDir hplace] at hentry
    split at hentry
    · rename_i hidentity
      cases hentry
      -- the identities are different for different paths
      have hpq : q = p := hinj q p hidentity
      subst hpq
      exact hcurrent
    · exact hs.entries q code' time hentry

include hroot hstart in
/-- A template that is compiled is compiled as at the start, with a cache and without. -/
theorem codeOf_eq (hs : h.Sound start w v) (hfine : h.Fine start (u, w.tree))
    (habs : Path.isAbsolute u.path = true) {source : List Char}
    (hsource : w.tree.read? u.path = some source) :
    h.codeOf w.tree u source = h.codeOf start u source ∧
      h.codeOf v.tree u source = h.codeOf start u source := by
  constructor
  · apply codeOf_congr
    intro q hq
    exact FileTree.canonical?_congr (hs.trees.here.trans hs.here) (hfine.steady source hsource q hq)
  · apply codeOf_congr
    intro q hq
    have hqabs : Path.isAbsolute q = true := by
      obtain ⟨declared, -, hq⟩ := List.mem_flatMap.mp hq
      exact isAbsolute_of_mem_lookups hroot habs hq
    exact hs.trees.canonical?_eq hs.clean hstart hs.here hqabs (hfine.steady source hsource q hq)

include hroot hstart in
/-- A template whose kept code is fresh: what is kept is what compiling it afresh gives. -/
theorem alike_reused (hs : h.Sound start w v) {p : Path} (habs : Path.isAbsolute p = true)
    (hfine : h.Fine start (.at h p, w.tree)) (hfind : w.tree.find? p = v.tree.find? p)
    {content : Content} {time : Nat} (hfile : w.tree.find? p = some (.file content time))
    {code : List Char} (hkept : h.kept (.at h p) (max time h.compilerTime) w = some code) :
    Alike (h.Sound start) (program (.at h p) code { w with reused := w.reused + 1 })
      (h.loadAfresh (.at h p) v) := by
  have hnode := FileTree.node?_target_of_find? habs (hfind ▸ hfile)
  obtain ⟨stored, hentry, hfresh⟩ := entry?_of_kept hroot hs.codes hkept
  obtain ⟨source, program, rfl, hcode, hparse⟩ :=
    hs.entries p code stored hentry content time hnode hfresh
  have hsource : w.tree.read? p = some source := by
    unfold FileTree.read?
    rw [hfile]
  have hsource' : v.tree.read? (Template.at h p).path = some source :=
    (FileTree.read?_congr hfind).symm.trans hsource
  have hafresh := (hs.codeOf_eq hroot hstart hfine habs hsource).2
  rw [loadAfresh_eq, hsource']
  dsimp only
  rw [hafresh, hcode]
  dsimp only
  rw [hparse]
  have hcounted : h.Sound start { w with reused := w.reused + 1 }
      { v with compiled := v.compiled + 1 } := hs.congr rfl rfl hs.programs hs.events rfl
  rcases program_cases hcounted.programs (.at h p) code with
    ⟨e, herror, -⟩ | ⟨program', programs, hok, hprograms, heq⟩
  · rw [hparse] at herror
    cases herror
  · rw [hparse] at hok
    cases hok
    rw [heq]
    exact .ok (hcounted.congr rfl rfl hprograms hcounted.events rfl)

include hroot hinj hstart in
/-- A template that is compiled: the code is the one that compiling it afresh gives, and current
when it is kept. -/
theorem alike_compiled (hs : h.Sound start w v) {p : Path} (habs : Path.isAbsolute p = true)
    (hfine : h.Fine start (.at h p, w.tree)) (hfind : w.tree.find? p = v.tree.find? p) :
    Alike (h.Sound start) (h.loadAnew (.at h p) w) (h.loadAfresh (.at h p) v) := by
  have hread : v.tree.read? (Template.at h p).path = w.tree.read? (Template.at h p).path :=
    (FileTree.read?_congr hfind).symm
  rw [loadAnew_eq, loadAfresh_eq, compile_eq, hread]
  cases hsource : w.tree.read? (Template.at h p).path with
  | none => exact .error hs
  | some source =>
    dsimp only
    obtain ⟨hcached, hafresh⟩ := hs.codeOf_eq hroot hstart hfine habs hsource
    rw [hcached, hafresh]
    have hcounted : h.Sound start { w with compiled := w.compiled + 1 }
        { v with compiled := v.compiled + 1 } := hs.congr rfl rfl hs.programs hs.events rfl
    cases hcode : h.codeOf start (.at h p) source with
    | error e => exact .error hcounted
    | ok code =>
      dsimp only
      rcases program_cases hcounted.programs (.at h p) code with
        ⟨e, herror, heq⟩ | ⟨program, programs, hok, hprograms, heq⟩
      · rw [heq, herror]
        exact .error hcounted
      · rw [heq, hok]
        dsimp only
        have hsound : h.Sound start { w with compiled := w.compiled + 1, programs := programs }
            { v with compiled := v.compiled + 1 } :=
          hcounted.congr rfl rfl hprograms hcounted.events rfl
        refine .ok (hsound.keep hroot hinj ?_)
        intro content changed hnode _
        obtain ⟨time, hfile⟩ := FileTree.find?_of_read? hsource
        have htext := FileTree.node?_target_of_find? habs (hfind ▸ hfile)
        have heq : some (Node.file content changed) = some (.file (.text source) time) :=
          hnode.symm.trans htext
        cases heq
        exact ⟨source, program, rfl, hcode, hok⟩

include hroot hinj hstart in
/-- **A load with a cache and one without end alike**, in worlds that are sound again. -/
theorem alike_load (hs : h.Sound start w v) {p : Path} (habs : Path.isAbsolute p = true)
    (hfine : h.Fine start (.at h p, w.tree)) :
    Alike (h.Sound start) (h.load (.at h p) w) (h.loadAfresh (.at h p) v) := by
  have hfind : w.tree.find? p = v.tree.find? p := by
    apply hs.trees.find?_eq
    rw [Path.target_of_isAbsolute habs]
    exact fun hn => hfine.outside hn.inCache
  rw [load_eq]
  cases htime : w.tree.time? (Template.at h p).path with
  | none =>
    have hnone : v.tree.read? (Template.at h p).path = none :=
      (FileTree.read?_congr hfind).symm.trans (FileTree.read?_eq_none htime)
    rw [loadAfresh_eq, hnone]
    exact .error hs
  | some time =>
    dsimp only
    cases hkept : h.kept (.at h p) (max time h.compilerTime) w with
    | some code =>
      obtain ⟨content, hfile⟩ := FileTree.find?_of_time? htime
      exact hs.alike_reused hroot hstart habs hfine hfind hfile hkept
    | none => exact hs.alike_compiled hroot hinj hstart habs hfine hfind

/-! ### Stores -/

/-- A world with notes beside one without a cache; it gets lost when a load is not fine. -/
def bond (h : Handler) (start : FileTree) : Bond (World × List (Template × FileTree)) World where
  holds s v := h.Sound start s.1 v
  lost s := ∃ load ∈ s.2, ¬ h.Fine start load

include hroot hinj hstart in
/-- As long as every load is fine, the store with a cache finds and loads as the one without. -/
theorem store_follows : h.cached.noting.Follows h (bond h start) h.afresh where
  record_lost _ _ hs := hs
  record event s v hs := by
    have hs : h.Sound start s.1 v := hs
    exact hs.congr rfl rfl hs.programs (congrArg (· ++ [event]) hs.events) rfl
  load_lost u s := by
    rintro ⟨load, hload, hnot⟩
    exact ⟨load, by rw [endState_noting]; exact List.mem_append_left _ hload, hnot⟩
  found dir file u s v hs hfind := by
    have hs : h.Sound start s.1 v := hs
    have hdir : Path.isAbsolute (h.root.join dir) = true := Path.isAbsolute_join hroot dir
    obtain ⟨-, hu, habs⟩ := Template.target_of_find hdir hfind
    by_cases hfine : h.Fine start (u, s.1.tree)
    · right
      constructor
      · exact Template.find_eq_of_agreeOff hs.trees hs.clean hdir
          (fun hn => hfine.outside hn.inCache) hfind
      · have hu : u = .at h u.path := hu
        rw [hu] at hfine
        have halike := hs.alike_load hroot hinj hstart habs hfine
        rw [← hu] at halike
        exact Handler.alike_noting halike
    · left
      refine ⟨(u, s.1.tree), ?_, hfine⟩
      rw [endState_noting]
      exact List.mem_append_right _ (List.mem_singleton_self _)
  missing dir file e s v hs hfind := by
    have hs : h.Sound start s.1 v := hs
    exact Template.find_error_of_agreeOff hs.trees hs.clean (Path.isAbsolute_join hroot dir) hfind

end Loading

end Sound

end Handler

end Stencil
