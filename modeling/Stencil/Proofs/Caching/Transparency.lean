import Stencil.Proofs.Caching.Soundness

/-!
# Caches are transparent

Templates are edited and removed, and handlers that share what they keep render them, in any order.
Every render then answers what it would answer if each template were compiled afresh: the same
output or failure, the same context, and the same resources asked for.

Several handlers with the same settings share the compiled code, in memory or in files, and each of
them keeps its own programs.  An edit has to be newer than everything stored before it; what is
stored later is then known to be current.  Nothing is asked of the clock.

## Main definitions

* `Site` — the world that handlers share, with the programs that each of them keeps.
* `Incident` — an edit, a removal or a render.
* `Site.answers` — what the renders of a run answer.
* `Handler.Starts`, `Handler.Allowed` — a site at the start, and the runs that are looked at.

## Main results

* `Handler.answers_eq_afresh` — the renders of a run answer as without a cache.
* `Handler.answers_renderOrTell` — so do those that tell of a template that does not exist.
-/

namespace Stencil

/-- The world that handlers with the same settings share, and the programs that each one keeps. -/
structure Site where
  /-- The files, and the compiled code that is kept. -/
  world : World
  /-- The programs of each handler. -/
  tables : Nat → Assoc Nat (List Char × Program) := fun _ => []

/-- Something that happens at a site. -/
inductive Incident where
  /-- A file is written, with its content and the time of the change, or a directory is made. -/
  | put (names : List Segment) (node : Node) : Incident
  /-- What stands at names is removed. -/
  | drop (names : List Segment) : Incident
  /-- A handler renders the template with a directory and a file name at a time. -/
  | render (handler now : Nat) (dir : Path) (file : List Char) (ctx : Context) : Incident

/-- What a render answers: its result, the context afterwards, and the resources asked for. -/
abbrev Answer := Except TemplateError String × Context × List ResourceEvent

/-- A way to render the template with a directory and a file name. -/
abbrev Rendering :=
  Path → List Char → Context → World → Except TemplateError String × Context × World

namespace Site

/-- The site with a file written or a directory made. -/
def put (s : Site) (names : List Segment) (node : Node) : Site :=
  { s with world := { s.world with tree := s.world.tree.setNode names node } }

/-- The site without what stands at names. -/
def drop (s : Site) (names : List Segment) : Site :=
  let tree := s.world.tree
  { s with
    world := { s.world with tree := { tree with nodes := Assoc.erase tree.nodes names } } }

/-- The world of a handler that starts to render, with nothing asked for yet. -/
def enter (s : Site) (handler now : Nat) : World :=
  { s.world with now, programs := s.tables handler, events := [] }

/-- The site after a handler has rendered. -/
def leave (s : Site) (handler : Nat) (w : World) : Site :=
  { world := w, tables := fun i => if i = handler then w.programs else s.tables i }

/-- What the renders of a run answer, in order. -/
def answers (render : Rendering) : Site → List Incident → List Answer
  | _, [] => []
  | s, .put names node :: rest => answers render (s.put names node) rest
  | s, .drop names :: rest => answers render (s.drop names) rest
  | s, .render handler now dir file ctx :: rest =>
    match render dir file ctx (s.enter handler now) with
    | (result, after, w) => (result, after, w.events) :: answers render (s.leave handler w) rest

end Site

namespace Handler

/-! ### Runs -/

/-- The times at which what is kept was stored. -/
def storeTimes (h : Handler) (w : World) : List Nat :=
  match h.backend with
  | .memory => w.memory.map fun e => e.2.storedAt
  | .files =>
    w.tree.nodes.filterMap fun e =>
      match e.2 with
      | .file _ time => if h.IsPlace e.1 then some time else none
      | .dir => none

/-- A file is newer than all of the times. -/
def IsNewer (times : List Nat) : Node → Prop
  | .file _ changed => ∀ time ∈ times, time < changed
  | .dir => True

/-- A change to the files outside the cache directory, which stays. -/
def KeepsCache (h : Handler) (names : List Segment) (after : Site) : Prop :=
  ¬ h.InCache names ∧ after.world.tree.find? h.cacheDir = some .dir

/-- The runs that are looked at, in which `start` are the files at the start.  Nothing outside the
renders touches the cache directory, and edits are newer than all that is stored at that time.
Renders load templates outside the cache directory, and what their directives name exists if and
only if it did at the start. -/
def Allowed (h : Handler) (start : FileTree) : Site → List Incident → Prop
  | _, [] => True
  | s, .put names node :: rest =>
    h.KeepsCache names (s.put names node) ∧ IsNewer (h.storeTimes s.world) node ∧
      Allowed h start (s.put names node) rest
  | s, .drop names :: rest =>
    h.KeepsCache names (s.drop names) ∧ Allowed h start (s.drop names) rest
  | s, .render handler now dir file ctx :: rest =>
    (∀ load ∈ h.loads dir file ctx (s.enter handler now), h.Fine start load) ∧
      Allowed h start (s.leave handler (h.render dir file ctx (s.enter handler now)).2.2) rest

/-- A site at the start: the cache directory is there, and nothing is kept yet. -/
structure Starts (h : Handler) (s : Site) : Prop where
  root : Path.isAbsolute h.root = true
  distinct : (Assoc.keys s.world.tree.nodes).Nodup
  cacheDir : s.world.tree.find? h.cacheDir = some .dir
  clean : ∀ names ∈ Assoc.keys s.world.tree.nodes, ¬ h.IsPlace names
  memory : s.world.memory = []
  tables : ∀ handler, s.tables handler = []

instance (times : List Nat) (node : Node) : Decidable (IsNewer times node) :=
  match node with
  | .file _ changed => inferInstanceAs (Decidable (∀ time ∈ times, time < changed))
  | .dir => .isTrue trivial

instance (h : Handler) (names : List Segment) (after : Site) :
    Decidable (h.KeepsCache names after) :=
  inferInstanceAs (Decidable (_ ∧ _))

instance decidableAllowed (h : Handler) (start : FileTree) :
    ∀ (s : Site) (incidents : List Incident), Decidable (h.Allowed start s incidents)
  | _, [] => .isTrue trivial
  | s, .put names node :: rest =>
    have := decidableAllowed h start (s.put names node) rest
    inferInstanceAs (Decidable (_ ∧ _ ∧ _))
  | s, .drop names :: rest =>
    have := decidableAllowed h start (s.drop names) rest
    inferInstanceAs (Decidable (_ ∧ _))
  | s, .render handler now dir file ctx :: rest =>
    have := decidableAllowed h start
      (s.leave handler (h.render dir file ctx (s.enter handler now)).2.2) rest
    inferInstanceAs (Decidable (_ ∧ _))

variable {h : Handler} {start : FileTree} {w v : World} {s r : Site} {names : List Segment}

theorem Starts.node?_eq_none (hstarts : h.Starts s) (names : List Segment)
    (hn : h.IsPlace names) : s.world.tree.node? names = none := by
  unfold FileTree.node?
  rw [if_neg]
  · exact Assoc.get?_eq_none fun hmem => hstarts.clean names hmem hn
  · rintro rfl
    exact not_isPlace_nil h hn

/-- What is kept for a template has one of the times. -/
theorem mem_storeTimes {u : Template} {code : List Char} {time : Nat}
    (hentry : h.entry? w u = some (code, time)) : time ∈ h.storeTimes w := by
  unfold entry? at hentry
  unfold storeTimes
  cases hbackend : h.backend with
  | memory =>
    simp only [hbackend] at hentry ⊢
    split at hentry
    · rename_i hget
      cases hentry
      exact List.mem_map.mpr ⟨_, Assoc.mem_of_get? hget, rfl⟩
    · cases hentry
  | files =>
    simp only [hbackend] at hentry ⊢
    split at hentry
    · rename_i hnode
      cases hentry
      unfold FileTree.node? at hnode
      rw [if_neg (by unfold Template.place; simp)] at hnode
      refine List.mem_filterMap.mpr ⟨_, Assoc.mem_of_get? hnode, ?_⟩
      simp [isPlace_place h u]
    · cases hentry

/-! ### Edits -/

/-- A change of the files at names outside the cache directory: the world stays sound, when the new
node is newer than what is kept. -/
theorem Sound.change (hs : h.Sound start w v) (hout : ¬ h.InCache names) {t t' : FileTree}
    {node : Option Node} (hw : ∀ other, t.node? other =
      if other = names ∧ names ≠ [] then node else w.tree.node? other)
    (hv : ∀ other, t'.node? other =
      if other = names ∧ names ≠ [] then node else v.tree.node? other)
    (hhere : t.here = w.tree.here ∧ t'.here = v.tree.here)
    (hdistinct : (Assoc.keys t.nodes).Nodup ∧ (Assoc.keys t'.nodes).Nodup)
    (hcacheDir : t.find? h.cacheDir = some .dir)
    (hnewer : ∀ n, node = some n → IsNewer (h.storeTimes w) n) :
    h.Sound start { w with tree := t } { v with tree := t' } := by
  have hplace : ∀ other, h.IsPlace other → ¬ (other = names ∧ names ≠ []) := by
    rintro other hn ⟨rfl, -⟩
    exact hout hn.inCache
  have hentry : ∀ u, h.entry? { w with tree := t } u = h.entry? w u := by
    intro u
    unfold entry?
    dsimp only
    rw [hw, if_neg (hplace _ (isPlace_place h u))]
  refine
    { trees := ⟨?_, fun other hn => ?_, fun other hn => ?_⟩
      clean := fun other hn => ?_
      here := hhere.2.trans hs.here
      distinct := hdistinct
      events := hs.events
      cacheDir := hcacheDir
      codes := hs.codes
      programs := hs.programs
      entries := ?_ }
  · exact hhere.1.trans (hs.trees.here.trans hhere.2.symm)
  · dsimp only
    rw [hw, hv, hs.trees.same other hn]
  · have hbefore := hs.trees.noDir other hn
    unfold FileTree.isDirAt at hbefore ⊢
    dsimp only
    rw [hw, hv, if_neg (hplace other hn), if_neg (hplace other hn)]
    exact hbefore
  · dsimp only
    rw [hv, if_neg (hplace other hn)]
    exact hs.clean other hn
  · intro p code time hkept content changed hnode hfresh
    rw [hentry] at hkept
    dsimp only at hnode
    rw [hv] at hnode
    split at hnode
    · -- the file is newer than what is kept, which does not count any more
      have hlt : time < changed := hnewer _ hnode time (mem_storeTimes hkept)
      omega
    · exact hs.entries p code time hkept content changed hnode hfresh

/-- An edit that is newer than what is kept leaves the world sound. -/
theorem Sound.put (hs : h.Sound start w v) (hout : ¬ h.InCache names) {node : Node}
    (hcacheDir : (w.tree.setNode names node).find? h.cacheDir = some .dir)
    (hnewer : IsNewer (h.storeTimes w) node) :
    h.Sound start { w with tree := w.tree.setNode names node }
      { v with tree := v.tree.setNode names node } := by
  have hnode : ∀ (t : FileTree) other, (t.setNode names node).node? other =
      if other = names ∧ names ≠ [] then some node else t.node? other := by
    intro t other
    by_cases heq : other = names
    · subst heq
      by_cases hnil : other = []
      · subst hnil
        rfl
      · rw [FileTree.node?_setNode_self _ hnil, if_pos ⟨rfl, hnil⟩]
    · rw [FileTree.node?_setNode_of_ne _ (Ne.symm heq), if_neg fun hand => heq hand.1]
  refine hs.change hout (hnode _) (hnode _) ⟨rfl, rfl⟩
    ⟨Assoc.nodup_keys_insert hs.distinct.1 _ _, Assoc.nodup_keys_insert hs.distinct.2 _ _⟩
    hcacheDir ?_
  rintro n ⟨⟩
  exact hnewer

/-- A removal leaves the world sound. -/
theorem Sound.drop (hs : h.Sound start w v) (hout : ¬ h.InCache names)
    (hcacheDir : FileTree.find? { w.tree with nodes := Assoc.erase w.tree.nodes names } h.cacheDir =
      some .dir) :
    h.Sound start { w with tree := { w.tree with nodes := Assoc.erase w.tree.nodes names } }
      { v with tree := { v.tree with nodes := Assoc.erase v.tree.nodes names } } := by
  have hnode : ∀ (t : FileTree), (Assoc.keys t.nodes).Nodup → ∀ other,
      FileTree.node? { t with nodes := Assoc.erase t.nodes names } other =
        if other = names ∧ names ≠ [] then none else t.node? other := by
    intro t hdistinct other
    unfold FileTree.node?
    by_cases heq : other = names
    · subst heq
      by_cases hnil : other = []
      · simp [hnil]
      · simp [hnil, Assoc.get?_erase_self hdistinct]
    · have hother : ¬ (other = names ∧ names ≠ []) := fun hand => heq hand.1
      rw [if_neg hother]
      dsimp only
      rw [Assoc.get?_erase_of_ne _ (Ne.symm heq)]
  refine hs.change hout (hnode _ hs.distinct.1) (hnode _ hs.distinct.2) ⟨rfl, rfl⟩
    ⟨(Assoc.nodup_keys_erase hs.distinct.1 _).1, (Assoc.nodup_keys_erase hs.distinct.2 _).1⟩
    hcacheDir ?_
  rintro n ⟨⟩

/-! ### Renders -/

section Renders

variable (hroot : Path.isAbsolute h.root = true)
  (hinj : ∀ p q, h.numbering p h.config.version = h.numbering q h.config.version → p = q)
  (hstart : ∀ names, h.IsPlace names → start.node? names = none)

include hroot hinj hstart in
/-- **A render with a cache and one without end alike**, in worlds that are sound again, when all
loads are fine. -/
theorem Sound.render (hs : h.Sound start w v) (dir : Path) (file : List Char) (ctx : Context)
    (hfine : ∀ load ∈ h.loads dir file ctx w, h.Fine start load) :
    (h.render dir file ctx w).1 = (h.renderOver h.afresh dir file ctx v).1 ∧
      (h.render dir file ctx w).2.1 = (h.renderOver h.afresh dir file ctx v).2.1 ∧
      h.Sound start (h.render dir file ctx w).2.2 (h.renderOver h.afresh dir file ctx v).2.2 := by
  have hsame := same_renderOver (Sound.store_follows hroot hinj hstart) dir file ctx
    (s := (w, [])) (t := v) hs
  obtain ⟨notes, hnoted⟩ := renderOver_noting h h.cached dir file ctx w []
  rw [← render_eq] at hnoted
  unfold loads at hfine
  rw [hnoted] at hfine hsame
  rcases hsame with ⟨load, hload, hnot⟩ | hsame
  · exact absurd (hfine load hload) hnot
  · exact hsame

include hroot hinj hstart in
/-- Sites side by side answer alike, when they are sound for every handler. -/
theorem answers_eq_of_sound (hs : ∀ handler now, h.Sound start (s.enter handler now)
      (r.enter handler now)) (incidents : List Incident)
    (hallowed : h.Allowed start s incidents) :
    s.answers h.render incidents = r.answers (h.renderOver h.afresh) incidents := by
  induction incidents generalizing s r with
  | nil => rfl
  | cons incident rest ih =>
    cases incident with
    | put names node =>
      obtain ⟨⟨hout, hcacheDir⟩, hnewer, hrest⟩ := hallowed
      apply ih ?_ hrest
      intro handler now
      exact (hs handler now).put hout hcacheDir hnewer
    | drop names =>
      obtain ⟨⟨hout, hcacheDir⟩, hrest⟩ := hallowed
      apply ih ?_ hrest
      intro handler now
      exact (hs handler now).drop hout hcacheDir
    | render handler now dir file ctx =>
      obtain ⟨hfine, hrest⟩ := hallowed
      obtain ⟨hresult, hafter, hend⟩ :=
        (hs handler now).render hroot hinj hstart dir file ctx hfine
      have hanswers : (s.leave handler (h.render dir file ctx (s.enter handler now)).2.2).answers
          h.render rest =
          (r.leave handler (h.renderOver h.afresh dir file ctx (r.enter handler now)).2.2).answers
            (h.renderOver h.afresh) rest := by
        apply ih ?_ hrest
        intro other later
        refine hend.congr rfl rfl ?_ rfl rfl
        -- the programs of the handler are those after the render, the other ones stay
        unfold Site.enter Site.leave
        dsimp only
        split
        · exact hend.programs
        · exact (hs other now).programs
      unfold Site.answers
      dsimp only
      rw [hresult, hafter, hend.events, hanswers]

end Renders

/-! ### Whole runs -/

/-- A site at the start is sound beside itself. -/
theorem Starts.sound (hstarts : h.Starts s) (handler now : Nat) :
    h.Sound s.world.tree (s.enter handler now) (s.enter handler now) := by
  have hclean := hstarts.node?_eq_none
  refine
    { trees := ⟨rfl, fun _ _ => rfl, fun names hn => ?_⟩
      clean := hclean
      here := rfl
      distinct := ⟨hstarts.distinct, hstarts.distinct⟩
      events := rfl
      cacheDir := hstarts.cacheDir
      codes := ?_
      programs := ?_
      entries := ?_ }
  · have hdir : s.world.tree.isDirAt names = false := by
      unfold FileTree.isDirAt
      rw [hclean names hn]
      rfl
    exact ⟨hdir, hdir⟩
  · intro key e he
    unfold Site.enter at he
    rw [hstarts.memory] at he
    cases he
  · unfold Site.enter
    dsimp only
    rw [hstarts.tables]
    intro u code program hu
    cases hu
  · intro p code time hentry
    unfold entry? Site.enter at hentry
    dsimp only at hentry
    rw [hstarts.memory, hclean _ (isPlace_place h _)] at hentry
    cases hbackend : h.backend <;> simp [hbackend] at hentry

/-- A rendering with a message in place of a template that does not exist. -/
def telling (render : Rendering) : Rendering := fun dir file ctx w =>
  match render dir file ctx w with
  | (.error (.sourceNotFound path), ctx, w) => (.ok (missingText path), ctx, w)
  | other => other

/-- An answer with a message in place of a template that does not exist. -/
def told : Answer → Answer
  | (.error (.sourceNotFound path), ctx, events) => (.ok (missingText path), ctx, events)
  | other => other

theorem answers_telling (render : Rendering) (s : Site) (incidents : List Incident) :
    s.answers (telling render) incidents = (s.answers render incidents).map told := by
  induction incidents generalizing s with
  | nil => rfl
  | cons incident rest ih =>
    cases incident with
    | put names node => exact ih _
    | drop names => exact ih _
    | render handler now dir file ctx =>
      unfold Site.answers telling
      rcases render dir file ctx (s.enter handler now) with ⟨e | out, after, w⟩
      · cases e <;> exact congrArg (List.cons _) (ih _)
      · exact congrArg (List.cons _) (ih _)

/-- The renders that tell of a template that does not exist answer as without a cache, too. -/
theorem answers_renderOrTell (h : Handler)
    (hinj : ∀ p q, h.numbering p h.config.version = h.numbering q h.config.version → p = q)
    (s : Site) (hstarts : h.Starts s) (incidents : List Incident)
    (hallowed : h.Allowed s.world.tree s incidents) :
    s.answers h.renderOrTell incidents =
      s.answers (telling (h.renderOver h.afresh)) incidents := by
  have hanswers := answers_eq_of_sound hstarts.root hinj hstarts.node?_eq_none hstarts.sound
    incidents hallowed
  calc s.answers h.renderOrTell incidents
      = (s.answers h.render incidents).map told := answers_telling h.render s incidents
    _ = (s.answers (h.renderOver h.afresh) incidents).map told := congrArg _ hanswers
    _ = s.answers (telling (h.renderOver h.afresh)) incidents :=
        (answers_telling _ s incidents).symm

/-- **Caches are transparent.**  Handlers with the same settings share the compiled code, in memory
or in files, while templates are edited, removed and rendered.  Different templates have different
identities, and nothing is kept at the start.  Then every render of an allowed run answers what it
would answer if every template were compiled afresh and nothing were kept. -/
theorem answers_eq_afresh (h : Handler)
    (hinj : ∀ p q, h.numbering p h.config.version = h.numbering q h.config.version → p = q)
    (s : Site) (hstarts : h.Starts s) (incidents : List Incident)
    (hallowed : h.Allowed s.world.tree s incidents) :
    s.answers h.render incidents = s.answers (h.renderOver h.afresh) incidents :=
  answers_eq_of_sound hstarts.root hinj hstarts.node?_eq_none hstarts.sound incidents hallowed

/-! ### A page -/

/-- The files of a page that includes another one. -/
def pageFiles : FileTree where
  nodes :=
    [([['a']], .dir), ([['a'], ['c']], .dir),
      ([['a'], "p.html".toList], .file (.text "x<!--#include(\"q.html\")-->".toList) 1),
      ([['a'], "q.html".toList], .file (.text ['y']) 1)]

/-- The site of the page, before anything was rendered. -/
def pageSite : Site where
  world := { tree := pageFiles, now := 0 }

/-- The handlers of the page. -/
def pageHandler (backend : Backend) : Handler where
  config := { cacheDir := ['c'] }
  root := "/a".toList
  backend := backend

/-- The page is rendered twice, the included one is edited, and another handler renders the
page. -/
def pageRun : List Incident :=
  [.render 0 5 ['.'] "p.html".toList {}, .render 0 6 ['.'] "p.html".toList {},
    .put [['a'], "q.html".toList] (.file (.text ['z']) 7), .render 1 8 ['.'] "p.html".toList {}]

/-- The run of the page is allowed with both backends, and answers as without a cache. -/
theorem answers_eq_afresh_page :
    ((pageHandler .files).Starts pageSite ∧
      (pageHandler .files).Allowed pageFiles pageSite pageRun ∧
      pageSite.answers (pageHandler .files).render pageRun =
        pageSite.answers ((pageHandler .files).renderOver (pageHandler .files).afresh) pageRun) ∧
    ((pageHandler .memory).Starts pageSite ∧
      (pageHandler .memory).Allowed pageFiles pageSite pageRun ∧
      pageSite.answers (pageHandler .memory).render pageRun =
        pageSite.answers ((pageHandler .memory).renderOver (pageHandler .memory).afresh)
          pageRun) := by
  have hinj : ∀ p q : Path, Numbering.exact p "0.1.0" = Numbering.exact q "0.1.0" → p = q :=
    fun _ _ hpq => (Numbering.exact_inj hpq).1
  have hfiles : (pageHandler .files).Starts pageSite :=
    ⟨rfl, by decide +kernel, by decide +kernel, by decide +kernel, rfl, fun _ => rfl⟩
  have hmemory : (pageHandler .memory).Starts pageSite :=
    ⟨rfl, by decide +kernel, by decide +kernel, by decide +kernel, rfl, fun _ => rfl⟩
  have hfilesRun : (pageHandler .files).Allowed pageFiles pageSite pageRun := by decide +kernel
  have hmemoryRun : (pageHandler .memory).Allowed pageFiles pageSite pageRun := by decide +kernel
  exact ⟨⟨hfiles, hfilesRun, answers_eq_afresh _ hinj _ hfiles _ hfilesRun⟩,
    hmemory, hmemoryRun, answers_eq_afresh _ hinj _ hmemory _ hmemoryRun⟩

/-- The edit is seen. -/
example : (pageSite.answers (pageHandler .files).render pageRun).map (fun answer =>
    match answer.1 with
    | .ok out => out
    | .error _ => "") = ["xy", "xy", "xz"] := by
  decide +kernel

end Handler

end Stencil
