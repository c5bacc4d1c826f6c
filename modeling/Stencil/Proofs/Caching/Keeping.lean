import Stencil.Proofs.Caching.Loading

/-!
# What is kept comes from accepted compilations

Handlers with settings of their own are built one after another on the same files, and share caches
in memory or cache directories.  Files are written and removed, and the handlers render templates.
Every load of a template is noted, with the world before it and how it ended.

Whatever is kept at the end goes back to one of these loads: each code in a cache and each compiled
file to one that compiled it, whose handler let it pass, and each program that a handler has kept to
the last one of its template.  A load that failed has changed nothing that is kept.

## Main definitions

* `Loading` — a load of a template, as it is noted.
* `Tenant`, `Estate` — a handler with its programs, and everything that handlers share.
* `Estate.Event`, `Estate.run` — what may happen, and the loads on the way.
* `Loading.Clean` — what a load does to what is kept.
* `Estate.Kept` — what is kept, and where it comes from.

## Main results

* `Holding.load` — one load leaves what is kept well founded.
* `Estate.kept_run` — so does a whole run.
-/

namespace Stencil

/-- A load of a template by a handler, as it is noted. -/
structure Loading where
  /-- The number of the handler. -/
  tenant : Nat
  /-- The number of the cache in memory that it uses. -/
  cache : Nat
  /-- The handler. -/
  handler : Handler
  /-- The template. -/
  template : Template
  /-- The world before the load. -/
  before : World
  /-- How it ended. -/
  result : EStateM.Result TemplateError World Program

namespace Loading

/-- The handler would compile this code for the template, its policy lets it pass, and it parses. -/
def Made (l : Loading) (code : List Char) : Prop :=
  l.handler.Accepts l.before.tree l.template code

/-- What a load does to what is kept: nothing when it fails, and otherwise at most that the code it
has compiled is kept. -/
def Clean (l : Loading) : Prop :=
  match l.result with
  | .error _ w =>
    w.tree = l.before.tree ∧ w.memory = l.before.memory ∧ w.programs = l.before.programs
  | .ok program w =>
    ∃ code, l.handler.loadedCode? l.template l.before = some code ∧
      l.template.parse code = .ok program ∧
      ((w.tree = l.before.tree ∧ w.memory = l.before.memory) ∨
        (l.Made code ∧ w.tree = (l.handler.keep l.template code l.before).tree ∧
          w.memory = (l.handler.keep l.template code l.before).memory))

/-- The code and the program that a handler has from the load, if it is a load of its own, of a
template with this identity, and has not failed. -/
def gives? (l : Loading) (tenant identity : Nat) : Option (List Char × Program) :=
  match l.result with
  | .ok program _ =>
    if l.tenant = tenant ∧ l.template.identity = identity then
      (l.handler.loadedCode? l.template l.before).map fun code => (code, program)
    else none
  | .error _ _ => none

end Loading

/-- What the last load of a template by a handler has given. -/
def lastLoaded? (history : List Loading) (tenant identity : Nat) : Option (List Char × Program) :=
  history.reverse.findSome? fun l => l.gives? tenant identity

/-! ### Where things come from -/

/-- Every entry of the cache is code of a load on it, of the template with that key. -/
def EntriesMade (history : List Loading) (cache : Nat) (memory : Cache) : Prop :=
  ∀ key e, Assoc.get? memory key = some e →
    ∃ l ∈ history, ∃ code, e.payload = .code code ∧ l.cache = cache ∧
      l.handler.backend = .memory ∧ l.template.cacheKey = key ∧ l.Made code

/-- Every file under the cache directories has the code of a load, and stands where the code of
that template belongs. -/
def FilesMade (history : List Loading) (dirs : List Path) (t : FileTree) : Prop :=
  ∀ dir ∈ dirs, ∀ names content time, dir.target [] <+: names →
    t.node? names = some (.file content time) →
    ∃ l ∈ history, ∃ code, content = .text code ∧ l.handler.backend = .files ∧
      l.template.place l.handler = names ∧ l.Made code

/-- The programs of a handler: one for each identity, from the last load of such a template, and
parsed from code that some load has made. -/
structure ProgramsMade (history : List Loading) (tenant : Nat)
    (programs : Assoc Nat (List Char × Program)) : Prop where
  distinct : (Assoc.keys programs).Nodup
  last : ∀ identity, Assoc.get? programs identity = lastLoaded? history tenant identity
  parsed : HoldsPrograms programs
  made : ∀ identity code program, Assoc.get? programs identity = some (code, program) →
    ∃ l ∈ history, l.template.identity = identity ∧ l.Made code

/-- What is kept in a world in which a handler renders. -/
structure Holding (dirs : List Path) (tenant cache : Nat) (history : List Loading) (w : World) :
    Prop where
  clean : ∀ l ∈ history, l.Clean
  entries : EntriesMade history cache w.memory
  files : FilesMade history dirs w.tree
  programs : ProgramsMade history tenant w.programs

section Growing

variable {history more : List Loading} {dirs : List Path} {tenant cache identity : Nat}
  {memory : Cache} {t : FileTree} {programs : Assoc Nat (List Char × Program)}

theorem EntriesMade.append (he : EntriesMade history cache memory) :
    EntriesMade (history ++ more) cache memory := by
  intro key e hget
  obtain ⟨l, hl, hmade⟩ := he key e hget
  exact ⟨l, List.mem_append_left more hl, hmade⟩

theorem FilesMade.append (hf : FilesMade history dirs t) :
    FilesMade (history ++ more) dirs t := by
  intro dir hdir names content time hnames hnode
  obtain ⟨l, hl, hmade⟩ := hf dir hdir names content time hnames hnode
  exact ⟨l, List.mem_append_left more hl, hmade⟩

theorem lastLoaded?_append :
    lastLoaded? (history ++ more) tenant identity =
      (lastLoaded? more tenant identity).or (lastLoaded? history tenant identity) := by
  unfold lastLoaded?
  rw [List.reverse_append, List.findSome?_append]

theorem lastLoaded?_singleton (l : Loading) :
    lastLoaded? [l] tenant identity = l.gives? tenant identity := by
  unfold lastLoaded?
  rw [List.reverse_singleton, List.findSome?_singleton]

/-- Loads of other handlers give nothing. -/
theorem lastLoaded?_eq_none (hmore : ∀ l ∈ more, l.tenant ≠ tenant) :
    lastLoaded? more tenant identity = none := by
  unfold lastLoaded?
  rw [List.findSome?_eq_none_iff]
  intro l hl
  unfold Loading.gives?
  split
  · exact if_neg fun hand => hmore l (List.mem_reverse.mp hl) hand.1
  · rfl

theorem ProgramsMade.append (hp : ProgramsMade history tenant programs)
    (hmore : ∀ l ∈ more, l.tenant ≠ tenant) : ProgramsMade (history ++ more) tenant programs where
  distinct := hp.distinct
  last identity := by rw [lastLoaded?_append, lastLoaded?_eq_none hmore, Option.none_or, hp.last]
  parsed := hp.parsed
  made identity code program hget := by
    obtain ⟨l, hl, hmade⟩ := hp.made identity code program hget
    exact ⟨l, List.mem_append_left more hl, hmade⟩

theorem ProgramsMade.nil (hmore : ∀ l ∈ history, l.tenant ≠ tenant) :
    ProgramsMade history tenant [] where
  distinct := List.nodup_nil
  last _ := (lastLoaded?_eq_none hmore).symm
  parsed _ _ _ hget := nomatch hget
  made _ _ _ hget := nomatch hget

end Growing

/-! ### One load -/

section Loads

variable {dirs : List Path} {tenant cache : Nat} {history : List Loading} {h : Handler}
  {u : Template} {w : World} {code : List Char}

/-- Code that is kept for a template was made by a load of a template with its identity. -/
theorem Holding.made_of_kept (hw : Holding dirs tenant cache history w)
    (hroot : Path.isAbsolute h.root = true) (hdir : h.backend = .files → h.cacheDir ∈ dirs)
    {changed : Nat} (hkept : h.kept u changed w = some code) :
    ∃ l ∈ history, l.template.identity = u.identity ∧ l.Made code := by
  have hcodes : Handler.HoldsCode w := by
    intro key e he
    obtain ⟨l, -, code, hcode, -⟩ := hw.entries key e he
    exact ⟨code, hcode⟩
  obtain ⟨time, hentry, -⟩ := Handler.entry?_of_kept hroot hcodes hkept
  unfold Handler.entry? at hentry
  cases hbackend : h.backend with
  | memory =>
    simp only [hbackend] at hentry
    split at hentry
    · rename_i hget
      cases hentry
      obtain ⟨l, hl, code', hcode, -, -, hkey, hmade⟩ := hw.entries _ _ hget
      cases hcode
      exact ⟨l, hl, Template.cacheKey_inj hkey, hmade⟩
    · cases hentry
  | files =>
    simp only [hbackend] at hentry
    split at hentry
    · rename_i hnode
      cases hentry
      have hunder : h.cacheDir.target [] <+: u.place h := List.prefix_append _ _
      obtain ⟨l, hl, code', hcode, -, hplace, hmade⟩ :=
        hw.files _ (hdir hbackend) _ _ _ hunder hnode
      cases hcode
      -- the names agree, and so do their last ones
      have hname : l.template.compiledName = u.compiledName := by
        unfold Template.place at hplace
        exact (List.append_inj' hplace rfl).2 |> List.cons.inj |>.1
      exact ⟨l, hl, hexText_inj (List.append_cancel_right hname), hmade⟩
    · cases hentry

/-- A handler that has the program of some code keeps it in the place of the last one. -/
theorem ProgramsMade.retain {l : Loading} {program : Program} {w' : World}
    {programs : Assoc Nat (List Char × Program)} (hp : ProgramsMade history tenant programs)
    (htenant : l.tenant = tenant) (hresult : l.result = .ok program w')
    (hcode : l.handler.loadedCode? l.template l.before = some code)
    (hretains : Retains l.template code program programs w'.programs)
    (hmade : ∃ m ∈ history ++ [l], m.template.identity = l.template.identity ∧ m.Made code) :
    ProgramsMade (history ++ [l]) tenant w'.programs where
  distinct := hretains.distinct hp.distinct
  parsed := hretains.holds
  last identity := by
    rw [lastLoaded?_append, lastLoaded?_singleton]
    unfold Loading.gives?
    rw [hresult]
    by_cases hid : identity = l.template.identity
    · subst hid
      rw [hretains.here]
      simp [htenant, hcode]
    · rw [hretains.others identity hid, hp.last]
      simp [Ne.symm hid]
  made identity code' program' hget := by
    by_cases hid : identity = l.template.identity
    · subst hid
      rw [hretains.here] at hget
      cases hget
      exact hmade
    · rw [hretains.others identity hid] at hget
      obtain ⟨m, hm, hmade'⟩ := hp.made identity code' program' hget
      exact ⟨m, List.mem_append_left _ hm, hmade'⟩

/-- A load that fails leaves the programs as they are. -/
theorem ProgramsMade.fail {l : Loading} {e : TemplateError} {w' : World}
    {programs : Assoc Nat (List Char × Program)} (hp : ProgramsMade history tenant programs)
    (hresult : l.result = .error e w') : ProgramsMade (history ++ [l]) tenant programs where
  distinct := hp.distinct
  parsed := hp.parsed
  last identity := by
    have hgives : l.gives? tenant identity = none := by
      unfold Loading.gives?
      rw [hresult]
    rw [lastLoaded?_append, lastLoaded?_singleton, hgives, Option.none_or, hp.last]
  made identity code program hget := by
    obtain ⟨m, hm, hmade⟩ := hp.made identity code program hget
    exact ⟨m, List.mem_append_left _ hm, hmade⟩

/-- Code that was made may be kept in memory. -/
theorem EntriesMade.keep {l : Loading} (he : EntriesMade history cache l.before.memory)
    (hcache : l.cache = cache) (hmade : l.Made code) :
    EntriesMade (history ++ [l]) cache (l.handler.keep l.template code l.before).memory := by
  unfold Handler.keep
  cases hbackend : l.handler.backend with
  | files => exact he.append
  | memory =>
    intro key e hget
    dsimp only [Cache.put] at hget
    by_cases hkey : l.template.cacheKey = key
    · subst hkey
      rw [Assoc.get?_insert_self] at hget
      cases hget
      exact ⟨l, List.mem_append_right _ (List.mem_singleton_self l), code, rfl, hcache, hbackend,
        rfl, hmade⟩
    · rw [Assoc.get?_insert_of_ne _ hkey] at hget
      exact he.append key e hget

/-- Code that was made may be written to its file. -/
theorem FilesMade.keep {l : Loading} (hf : FilesMade history dirs l.before.tree)
    (hroot : Path.isAbsolute l.handler.root = true) (hmade : l.Made code) :
    FilesMade (history ++ [l]) dirs (l.handler.keep l.template code l.before).tree := by
  unfold Handler.keep
  cases hbackend : l.handler.backend with
  | memory => exact hf.append
  | files =>
    intro dir hdir names content time hnames hnode
    rcases node?_of_writeCompiled (Handler.isAbsolute_cacheDir hroot)
      l.template.isFileName_compiledName hnode with hbefore | ⟨rfl, rfl⟩
    · exact hf.append dir hdir names content time hnames hbefore
    · exact ⟨l, List.mem_append_right _ (List.mem_singleton_self l), code, rfl, hbackend, rfl,
        hmade⟩

/-- One load leaves what is kept well founded. -/
theorem Holding.load (hw : Holding dirs tenant cache history w)
    (hroot : Path.isAbsolute h.root = true) (hdir : h.backend = .files → h.cacheDir ∈ dirs)
    (u : Template) :
    Holding dirs tenant cache (history ++ [⟨tenant, cache, h, u, w, h.load u w⟩])
      (endState (h.load u w)) := by
  have hcases := h.load_cases u w hw.programs.parsed
  generalize h.load u w = result at hcases ⊢
  have hclean (hl : Loading.Clean ⟨tenant, cache, h, u, w, result⟩) :
      ∀ m ∈ history ++ [⟨tenant, cache, h, u, w, result⟩], m.Clean := by
    intro m hm
    rcases List.mem_append.mp hm with hm | hm
    · exact hw.clean m hm
    · cases List.mem_singleton.mp hm
      exact hl
  cases hcases with
  | failed htree hmemory hprograms =>
    refine ⟨hclean ⟨htree, hmemory, hprograms⟩, ?_, ?_, ?_⟩
    · exact hmemory ▸ hw.entries.append
    · exact htree ▸ hw.files.append
    · exact hprograms ▸ hw.programs.fail rfl
  | reused hcode hkept hparse htree hmemory hretains =>
    refine ⟨hclean ⟨_, hcode, hparse, .inl ⟨htree, hmemory⟩⟩, ?_, ?_, ?_⟩
    · exact hmemory ▸ hw.entries.append
    · exact htree ▸ hw.files.append
    · obtain ⟨m, hm, hid, hmade⟩ := hw.made_of_kept hroot hdir hkept
      exact hw.programs.retain rfl rfl hcode hretains ⟨m, List.mem_append_left _ hm, hid, hmade⟩
  | compiled hcode haccepts hparse htree hmemory hretains =>
    refine ⟨hclean ⟨_, hcode, hparse, .inr ⟨haccepts, htree, hmemory⟩⟩, ?_, ?_, ?_⟩
    · exact hmemory ▸ hw.entries.keep rfl haccepts
    · exact htree ▸ hw.files.keep hroot haccepts
    · exact hw.programs.retain rfl rfl hcode hretains
        ⟨_, List.mem_append_right _ (List.mem_singleton_self _), rfl, haccepts⟩

end Loads

/-! ### One render -/

/-- The store of a handler that notes every load. -/
def Handler.logging (h : Handler) (tenant cache : Nat) : Store (World × List Loading) where
  tree s := s.1.tree
  load u s :=
    match h.load u s.1 with
    | .ok program w => .ok program (w, s.2 ++ [⟨tenant, cache, h, u, s.1, .ok program w⟩])
    | .error e w => .error e (w, s.2 ++ [⟨tenant, cache, h, u, s.1, .error e w⟩])
  record event s := (recordIn event s.1, s.2)

/-- The loads of a render. -/
def Handler.log (h : Handler) (tenant cache : Nat) (dir : Path) (file : List Char) (ctx : Context)
    (w : World) : List Loading :=
  (h.renderOver (h.logging tenant cache) dir file ctx (w, [])).2.2.2

section Renders

variable {dirs : List Path} {tenant cache : Nat} {history : List Loading} {h : Handler} {w : World}

/-- The load is one by this handler. -/
def Loading.By (l : Loading) (tenant cache : Nat) (h : Handler) : Prop :=
  l.tenant = tenant ∧ l.cache = cache ∧ l.handler = h

/-- A world with its loads beside the same world, where what is kept is well founded. -/
def logged (dirs : List Path) (tenant cache : Nat) (h : Handler) (history : List Loading) :
    Bond (World × List Loading) World where
  holds s v :=
    s.1 = v ∧ (∀ l ∈ s.2, l.By tenant cache h) ∧ Holding dirs tenant cache (history ++ s.2) s.1
  lost _ := False

theorem logging_follows (hroot : Path.isAbsolute h.root = true)
    (hdir : h.backend = .files → h.cacheDir ∈ dirs) :
    (h.logging tenant cache).Follows h (logged dirs tenant cache h history) h.cached where
  record_lost _ _ hs := hs
  record event s v hs := by
    obtain ⟨rfl, hby, hw⟩ := hs
    exact ⟨rfl, hby, hw.clean, hw.entries, hw.files, hw.programs⟩
  load_lost _ _ hs := hs
  missing _ _ _ s v hs hfind := by
    obtain ⟨rfl, -, -⟩ := hs
    exact hfind
  found _ _ u s v hs hfind := by
    obtain ⟨rfl, hby, hw⟩ := hs
    refine .inr ⟨hfind, ?_⟩
    have hload := hw.load hroot hdir u
    have hbys : ∀ result, ∀ l ∈ s.2 ++ [⟨tenant, cache, h, u, s.1, result⟩],
        l.By tenant cache h := by
      intro result l hl
      rcases List.mem_append.mp hl with hl | hl
      · exact hby l hl
      · cases List.mem_singleton.mp hl
        exact ⟨rfl, rfl, rfl⟩
    unfold Handler.logging Handler.cached
    dsimp only
    rw [List.append_assoc] at hload
    cases hresult : h.load u s.1 with
    | ok program w =>
      rw [hresult] at hload
      exact .ok ⟨rfl, hbys _, hload⟩
    | error e w =>
      rw [hresult] at hload
      exact .error ⟨rfl, hbys _, hload⟩

/-- One render leaves what is kept well founded. -/
theorem Holding.render (hw : Holding dirs tenant cache history w)
    (hroot : Path.isAbsolute h.root = true) (hdir : h.backend = .files → h.cacheDir ∈ dirs)
    (dir : Path) (file : List Char) (ctx : Context) :
    (∀ l ∈ h.log tenant cache dir file ctx w, l.By tenant cache h) ∧
      Holding dirs tenant cache (history ++ h.log tenant cache dir file ctx w)
        (h.render dir file ctx w).2.2 := by
  have hstart : (logged dirs tenant cache h history).holds (w, []) w :=
    ⟨rfl, nofun, by rwa [List.append_nil]⟩
  rcases Handler.same_renderOver (logging_follows hroot hdir) dir file ctx hstart with
    hlost | ⟨-, -, hworld, hby, hend⟩
  · exact hlost.elim
  · rw [Handler.render_eq, ← hworld]
    exact ⟨hby, hend⟩

end Renders

/-! ### Runs -/

theorem Handler.isAbsolute_root_of_ofConfig {config : Config} {t : FileTree} {h : Handler}
    (hbuilt : Handler.ofConfig config t = .ok h) : Path.isAbsolute h.root = true := by
  unfold ofConfig at hbuilt
  split at hbuilt
  · cases hbuilt
  · split at hbuilt
    · rename_i root hroot
      cases hbuilt
      obtain ⟨names, -, rfl⟩ := Option.map_eq_some_iff.mp hroot
      rfl
    · cases hbuilt

/-- A handler, with the cache that it uses and the programs that it has kept. -/
structure Tenant where
  /-- The handler. -/
  handler : Handler
  /-- The number of the cache in memory that it uses, if it uses one. -/
  cache : Nat
  /-- Its programs. -/
  programs : Assoc Nat (List Char × Program) := []

/-- The files and the caches that handlers share, and the handlers. -/
structure Estate where
  /-- The identities of templates. -/
  numbering : Numbering := .exact
  /-- The files. -/
  tree : FileTree
  /-- The caches in memory. -/
  caches : Nat → Cache := fun _ => []
  /-- The handlers, in the order in which they were built. -/
  tenants : List Tenant := []

namespace Estate

/-- Something that happens on an estate. -/
inductive Event where
  /-- A handler is built from a configuration, with the cache that it uses. -/
  | build (config : Config) (backend : Backend) (cache : Nat)
      (functions : String → Option (List Value → Except RuntimeError Value))
      (compilerTime : Nat) : Event
  /-- A file is written, with its content and the time of the change, or a directory is made. -/
  | put (names : List Segment) (node : Node) : Event
  /-- What stands at names is removed. -/
  | drop (names : List Segment) : Event
  /-- A handler renders the template with a directory and a file name at a time. -/
  | render (tenant now : Nat) (dir : Path) (file : List Char) (ctx : Context) : Event

/-- The world of a handler that starts to render. -/
def world (e : Estate) (t : Tenant) (now : Nat) : World :=
  { tree := e.tree, now, memory := e.caches t.cache, programs := t.programs }

/-- The estate after a handler has rendered. -/
def leave (e : Estate) (i : Nat) (t : Tenant) (w : World) : Estate :=
  { e with
    tree := w.tree
    caches := fun n => if n = t.cache then w.memory else e.caches n
    tenants := e.tenants.set i { t with programs := w.programs } }

/-- What happens, and the loads on the way.  A handler whose configuration is refused is not
built. -/
def step (e : Estate) : Event → Estate × List Loading
  | .build config backend cache functions compilerTime =>
    match Handler.ofConfig config e.tree with
    | .ok h =>
      let handler := { h with functions, backend, compilerTime, numbering := e.numbering }
      ({ e with tenants := e.tenants ++ [{ handler, cache }] }, [])
    | .error _ => (e, [])
  | .put names node => ({ e with tree := e.tree.setNode names node }, [])
  | .drop names =>
    ({ e with tree := { e.tree with nodes := Assoc.erase e.tree.nodes names } }, [])
  | .render i now dir file ctx =>
    match e.tenants[i]? with
    | some t =>
      (e.leave i t (t.handler.render dir file ctx (e.world t now)).2.2,
        t.handler.log i t.cache dir file ctx (e.world t now))
    | none => (e, [])

/-- One thing after the other, with all loads. -/
def run : Estate → List Event → Estate × List Loading
  | e, [] => (e, [])
  | e, event :: rest =>
    let (e, loads) := e.step event
    let (e, more) := run e rest
    (e, loads ++ more)

/-- Edits leave the cache directories alone, and these are all the cache directories there are. -/
def Event.Outside (dirs : List Path) (e : Estate) : Event → Prop
  | .build config backend _ _ _ =>
    ∀ h ∈ (Handler.ofConfig config e.tree).toOption, backend = .files → h.cacheDir ∈ dirs
  | .put names _ => ∀ dir ∈ dirs, ¬ dir.target [] <+: names
  | .drop names => ∀ dir ∈ dirs, ¬ dir.target [] <+: names
  | .render .. => True

/-- The runs in which edits leave the cache directories alone. -/
def Allowed (dirs : List Path) : Estate → List Event → Prop
  | _, [] => True
  | e, event :: rest => event.Outside dirs e ∧ Allowed dirs (e.step event).1 rest

instance (dirs : List Path) (e : Estate) : (event : Event) → Decidable (event.Outside dirs e)
  | .build config backend _ _ _ =>
    inferInstanceAs (Decidable (∀ h ∈ (Handler.ofConfig config e.tree).toOption,
      backend = .files → h.cacheDir ∈ dirs))
  | .put names _ => inferInstanceAs (Decidable (∀ dir ∈ dirs, ¬ dir.target [] <+: names))
  | .drop names => inferInstanceAs (Decidable (∀ dir ∈ dirs, ¬ dir.target [] <+: names))
  | .render .. => .isTrue trivial

instance decidableAllowed (dirs : List Path) :
    ∀ (e : Estate) (events : List Event), Decidable (e.Allowed dirs events)
  | _, [] => .isTrue trivial
  | e, event :: rest =>
    have := decidableAllowed dirs (e.step event).1 rest
    inferInstanceAs (Decidable (_ ∧ _))

/-- An estate at the start: there are no handlers yet, and nothing is kept. -/
structure Starts (dirs : List Path) (e : Estate) : Prop where
  tenants : e.tenants = []
  caches : ∀ n, e.caches n = []
  clean : ∀ dir ∈ dirs, ∀ x ∈ e.tree.nodes, dir.target [] <+: x.1 → x.2 = .dir

/-- What is kept on an estate, and where it comes from. -/
structure Kept (dirs : List Path) (history : List Loading) (e : Estate) : Prop where
  known : ∀ l ∈ history, ∃ t, e.tenants[l.tenant]? = some t ∧ l.By l.tenant t.cache t.handler
  clean : ∀ l ∈ history, l.Clean
  entries : ∀ n, EntriesMade history n (e.caches n)
  files : FilesMade history dirs e.tree
  programs : ∀ i t, e.tenants[i]? = some t → ProgramsMade history i t.programs

/-- All handlers have a root, and their cache directories are among these. -/
def Placed (dirs : List Path) (e : Estate) : Prop :=
  ∀ t ∈ e.tenants, Path.isAbsolute t.handler.root = true ∧
    (t.handler.backend = .files → t.handler.cacheDir ∈ dirs)

variable {dirs : List Path} {history : List Loading} {e : Estate}

/-! ### Steps -/

/-- A handler that was built has kept nothing. -/
theorem Kept.build (hk : e.Kept dirs history) (t : Tenant) (ht : t.programs = []) :
    Kept dirs history { e with tenants := e.tenants ++ [t] } where
  known l hl := by
    obtain ⟨t', ht', hby⟩ := hk.known l hl
    exact ⟨t', List.getElem?_append_left (List.getElem?_eq_some_iff.mp ht').1 ▸ ht', hby⟩
  clean := hk.clean
  entries := hk.entries
  files := hk.files
  programs i t' ht' := by
    rcases Nat.lt_or_ge i e.tenants.length with hi | hi
    · exact hk.programs i t' (by rwa [List.getElem?_append_left hi] at ht')
    · rw [List.getElem?_append_right hi, List.getElem?_singleton] at ht'
      split at ht'
      · cases ht'
        rw [ht]
        apply ProgramsMade.nil
        intro l hl
        obtain ⟨_, hget, -⟩ := hk.known l hl
        have hlt := (List.getElem?_eq_some_iff.mp hget).1
        omega
      · cases ht'

/-- Edits outside the cache directories change nothing that is kept. -/
theorem Kept.edit (hk : e.Kept dirs history) {t : FileTree}
    (ht : ∀ dir ∈ dirs, ∀ other, dir.target [] <+: other → t.node? other = e.tree.node? other) :
    Kept dirs history { e with tree := t } where
  known := hk.known
  clean := hk.clean
  entries := hk.entries
  files dir hdir other content time hother hnode :=
    hk.files dir hdir other content time hother (ht dir hdir other hother ▸ hnode)
  programs := hk.programs

/-- A render leaves what is kept well founded. -/
theorem Kept.render (hk : e.Kept dirs history) (hplaced : e.Placed dirs) {i : Nat} {t : Tenant}
    (ht : e.tenants[i]? = some t) (now : Nat) (dir : Path) (file : List Char) (ctx : Context) :
    Kept dirs (history ++ t.handler.log i t.cache dir file ctx (e.world t now))
      (e.leave i t (t.handler.render dir file ctx (e.world t now)).2.2) := by
  obtain ⟨hroot, hdir⟩ := hplaced t (List.mem_of_getElem? ht)
  have hi := (List.getElem?_eq_some_iff.mp ht).1
  have hw : Holding dirs i t.cache history (e.world t now) :=
    ⟨hk.clean, hk.entries t.cache, hk.files, hk.programs i t ht⟩
  obtain ⟨hby, hend⟩ := hw.render hroot hdir dir file ctx
  refine ⟨fun l hl => ?_, hend.clean, fun n => ?_, hend.files, fun j t' ht' => ?_⟩
  · unfold leave
    rcases List.mem_append.mp hl with hl | hl
    · obtain ⟨t', ht', hby'⟩ := hk.known l hl
      by_cases hli : i = l.tenant
      · rw [← hli, ht] at ht'
        cases ht'
        rw [← hli, List.getElem?_set_self hi]
        exact ⟨_, rfl, hli ▸ hby'⟩
      · exact ⟨t', by rw [List.getElem?_set_ne hli, ht'], hby'⟩
    · obtain ⟨htenant, hcache, hhandler⟩ := hby l hl
      rw [htenant, List.getElem?_set_self hi]
      exact ⟨_, rfl, htenant, hcache, hhandler⟩
  · unfold leave
    dsimp only
    split
    · rename_i hn
      exact hn ▸ hend.entries
    · exact (hk.entries n).append
  · unfold leave at ht'
    by_cases hij : i = j
    · subst hij
      rw [List.getElem?_set_self hi] at ht'
      cases ht'
      exact hend.programs
    · rw [List.getElem?_set_ne hij] at ht'
      exact (hk.programs j t' ht').append fun l hl => (hby l hl).1 ▸ hij

theorem Placed.render (hplaced : e.Placed dirs) {i : Nat} {t : Tenant}
    (ht : e.tenants[i]? = some t) (w : World) : (e.leave i t w).Placed dirs := by
  intro t' ht'
  rcases List.mem_or_eq_of_mem_set ht' with hmem | rfl
  · exact hplaced t' hmem
  · exact hplaced t (List.mem_of_getElem? ht)

/-- A step leaves what is kept well founded. -/
theorem Kept.step (hk : e.Kept dirs history) (hplaced : e.Placed dirs) (event : Event)
    (hout : event.Outside dirs e) :
    (e.step event).1.Kept dirs (history ++ (e.step event).2) ∧ (e.step event).1.Placed dirs := by
  cases event with
  | build config backend cache functions compilerTime =>
    unfold Event.Outside at hout
    unfold Estate.step
    dsimp only at hout ⊢
    split
    · rename_i h hbuilt
      rw [hbuilt] at hout
      have hdir := hout h rfl
      rw [List.append_nil]
      refine ⟨hk.build _ rfl, fun t ht => ?_⟩
      rcases List.mem_append.mp ht with ht | ht
      · exact hplaced t ht
      · cases List.mem_singleton.mp ht
        exact ⟨(Handler.isAbsolute_root_of_ofConfig hbuilt : Path.isAbsolute h.root = true), hdir⟩
    · exact ⟨by rwa [List.append_nil], hplaced⟩
  | put names node =>
    refine ⟨?_, hplaced⟩
    rw [show history ++ (e.step (.put names node)).2 = history from List.append_nil history]
    apply hk.edit
    rintro dir hdir other hother
    apply FileTree.node?_setNode_of_ne
    rintro rfl
    exact hout dir hdir hother
  | drop names =>
    refine ⟨?_, hplaced⟩
    rw [show history ++ (e.step (.drop names)).2 = history from List.append_nil history]
    apply hk.edit
    rintro dir hdir other hother
    unfold FileTree.node?
    dsimp only
    rw [Assoc.get?_erase_of_ne]
    rintro rfl
    exact hout dir hdir hother
  | render i now dir file ctx =>
    unfold Estate.step
    dsimp only
    split
    · rename_i t ht
      exact ⟨hk.render hplaced ht now dir file ctx, hplaced.render ht _⟩
    · exact ⟨by rwa [List.append_nil], hplaced⟩

/-! ### Whole runs -/

/-- A run leaves what is kept well founded. -/
theorem Kept.run (hk : e.Kept dirs history) (hplaced : e.Placed dirs) (events : List Event)
    (hallowed : e.Allowed dirs events) :
    (e.run events).1.Kept dirs (history ++ (e.run events).2) := by
  induction events generalizing e history with
  | nil => rwa [show history ++ (e.run []).2 = history from List.append_nil history]
  | cons event rest ih =>
    obtain ⟨hout, hrest⟩ := hallowed
    obtain ⟨hstep, hplaced'⟩ := hk.step hplaced event hout
    have hend := ih hstep hplaced' hrest
    rw [List.append_assoc] at hend
    exact hend

theorem Starts.kept (hstarts : e.Starts dirs) : e.Kept dirs [] where
  known _ hl := nomatch hl
  clean _ hl := nomatch hl
  entries n key entry hget := by
    rw [hstarts.caches] at hget
    cases hget
  files dir hdir names content time hnames hnode := by
    unfold FileTree.node? at hnode
    split at hnode
    · cases hnode
    · cases hstarts.clean dir hdir _ (Assoc.mem_of_get? hnode) hnames
  programs i t ht := by
    rw [hstarts.tenants] at ht
    cases ht

/-- **Only accepted compilations are kept, and failed loads change nothing.** -/
theorem kept_run (dirs : List Path) (e : Estate) (hstarts : e.Starts dirs) (events : List Event)
    (hallowed : e.Allowed dirs events) : (e.run events).1.Kept dirs (e.run events).2 := by
  have hplaced : e.Placed dirs := by
    intro t ht
    rw [hstarts.tenants] at ht
    cases ht
  exact hstarts.kept.run hplaced events hallowed

/-- A page, and a part of it that only a lenient handler lets pass. -/
def yard : Estate where
  tree :=
    { nodes :=
        [([['a']], .dir),
          ([['a'], "p.html".toList], .file (.text "x<!--#include(\"q.html\")-->".toList) 1),
          ([['a'], "q.html".toList], .file (.text "y<!--@end-->".toList) 1)] }

/-- The configuration of a handler of the page. -/
def yardConfig (policy : Policy) : Config where
  appRoot := "/a".toList
  cacheDir := ['c']
  policy := policy

/-- Two handlers render the page, before and after its part is edited. -/
def yardRun : List Event :=
  [.build (yardConfig .strict) .files 0 (fun _ => none) 0,
    .build (yardConfig .lenient) .memory 0 (fun _ => none) 0,
    .render 0 5 ['.'] "p.html".toList {}, .render 1 6 ['.'] "p.html".toList {},
    .put [['a'], "q.html".toList] (.file (.text ['z']) 7), .render 0 8 ['.'] "p.html".toList {}]

/-- What is kept after the run of the page is well founded. -/
theorem kept_run_yard :
    yard.Starts ["/a/c".toList] ∧ yard.Allowed ["/a/c".toList] yardRun ∧
      (yard.run yardRun).1.Kept ["/a/c".toList] (yard.run yardRun).2 := by
  have hstarts : yard.Starts ["/a/c".toList] := ⟨rfl, fun _ => rfl, by decide +kernel⟩
  have hallowed : yard.Allowed ["/a/c".toList] yardRun := by decide +kernel
  exact ⟨hstarts, hallowed, kept_run _ _ hstarts _ hallowed⟩

/-- The strict handler refuses the part before the edit, and the lenient one does not. -/
example : (yard.run yardRun).2.map (fun l =>
    (l.tenant, String.ofList l.template.path, match l.result with
      | .ok _ _ => true
      | .error _ _ => false)) =
    [(0, "/a/p.html", true), (0, "/a/q.html", false), (1, "/a/p.html", true),
      (1, "/a/q.html", true), (0, "/a/p.html", true), (0, "/a/q.html", true)] := by
  decide +kernel

end Estate

end Stencil
