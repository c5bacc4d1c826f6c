import Stencil.Proofs.Caching.Transparency

/-!
# Handlers with different settings on one cache

What is kept for a template is kept under its path and the version of the compiler.  The other
settings of a handler go into the code that it compiles, and its policy decides whether the code is
kept, but neither is a part of the name.  Handlers that share a cache therefore use each other's
code.  That is right for a template when every handler that would keep code for it would keep the
same one.

## Main definitions

* `Handler.accepted?` — the code that a handler would keep for a template.
* `Handler.SharesWith` — handlers that share a cache.
* `Handler.Suits` — templates for which the handlers agree.
* `Site.shared`, `Site.alone` — what renders answer on a shared cache, and on an empty one.

## Main results

* `Handler.Stocked.load` — one load on a cache with code that suits.
* `Handler.suits_of_settings` — handlers that compile alike agree for every template.
* `Site.shared_eq_alone` — renders on a shared cache answer as on an empty one.
-/

namespace Stencil

namespace Handler

variable {h g : Handler} {t₀ : FileTree} {u : Template} {w v : World} {code : List Char}

/-! ### Handlers side by side -/

/-- The code that a handler would keep for a template with these files: the one it compiles, when
its policy lets it pass and it parses. -/
def accepted? (h : Handler) (t : FileTree) (u : Template) : Option (List Char) :=
  match t.read? u.path with
  | none => none
  | some source =>
    match h.codeOf t u source with
    | .error _ => none
    | .ok code =>
      match u.parse code with
      | .error _ => none
      | .ok _ => some code

/-- The program of a template with these files, compiled afresh. -/
def verdict (h : Handler) (t : FileTree) (u : Template) : Except TemplateError Program :=
  match t.read? u.path with
  | none => .error (.io u.path)
  | some source => (h.codeOf t u source).bind u.parse

/-- The handlers keep compiled code in the same place: they have the same root, version and
identities, and use the same cache. -/
structure SharesWith (h g : Handler) : Prop where
  root : h.root = g.root
  version : h.config.version = g.config.version
  numbering : h.numbering = g.numbering
  backend : h.backend = g.backend
  cacheDir : h.backend = .files → h.cacheDir = g.cacheDir

/-- The names of compiled files, if the handler keeps code in files. -/
def Hidden (h : Handler) (names : List Segment) : Prop := h.backend = .files ∧ h.IsPlace names

instance (h : Handler) (names : List Segment) : Decidable (h.Hidden names) :=
  inferInstanceAs (Decidable (_ ∧ _))

theorem verdict_of_accepted? (hcode : h.accepted? t₀ u = some code) :
    ∃ program, u.parse code = .ok program ∧ h.verdict t₀ u = .ok program := by
  unfold accepted? at hcode
  unfold verdict
  split at hcode
  · cases hcode
  · rename_i source hsource
    split at hcode
    · cases hcode
    · rename_i hcodeOf
      split at hcode
      · cases hcode
      · rename_i program hparse
        cases hcode
        rw [hcodeOf]
        exact ⟨program, hparse, hparse⟩

theorem accepted?_eq {source : List Char} {program : Program}
    (hsource : t₀.read? u.path = some source) (hcode : h.codeOf t₀ u source = .ok code)
    (hparse : u.parse code = .ok program) : h.accepted? t₀ u = some code := by
  unfold accepted?
  rw [hsource]
  dsimp only
  rw [hcode]
  dsimp only
  rw [hparse]

/-- Handlers whose web root, entry constant, ruleset directory and policy are the same would keep
the same code. -/
theorem accepted?_of_settings (hshare : h.SharesWith g) (hweb : h.config.webRoot = g.config.webRoot)
    (hentry : h.config.entryConstant = g.config.entryConstant)
    (hruleset : h.config.rulesetDir = g.config.rulesetDir)
    (hpolicy : h.config.policy = g.config.policy) (t : FileTree) (p : Path) :
    h.accepted? t (.at h p) = g.accepted? t (.at g p) := by
  have htemplate : Template.at h p = Template.at g p := by
    unfold Template.at Template.ofPath
    rw [hshare.numbering, hshare.version, hshare.root, hweb]
  unfold accepted? codeOf compiler
  rw [htemplate, hshare.root, hentry, hruleset, hpolicy]

/-! ### One load -/

/-- A world in which all code that is kept for a template satisfies `M`; compiled files aside, the
files are as at the start. -/
structure Stocked (h : Handler) (t₀ : FileTree) (M : Path → List Char → Prop) (w : World) :
    Prop where
  trees : FileTree.AgreeOff h.Hidden w.tree t₀
  codes : HoldsCode w
  programs : HoldsPrograms w.programs
  entries : ∀ p code time, h.entry? w (.at h p) = some (code, time) → M p code

/-- A result, and the world in which it is given. -/
def given (result : Except TemplateError Program) (w : World) :
    EStateM.Result TemplateError World Program :=
  match result with
  | .ok program => .ok program w
  | .error e => .error e w

/-- How a world is after a load of a template: code that is kept still satisfies `M`, and among the
compiled files only the one of the template may be new, and is there if the load was a success. -/
structure LoadsTo (h : Handler) (t₀ : FileTree) (M : Path → List Char → Prop) (u : Template)
    (w w' : World) : Prop where
  stocked : h.Stocked t₀ M w'
  events : w'.events = w.events
  grows : ∀ names, (w.tree.node? names).isSome → (w'.tree.node? names).isSome
  only : ∀ names, h.Hidden names → (w'.tree.node? names).isSome →
    (w.tree.node? names).isSome ∨ (names = u.place h ∧ ∃ program, h.verdict t₀ u = .ok program)
  there : h.backend = .files → ∀ program, h.verdict t₀ u = .ok program →
    (w'.tree.node? (u.place h)).isSome

theorem hidden_eq (hbackend : h.backend = .files) : h.Hidden = h.IsPlace := by
  funext names
  unfold Hidden
  simp [hbackend]

/-- The template and the directories that its directives name are no compiled files. -/
structure Apart (h : Handler) (t₀ : FileTree) (u : Template) : Prop where
  self : ¬ h.Hidden (u.path.target [])
  named : ∀ source ∈ t₀.read? u.path, ∀ q ∈ h.compiler.lookups u.path u.webPath source,
    ¬ h.Hidden (q.target [])

variable {M : Path → List Char → Prop}

namespace Stocked

/-- What is said of a world with a stock is about the files, the code and the programs. -/
theorem congr (hs : h.Stocked t₀ M w) (htree : v.tree = w.tree) (hmemory : v.memory = w.memory)
    (hprograms : HoldsPrograms v.programs) : h.Stocked t₀ M v where
  trees := htree ▸ hs.trees
  codes key e he := hs.codes key e (hmemory ▸ he)
  programs := hprograms
  entries p code time hentry := by
    have hsame : h.entry? v (.at h p) = h.entry? w (.at h p) := by
      unfold entry?
      rw [htree, hmemory]
    exact hs.entries p code time (hsame ▸ hentry)

section Loading

variable (hroot : Path.isAbsolute h.root = true)
  (hinj : ∀ p q, h.numbering p h.config.version = h.numbering q h.config.version → p = q)
  (hdir : h.backend = .files → t₀.find? h.cacheDir = some .dir)

include hroot hdir in
theorem cacheDir (hs : h.Stocked t₀ M w) (hbackend : h.backend = .files) :
    w.tree.find? h.cacheDir = some .dir := by
  rw [← hdir hbackend]
  apply hs.trees.find?_eq
  rw [Path.target_of_isAbsolute (isAbsolute_cacheDir hroot), hidden_eq hbackend]
  exact not_isPlace_cacheDir h

include hinj in
theorem entries_of_keep (hs : h.Stocked t₀ M w) {p : Path} {code : List Char} (hM : M p code)
    (hentry : ∀ v, h.entry? (h.keep (.at h p) code w) v =
      if v.identity = (Template.at h p).identity then some (code, w.now) else h.entry? w v)
    (q : Path) (code' : List Char) (time : Nat)
    (hget : h.entry? (h.keep (.at h p) code w) (.at h q) = some (code', time)) : M q code' := by
  rw [hentry] at hget
  split at hget
  · rename_i hidentity
    cases hget
    exact hinj q p hidentity ▸ hM
  · exact hs.entries q code' time hget

include hroot hinj hdir in
/-- Code that satisfies `M` may be kept; then it is there. -/
theorem keep (hs : h.Stocked t₀ M w) {p : Path} {code : List Char} (hM : M p code) :
    h.Stocked t₀ M (h.keep (.at h p) code w) ∧
      (∀ names, (w.tree.node? names).isSome → ((h.keep (.at h p) code w).tree.node? names).isSome) ∧
      (∀ names, ((h.keep (.at h p) code w).tree.node? names).isSome →
        (w.tree.node? names).isSome ∨ names = (Template.at h p).place h) ∧
      (h.backend = .files →
        ((h.keep (.at h p) code w).tree.node? ((Template.at h p).place h)).isSome) := by
  have hprograms : HoldsPrograms (h.keep (.at h p) code w).programs :=
    (keep_others h (.at h p) code w).1 ▸ hs.programs
  cases hbackend : h.backend with
  | memory =>
    have htree : (h.keep (.at h p) code w).tree = w.tree := by
      unfold Handler.keep
      rw [hbackend]
    refine ⟨⟨htree ▸ hs.trees, holdsCode_keep hs.codes, hprograms,
      hs.entries_of_keep hinj hM (entry?_keep_memory hbackend _ code w)⟩, ?_, ?_, nofun⟩
    · exact fun names hn => htree ▸ hn
    · exact fun names hn => .inl (htree ▸ hn)
  | files =>
    have hfind := hs.cacheDir hroot hdir hbackend
    have hagree := hs.trees
    rw [hidden_eq hbackend] at hagree
    have hplaces := fun names hn => (hagree.noDir names hn).1
    have hplace := hplaces _ (isPlace_place h (.at h p))
    have htree : (h.keep (.at h p) code w).tree =
        w.tree.setNode ((Template.at h p).place h) (.file (.text code) w.now) := by
      rw [tree_keep hroot hfind hplace code, hbackend]
    have hne : (Template.at h p).place h ≠ [] := by
      unfold Template.place
      simp
    have hself : (h.keep (.at h p) code w).tree.node? ((Template.at h p).place h) =
        some (.file (.text code) w.now) := by
      rw [htree, FileTree.node?_setNode_self _ hne]
    have hother : ∀ names, names ≠ (Template.at h p).place h →
        (h.keep (.at h p) code w).tree.node? names = w.tree.node? names := by
      intro names hn
      rw [htree, FileTree.node?_setNode_of_ne _ hn.symm]
    refine ⟨⟨?_, holdsCode_keep hs.codes, hprograms,
      hs.entries_of_keep hinj hM (entry?_keep hroot hfind hplace code)⟩, ?_, ?_, ?_⟩
    · rw [hidden_eq hbackend]
      exact (agreeOff_keep hroot hfind hplaces code).trans hagree
    · intro names hn
      by_cases heq : names = (Template.at h p).place h
      · rw [heq, hself]
        rfl
      · rwa [hother names heq]
    · intro names hn
      by_cases heq : names = (Template.at h p).place h
      · exact .inr heq
      · exact .inl (hother names heq ▸ hn)
    · intro _
      rw [hself]
      rfl

/-- A load that changes nothing but counts and programs. -/
theorem loadsTo (hs : h.Stocked t₀ M w) (htree : v.tree = w.tree) (hmemory : v.memory = w.memory)
    (hprograms : HoldsPrograms v.programs) (hevents : v.events = w.events)
    (hthere : h.backend = .files → ∀ program, h.verdict t₀ u = .ok program →
      (w.tree.node? (u.place h)).isSome) : h.LoadsTo t₀ M u w v where
  stocked := hs.congr htree hmemory hprograms
  events := hevents
  grows _ hn := htree ▸ hn
  only _ _ hn := .inl (htree ▸ hn)
  there hbackend program hprogram := htree ▸ hthere hbackend program hprogram

variable {p : Path} (hp : Path.isAbsolute p = true) (hapart : h.Apart t₀ (.at h p))
  (hM : ∀ code, M p code ↔ h.accepted? t₀ (.at h p) = some code)

include hp hapart in
theorem find?_eq (hs : h.Stocked t₀ M w) : w.tree.find? p = t₀.find? p := by
  apply hs.trees.find?_eq
  rw [Path.target_of_isAbsolute hp]
  exact hapart.self

include hroot hp hapart in
theorem codeOf_eq (hs : h.Stocked t₀ M w) {source : List Char}
    (hsource : t₀.read? p = some source) :
    h.codeOf w.tree (.at h p) source = h.codeOf t₀ (.at h p) source := by
  apply codeOf_congr
  intro q hq
  have hqabs : Path.isAbsolute q = true := by
    obtain ⟨declared, -, hq⟩ := List.mem_flatMap.mp hq
    exact isAbsolute_of_mem_lookups hroot hp hq
  exact hs.trees.canonical?_eq_of_not hqabs (hapart.named source hsource q hq)

include hroot hM in
/-- Code that is kept and fresh gives the program that compiling afresh gives. -/
theorem load_kept (hs : h.Stocked t₀ M w) {changed : Nat}
    (hkept : h.kept (.at h p) changed w = some code) :
    ∃ w', program (.at h p) code { w with reused := w.reused + 1 } =
      given (h.verdict t₀ (.at h p)) w' ∧ h.LoadsTo t₀ M (.at h p) w w' := by
  obtain ⟨time, hentry, -⟩ := entry?_of_kept hroot hs.codes hkept
  obtain ⟨program, hparse, hverdict⟩ :=
    verdict_of_accepted? ((hM code).mp (hs.entries p code time hentry))
  have hthere : h.backend = .files → (w.tree.node? ((Template.at h p).place h)).isSome := by
    intro hbackend
    unfold entry? at hentry
    simp only [hbackend] at hentry
    split at hentry
    · rename_i hnode
      rw [hnode]
      rfl
    · cases hentry
  rcases program_cases (w := { w with reused := w.reused + 1 }) hs.programs (.at h p) code with
    ⟨e, herror, -⟩ | ⟨program', programs, hok, hprograms, heq⟩
  · rw [hparse] at herror
    cases herror
  · rw [hparse] at hok
    cases hok
    rw [heq, hverdict]
    exact ⟨_, rfl, hs.loadsTo rfl rfl hprograms rfl fun hbackend _ _ => hthere hbackend⟩

include hroot hinj hdir hp hapart hM in
/-- A template that is compiled has the program that compiling it afresh gives. -/
theorem load_anew (hs : h.Stocked t₀ M w) :
    ∃ w', h.loadAnew (.at h p) w = given (h.verdict t₀ (.at h p)) w' ∧
      h.LoadsTo t₀ M (.at h p) w w' := by
  have hread : w.tree.read? (Template.at h p).path = t₀.read? (Template.at h p).path :=
    FileTree.read?_congr (hs.find?_eq hp hapart)
  have hfail : ∀ v e, v.tree = w.tree → v.memory = w.memory → v.programs = w.programs →
      v.events = w.events → h.verdict t₀ (.at h p) = .error e →
      h.LoadsTo t₀ M (.at h p) w v := by
    intro v e htree hmemory hprograms hevents hverdict
    refine hs.loadsTo htree hmemory (hprograms ▸ hs.programs) hevents fun _ program hok => ?_
    rw [hverdict] at hok
    cases hok
  rw [loadAnew_eq, compile_eq, hread]
  cases hsource : t₀.read? (Template.at h p).path with
  | none =>
    have hverdict : h.verdict t₀ (.at h p) = .error (.io p) := by
      unfold verdict
      rw [hsource]
      rfl
    rw [hverdict]
    exact ⟨w, rfl, hfail _ _ rfl rfl rfl rfl hverdict⟩
  | some source =>
    dsimp only
    rw [hs.codeOf_eq hroot hp hapart hsource]
    have hverdict : h.verdict t₀ (.at h p) =
        (h.codeOf t₀ (.at h p) source).bind (Template.at h p).parse := by
      unfold verdict
      rw [hsource]
    cases hcode : h.codeOf t₀ (.at h p) source with
    | error e =>
      rw [hcode] at hverdict
      rw [hverdict]
      exact ⟨_, rfl, hfail _ _ rfl rfl rfl rfl hverdict⟩
    | ok code =>
      rw [hcode] at hverdict
      dsimp only
      rcases program_cases (w := { w with compiled := w.compiled + 1 }) hs.programs (.at h p) code
        with ⟨e, herror, heq⟩ | ⟨program, programs, hok, hprograms, heq⟩
      · rw [show h.verdict t₀ (.at h p) = .error e from hverdict.trans herror, heq]
        exact ⟨_, rfl, hfail _ _ rfl rfl rfl rfl (hverdict.trans herror)⟩
      · have hok' : h.verdict t₀ (.at h p) = .ok program := hverdict.trans hok
        rw [hok', heq]
        have hparsed : h.Stocked t₀ M { w with compiled := w.compiled + 1, programs := programs } :=
          hs.congr rfl rfl hprograms
        obtain ⟨hstocked, hgrows, honly, hthere⟩ :=
          hparsed.keep hroot hinj hdir ((hM code).mpr (accepted?_eq hsource hcode hok))
        exact ⟨_, rfl,
          { stocked := hstocked
            events := (keep_others h (.at h p) code _).2
            grows := hgrows
            only := fun names _ hn => (honly names hn).imp_right fun heq => ⟨heq, program, hok'⟩
            there := fun hbackend _ _ => hthere hbackend }⟩

include hroot hinj hdir hp hapart hM in
/-- **A load on a cache with code that suits** ends as compiling afresh does. -/
theorem load (hs : h.Stocked t₀ M w) :
    ∃ w', h.load (.at h p) w = given (h.verdict t₀ (.at h p)) w' ∧
      h.LoadsTo t₀ M (.at h p) w w' := by
  rw [load_eq]
  cases htime : w.tree.time? (Template.at h p).path with
  | none =>
    have hread : t₀.read? (Template.at h p).path = none :=
      (FileTree.read?_congr (hs.find?_eq hp hapart)).symm.trans (FileTree.read?_eq_none htime)
    have hverdict : h.verdict t₀ (.at h p) = .error (.io p) := by
      unfold verdict
      rw [hread]
      rfl
    rw [hverdict]
    refine ⟨w, rfl, hs.loadsTo rfl rfl hs.programs rfl fun _ program hok => ?_⟩
    rw [hverdict] at hok
    cases hok
  | some time =>
    dsimp only
    cases hkept : h.kept (.at h p) (max time h.compilerTime) w with
    | some code => exact hs.load_kept hroot hM hkept
    | none => exact hs.load_anew hroot hinj hdir hp hapart hM

end Loading

/-- A handler that shares the cache finds the same code there. -/
theorem other (hs : h.Stocked t₀ M w) (hshare : h.SharesWith g) (htree : v.tree = w.tree)
    (hmemory : v.memory = w.memory) (hprograms : HoldsPrograms v.programs) :
    g.Stocked t₀ M v := by
  have hidentity : ∀ p, (Template.at g p).identity = (Template.at h p).identity := by
    intro p
    unfold Template.at Template.ofPath
    rw [hshare.numbering, hshare.version]
  have hhidden : g.Hidden = h.Hidden := by
    funext names
    unfold Hidden IsPlace
    rw [← hshare.backend]
    cases hbackend : h.backend with
    | memory => simp
    | files => rw [hshare.cacheDir hbackend]
  have hv := hs.congr htree hmemory hprograms
  refine ⟨hhidden ▸ hv.trees, hv.codes, hprograms, fun p code time hentry => ?_⟩
  refine hv.entries p code time (hentry ▸ ?_)
  unfold entry? Template.cacheKey Template.place Template.compiledName
  rw [hidentity, ← hshare.backend]
  cases hbackend : h.backend with
  | memory => rfl
  | files => rw [hshare.cacheDir hbackend]

end Stocked

/-! ### Families of handlers -/

section Families

variable {n : Nat} (H : Fin n → Handler)

/-- Code that some handler would keep for the template at a path. -/
def CommonCode (t₀ : FileTree) (p : Path) (code : List Char) : Prop :=
  ∃ j, (H j).accepted? t₀ (.at (H j) p) = some code

/-- Code that the handler would keep for the template at a path. -/
def OwnCode (h : Handler) (t₀ : FileTree) (p : Path) (code : List Char) : Prop :=
  h.accepted? t₀ (.at h p) = some code

/-- The template is no compiled file and has nothing to do with one, and whatever some handler would
keep for it is what this one would keep. -/
structure Suits (t₀ : FileTree) (i : Fin n) (u : Template) : Prop where
  apart : (H i).Apart t₀ u
  agree : ∀ j, ∀ code ∈ (H j).accepted? t₀ (.at (H j) u.path), (H i).accepted? t₀ u = some code

instance (h : Handler) (t : FileTree) (u : Template) : Decidable (h.Apart t u) :=
  decidable_of_iff (_ ∧ _) ⟨fun ⟨hself, hnamed⟩ => ⟨hself, hnamed⟩, fun ⟨hself, hnamed⟩ =>
    ⟨hself, hnamed⟩⟩

instance (t : FileTree) (i : Fin n) (u : Template) : Decidable (Suits H t i u) :=
  decidable_of_iff (_ ∧ _) ⟨fun ⟨hapart, hagree⟩ => ⟨hapart, hagree⟩, fun ⟨hapart, hagree⟩ =>
    ⟨hapart, hagree⟩⟩

variable {H} in
/-- When the handlers have the same settings for compilations, every template suits that has nothing
to do with compiled files. -/
theorem suits_of_settings (hshare : ∀ i j, (H i).SharesWith (H j))
    (hweb : ∀ i j, (H i).config.webRoot = (H j).config.webRoot)
    (hentry : ∀ i j, (H i).config.entryConstant = (H j).config.entryConstant)
    (hruleset : ∀ i j, (H i).config.rulesetDir = (H j).config.rulesetDir)
    (hpolicy : ∀ i j, (H i).config.policy = (H j).config.policy) (t : FileTree) (i : Fin n)
    {p : Path} (hapart : (H i).Apart t (.at (H i) p)) : Suits H t i (.at (H i) p) where
  apart := hapart
  agree j code hcode := by
    rw [← accepted?_of_settings (hshare j i) (hweb j i) (hentry j i) (hruleset j i) (hpolicy j i)]
    exact hcode

/-- A world on a shared cache beside one on a cache of the handler's own. -/
structure Beside (h : Handler) (t₀ : FileTree) (M : Path → List Char → Prop) (w v : World) :
    Prop where
  shared : h.Stocked t₀ M w
  own : h.Stocked t₀ (h.OwnCode t₀) v
  events : w.events = v.events
  fewer : ∀ names, h.Hidden names → (v.tree.node? names).isSome → (w.tree.node? names).isSome

variable {H} {i : Fin n} (hroot : Path.isAbsolute (H i).root = true)
  (hinj : ∀ p q, (H i).numbering p (H i).config.version = (H i).numbering q (H i).config.version →
    p = q)
  (hdir : (H i).backend = .files → t₀.find? (H i).cacheDir = some .dir)

include hroot hinj hdir in
/-- Loads on the two caches end alike, when the template suits. -/
theorem Beside.load (hb : (H i).Beside t₀ (CommonCode H t₀) w v) {p : Path}
    (hp : Path.isAbsolute p = true) (hsuits : Suits H t₀ i (.at (H i) p)) :
    Alike ((H i).Beside t₀ (CommonCode H t₀)) ((H i).load (.at (H i) p) w)
      ((H i).load (.at (H i) p) v) := by
  have hcommon : ∀ code, CommonCode H t₀ p code ↔ (H i).accepted? t₀ (.at (H i) p) = some code :=
    fun code => ⟨fun ⟨j, hj⟩ => hsuits.agree j code hj, fun hcode => ⟨i, hcode⟩⟩
  obtain ⟨w', hw, hshared⟩ := hb.shared.load hroot hinj hdir hp hsuits.apart hcommon
  obtain ⟨v', hv, hown⟩ := hb.own.load hroot hinj hdir hp hsuits.apart fun _ => Iff.rfl
  have hbeside : (H i).Beside t₀ (CommonCode H t₀) w' v' := by
    refine ⟨hshared.stocked, hown.stocked, ?_, fun names hn hnode => ?_⟩
    · rw [hshared.events, hown.events, hb.events]
    · rcases hown.only names hn hnode with hbefore | ⟨rfl, program, hok⟩
      · exact hshared.grows names (hb.fewer names hn hbefore)
      · exact hshared.there hn.1 program hok
  rw [hw, hv]
  cases (H i).verdict t₀ (.at (H i) p) with
  | ok program => exact .ok hbeside
  | error e => exact .error hbeside

/-- A world on a shared cache, with notes, beside one on a cache of the handler's own; it gets lost
when a template that is loaded does not suit. -/
def sharing (H : Fin n → Handler) (t₀ : FileTree) (i : Fin n) :
    Bond (World × List (Template × FileTree)) World where
  holds s v := (H i).Beside t₀ (CommonCode H t₀) s.1 v
  lost s := ∃ load ∈ s.2, ¬ Suits H t₀ i load.1

include hroot hinj hdir in
/-- As long as every template suits, the handler finds and loads on both caches alike. -/
theorem sharing_follows : (H i).cached.noting.Follows (H i) (sharing H t₀ i) (H i).cached where
  record_lost _ _ hs := hs
  record event s v hs := by
    have hs : (H i).Beside t₀ (CommonCode H t₀) s.1 v := hs
    exact ⟨hs.shared.congr rfl rfl hs.shared.programs, hs.own.congr rfl rfl hs.own.programs,
      congrArg (· ++ [event]) hs.events, hs.fewer⟩
  load_lost u s := by
    rintro ⟨load, hload, hnot⟩
    exact ⟨load, by rw [endState_noting]; exact List.mem_append_left _ hload, hnot⟩
  found dir file u s v hs hfind := by
    have hs : (H i).Beside t₀ (CommonCode H t₀) s.1 v := hs
    have hagree : FileTree.AgreeOff (H i).Hidden s.1.tree v.tree :=
      hs.shared.trees.trans hs.own.trees.symm
    have hdirAbs : Path.isAbsolute ((H i).root.join dir) = true := Path.isAbsolute_join hroot dir
    obtain ⟨-, hu, habs⟩ := Template.target_of_find hdirAbs hfind
    have hu : u = .at (H i) u.path := hu
    by_cases hsuits : Suits H t₀ i u
    · right
      constructor
      · exact Template.find_eq_of_sub hagree (fun _ => hagree.isFile_of_fewer hs.fewer) hdirAbs
          hsuits.apart.self hfind
      · rw [hu] at hsuits
        have halike := hs.load hroot hinj hdir habs hsuits
        rw [← hu] at halike
        exact alike_noting halike
    · left
      refine ⟨(u, s.1.tree), ?_, hsuits⟩
      rw [endState_noting]
      exact List.mem_append_right _ (List.mem_singleton_self _)
  missing dir file e s v hs hfind := by
    have hs : (H i).Beside t₀ (CommonCode H t₀) s.1 v := hs
    have hagree : FileTree.AgreeOff (H i).Hidden s.1.tree v.tree :=
      hs.shared.trees.trans hs.own.trees.symm
    exact Template.find_error_of_sub (fun _ => hagree.isFile_of_fewer hs.fewer)
      (Path.isAbsolute_join hroot dir) hfind

include hroot hinj hdir in
/-- A render on the shared cache and one on a cache of the handler's own end alike. -/
theorem Beside.render (hb : (H i).Beside t₀ (CommonCode H t₀) w v) (dir : Path) (file : List Char)
    (ctx : Context) (hsuits : ∀ load ∈ (H i).loads dir file ctx w, Suits H t₀ i load.1) :
    ((H i).render dir file ctx w).1 = ((H i).render dir file ctx v).1 ∧
      ((H i).render dir file ctx w).2.1 = ((H i).render dir file ctx v).2.1 ∧
      (H i).Beside t₀ (CommonCode H t₀) ((H i).render dir file ctx w).2.2
        ((H i).render dir file ctx v).2.2 := by
  have hsame := same_renderOver (sharing_follows hroot hinj hdir) dir file ctx
    (s := (w, [])) (t := v) hb
  obtain ⟨notes, hnoted⟩ := renderOver_noting (H i) (H i).cached dir file ctx w []
  rw [← render_eq] at hnoted
  unfold loads at hsuits
  rw [hnoted] at hsuits hsame
  rw [← render_eq] at hsame
  rcases hsame with ⟨load, hload, hnot⟩ | hsame
  · exact absurd (hsuits load hload) hnot
  · exact hsame

end Families

end Handler

/-! ### Visits -/

/-- A handler renders the template with a directory and a file name at a time. -/
structure Visit (n : Nat) where
  /-- The number of the handler. -/
  handler : Fin n
  /-- The time. -/
  now : Nat
  /-- The directory. -/
  dir : Path
  /-- The file name. -/
  file : List Char
  /-- The context. -/
  ctx : Context

namespace Site

open Handler

variable {n : Nat} (H : Fin n → Handler)

/-- What a visit answers, and the world afterwards. -/
def visited (s : Site) (visit : Visit n) : Answer × World :=
  match (H visit.handler).render visit.dir visit.file visit.ctx
    (s.enter visit.handler visit.now) with
  | (result, after, w) => ((result, after, w.events), w)

/-- What visits answer one after the other, on one cache. -/
def shared : Site → List (Visit n) → List Answer
  | _, [] => []
  | s, visit :: rest =>
    (visited H s visit).1 :: shared (s.leave visit.handler (visited H s visit).2) rest

/-- What a visit answers at the start, with nothing kept. -/
def alone (s : Site) (visit : Visit n) : Answer := (visited H s visit).1

/-- The visits in which all templates that are loaded suit the handler. -/
def Suited (t₀ : FileTree) : Site → List (Visit n) → Prop
  | _, [] => True
  | s, visit :: rest =>
    (∀ load ∈ (H visit.handler).loads visit.dir visit.file visit.ctx
        (s.enter visit.handler visit.now), Suits H t₀ visit.handler load.1) ∧
      Suited t₀ (s.leave visit.handler (visited H s visit).2) rest

instance decidableSuited (t₀ : FileTree) :
    ∀ (s : Site) (visits : List (Visit n)), Decidable (s.Suited H t₀ visits)
  | _, [] => .isTrue trivial
  | s, visit :: rest =>
    have := decidableSuited t₀ (s.leave visit.handler (visited H s visit).2) rest
    inferInstanceAs (Decidable (_ ∧ _))

/-- A site at the start: nothing is kept, and handlers that keep code in files have a directory for
it. -/
structure Fresh (s : Site) : Prop where
  root : ∀ i, Path.isAbsolute (H i).root = true
  cacheDir : ∀ i, (H i).backend = .files → s.world.tree.find? (H i).cacheDir = some .dir
  clean : ∀ i, ∀ names ∈ Assoc.keys s.world.tree.nodes, ¬ (H i).Hidden names
  memory : s.world.memory = []
  tables : ∀ i, s.tables i = []

variable {H} {s r : Site}

theorem Fresh.node?_eq_none (hfresh : s.Fresh H) (i : Fin n) (names : List Segment)
    (hn : (H i).Hidden names) : s.world.tree.node? names = none := by
  unfold FileTree.node?
  rw [if_neg]
  · exact Assoc.get?_eq_none fun hmem => hfresh.clean i names hmem hn
  · rintro rfl
    exact not_isPlace_nil (H i) hn.2

/-- At the start everything that is kept is as one likes. -/
theorem Fresh.stocked (hfresh : s.Fresh H) (M : Path → List Char → Prop) (i : Fin n) (now : Nat) :
    (H i).Stocked s.world.tree M (s.enter i now) where
  trees := by
    refine ⟨rfl, fun _ _ => rfl, fun names hn => ?_⟩
    have hdir : s.world.tree.isDirAt names = false := by
      unfold FileTree.isDirAt
      rw [hfresh.node?_eq_none i names hn]
      rfl
    exact ⟨hdir, hdir⟩
  codes key e he := by
    unfold Site.enter at he
    rw [hfresh.memory] at he
    cases he
  programs := by
    unfold Site.enter
    dsimp only
    rw [hfresh.tables]
    intro u code program hu
    cases hu
  entries p code time hentry := by
    unfold entry? Site.enter at hentry
    dsimp only at hentry
    cases hbackend : (H i).backend with
    | memory => simp [hbackend, hfresh.memory] at hentry
    | files =>
      have hn := hfresh.node?_eq_none i _ ⟨hbackend, isPlace_place (H i) (.at (H i) p)⟩
      simp [hbackend, hn] at hentry

/-- A visit to a site with a stock that suits answers as one at the start, and leaves such a
stock. -/
theorem visited_eq (hshare : ∀ i j, (H i).SharesWith (H j))
    (hinj : ∀ i p q, (H i).numbering p (H i).config.version =
      (H i).numbering q (H i).config.version → p = q)
    (hfresh : s.Fresh H)
    (hr : ∀ i now, (H i).Stocked s.world.tree (CommonCode H s.world.tree) (r.enter i now))
    (visit : Visit n)
    (hsuits : ∀ load ∈ (H visit.handler).loads visit.dir visit.file visit.ctx
      (r.enter visit.handler visit.now), Suits H s.world.tree visit.handler load.1) :
    (visited H r visit).1 = alone H s visit ∧
      ∀ i now, (H i).Stocked s.world.tree (CommonCode H s.world.tree)
        ((r.leave visit.handler (visited H r visit).2).enter i now) := by
  obtain ⟨i, now, dir, file, ctx⟩ := visit
  have hbeside : (H i).Beside s.world.tree (CommonCode H s.world.tree) (r.enter i now)
      (s.enter i now) := by
    refine ⟨hr i now, hfresh.stocked _ i now, rfl, fun names hn hnode => ?_⟩
    have hnone : (s.enter i now).tree.node? names = none := hfresh.node?_eq_none i names hn
    rw [hnone] at hnode
    cases hnode
  obtain ⟨hresult, hafter, hend⟩ :=
    hbeside.render (hfresh.root i) (hinj i) (hfresh.cacheDir i) dir file ctx hsuits
  constructor
  · unfold alone visited
    dsimp only
    rw [hresult, hafter, hend.events]
  · intro j later
    have hprograms : HoldsPrograms
        ((r.leave i (visited H r ⟨i, now, dir, file, ctx⟩).2).enter j later).programs := by
      -- the programs of the handler are those after the render, the other ones stay
      unfold Site.enter Site.leave
      dsimp only
      split
      · exact hend.shared.programs
      · exact (hr j later).programs
    exact hend.shared.other (hshare i j) rfl rfl hprograms

/-- Visits to a site with a stock that suits answer as ones at the start. -/
theorem shared_eq_of_stocked (hshare : ∀ i j, (H i).SharesWith (H j))
    (hinj : ∀ i p q, (H i).numbering p (H i).config.version =
      (H i).numbering q (H i).config.version → p = q)
    (hfresh : s.Fresh H)
    (hr : ∀ i now, (H i).Stocked s.world.tree (CommonCode H s.world.tree) (r.enter i now))
    (visits : List (Visit n)) (hsuited : r.Suited H s.world.tree visits) :
    r.shared H visits = visits.map (s.alone H) := by
  induction visits generalizing r with
  | nil => rfl
  | cons visit rest ih =>
    obtain ⟨hsuits, hrest⟩ := hsuited
    obtain ⟨hanswer, hr'⟩ := visited_eq hshare hinj hfresh hr visit hsuits
    unfold shared
    rw [hanswer, ih hr' hrest, List.map_cons]

/-- **Renders on a shared cache answer as on an empty one.**  Handlers with the same root, version
and identities share a cache, and may differ in everything else.  Nothing is kept at the start, and
the templates do not change.  Then every render answers what its handler would answer on an empty
cache of its own, as long as each template that is loaded suits: whatever one of the handlers would
keep for it is what this handler would keep. -/
theorem shared_eq_alone (hshare : ∀ i j, (H i).SharesWith (H j))
    (hinj : ∀ i p q, (H i).numbering p (H i).config.version =
      (H i).numbering q (H i).config.version → p = q)
    (s : Site) (hfresh : s.Fresh H) (visits : List (Visit n))
    (hsuited : s.Suited H s.world.tree visits) :
    s.shared H visits = visits.map (s.alone H) :=
  shared_eq_of_stocked hshare hinj hfresh (fun i now => hfresh.stocked _ i now) visits hsuited

/-! ### A page for two handlers -/

/-- The handlers of the page with different settings. -/
def pageHandlers (backend : Backend) (config : Fin 2 → Config) (i : Fin 2) : Handler :=
  { pageHandler backend with config := config i }

/-- The settings of a strict handler and of a lenient one. -/
def pagePolicies (i : Fin 2) : Config :=
  { cacheDir := ['c'], policy := if i = 0 then .strict else .lenient }

/-- The settings of handlers with different entry constants. -/
def pageConstants (i : Fin 2) : Config :=
  { cacheDir := ['c'], entryConstant := if i = 0 then "A" else "B" }

/-- One handler renders the page after the other. -/
def pageVisits : List (Visit 2) :=
  [⟨0, 5, ['.'], "p.html".toList, {}⟩, ⟨1, 6, ['.'], "p.html".toList, {}⟩]

theorem sharesWith_pageHandlers (backend : Backend) {config : Fin 2 → Config}
    (hversion : ∀ i j, (config i).version = (config j).version)
    (hcacheDir : ∀ i j, (config i).cacheDir = (config j).cacheDir) (i j : Fin 2) :
    (pageHandlers backend config i).SharesWith (pageHandlers backend config j) where
  root := rfl
  version := hversion i j
  numbering := rfl
  backend := rfl
  cacheDir _ := by
    unfold pageHandlers Handler.cacheDir Config.cachePath
    dsimp only
    rw [hcacheDir i j]

/-- A strict handler and a lenient one answer on a shared cache as on caches of their own. -/
theorem shared_eq_alone_page :
    pageSite.Fresh (pageHandlers .files pagePolicies) ∧
      pageSite.Suited (pageHandlers .files pagePolicies) pageFiles pageVisits ∧
      pageSite.shared (pageHandlers .files pagePolicies) pageVisits =
        pageVisits.map (pageSite.alone (pageHandlers .files pagePolicies)) := by
  have hfresh : pageSite.Fresh (pageHandlers .files pagePolicies) :=
    ⟨fun _ => rfl, by decide +kernel, by decide +kernel, rfl, fun _ => rfl⟩
  have hsuited : pageSite.Suited (pageHandlers .files pagePolicies) pageFiles pageVisits := by
    decide +kernel
  exact ⟨hfresh, hsuited, shared_eq_alone
    (sharesWith_pageHandlers .files (fun _ _ => rfl) fun _ _ => rfl)
    (fun _ _ _ hpq => (Numbering.exact_inj hpq).1) pageSite hfresh pageVisits hsuited⟩

/-- The code of one handler is used by the other one, which has another entry constant, and then
says nothing. -/
theorem shared_ne_alone_page :
    (∀ i j, (pageHandlers .files pageConstants i).SharesWith
        (pageHandlers .files pageConstants j)) ∧
      pageSite.Fresh (pageHandlers .files pageConstants) ∧
      pageSite.shared (pageHandlers .files pageConstants) pageVisits ≠
        pageVisits.map (pageSite.alone (pageHandlers .files pageConstants)) := by
  refine ⟨sharesWith_pageHandlers .files (fun _ _ => rfl) fun _ _ => rfl,
    ⟨fun _ => rfl, by decide +kernel, by decide +kernel, rfl, fun _ => rfl⟩, fun hsame => ?_⟩
  have hlast : (pageSite.shared (pageHandlers .files pageConstants) pageVisits).map
      (fun answer => answer.1.toOption) = [some "xy", some ""] := by
    decide +kernel
  rw [hsame] at hlast
  revert hlast
  decide +kernel

end Site

end Stencil
