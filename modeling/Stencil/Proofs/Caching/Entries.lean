import Stencil.Proofs.Caching.Stores
import Stencil.Proofs.Caching.Trees

/-!
# Compiled code that is kept

Both backends keep one compiled code for each identity, with the time when it was stored: one in an
entry of the memory, the other in a compiled file.  The view of both is the same, and so is what
loading and keeping do to it.

## Main definitions

* `Handler.codeOf`, `Template.parse` — the code of a source, and the program of a code.
* `Handler.entry?` — the code that is kept for a template, with its time.
* `Handler.IsPlace`, `Handler.InCache` — the names of compiled files, and those under the cache
  directory.

## Main results

* `Handler.load_eq`, `Handler.loadAfresh_eq` — the steps of loading a template.
* `Handler.entry?_of_kept` — code that counts is kept and fresh.
* `Handler.entry?_keep`, `Handler.agreeOff_keep` — what is kept after a template was compiled.
-/

namespace Stencil

/-- The program of compiled code. -/
def Template.parse (u : Template) (code : List Char) : Except TemplateError Program :=
  match parseProgram (String.ofList u.programName) code with
  | .error e => .error (.parse e)
  | .ok program => .ok program

namespace Handler

variable {h : Handler} {u : Template} {w : World} {code : List Char}

/-! ### Loading -/

/-- The code of a template with a source, or the diagnostics, when the policy refuses them. -/
def codeOf (h : Handler) (t : FileTree) (u : Template) (source : List Char) :
    Except TemplateError (List Char) :=
  let result := h.compiler.compile t u.path u.webPath source
  if result.diagnostics ≠ [] ∧ h.config.policy = .strict then
    .error (.compile u.path result.diagnostics)
  else .ok result.code

theorem compile_eq (h : Handler) (u : Template) (w : World) :
    h.compile u w = match w.tree.read? u.path with
      | none => .error (.io u.path) w
      | some source =>
        match h.codeOf w.tree u source with
        | .error e => .error e { w with compiled := w.compiled + 1 }
        | .ok code => .ok code { w with compiled := w.compiled + 1 } := by
  unfold compile codeOf
  rw [get_bind_eq]
  cases w.tree.read? u.path with
  | none => rfl
  | some source =>
    dsimp only
    split
    · rfl
    · rfl

theorem program_eq (u : Template) (code : List Char) (w : World) :
    program u code w =
      match (Assoc.get? w.programs u.identity).filter fun kept => kept.1 == code with
      | some (_, program) => .ok program w
      | none =>
        match u.parse code with
        | .error e => .error e w
        | .ok program =>
          .ok program
            { w with programs := Assoc.insert w.programs u.identity (code, program) } := by
  unfold program Template.parse
  rw [get_bind_eq]
  generalize (Assoc.get? w.programs u.identity).filter (fun kept => kept.1 == code) = found
  cases found with
  | some entry => rfl
  | none =>
    dsimp only
    cases parseProgram (String.ofList u.programName) code <;> rfl

/-- The program of a template that is compiled anew and kept. -/
def loadAnew (h : Handler) (u : Template) : Action Program := do
  let code ← h.compile u
  let program ← program u code
  modify (h.keep u code)
  pure program

/-- The steps of loading a template. -/
theorem load_eq (h : Handler) (u : Template) (w : World) :
    h.load u w = match w.tree.time? u.path with
      | none => .error (.io u.path) w
      | some time =>
        match h.kept u (max time h.compilerTime) w with
        | some code => program u code { w with reused := w.reused + 1 }
        | none => h.loadAnew u w := by
  unfold load
  rw [get_bind_eq]
  cases w.tree.time? u.path with
  | none => rfl
  | some time =>
    dsimp only
    cases h.kept u (max time h.compilerTime) w <;> rfl

theorem loadAnew_eq (h : Handler) (u : Template) (w : World) :
    h.loadAnew u w = match h.compile u w with
      | .error e w => .error e w
      | .ok code w =>
        match program u code w with
        | .error e w => .error e w
        | .ok program w => .ok program (h.keep u code w) := by
  unfold loadAnew
  rw [bind_eq]
  cases h.compile u w with
  | error e w₁ => rfl
  | ok code w₁ =>
    dsimp only
    rw [bind_eq]
    cases program u code w₁ <;> rfl

/-- The steps of loading a template without a cache. -/
theorem loadAfresh_eq (h : Handler) (u : Template) (w : World) :
    h.loadAfresh u w = match w.tree.read? u.path with
      | none => .error (.io u.path) w
      | some source =>
        match h.codeOf w.tree u source with
        | .error e => .error e { w with compiled := w.compiled + 1 }
        | .ok code =>
          match u.parse code with
          | .error e => .error e { w with compiled := w.compiled + 1 }
          | .ok program => .ok program { w with compiled := w.compiled + 1 } := by
  unfold loadAfresh Template.parse
  rw [bind_eq, compile_eq]
  cases w.tree.read? u.path with
  | none => rfl
  | some source =>
    dsimp only
    cases h.codeOf w.tree u source with
    | error e => rfl
    | ok code =>
      dsimp only
      cases parseProgram (String.ofList u.programName) code <;> rfl

/-! ### Places -/

/-- The names of compiled files: those in the cache directory with the extension. -/
def IsPlace (h : Handler) (names : List Segment) : Prop :=
  names.dropLast = h.cacheDir.target [] ∧ ".compiled.tpl".toList <:+ names.getLastD []

instance (h : Handler) (names : List Segment) : Decidable (h.IsPlace names) :=
  inferInstanceAs (Decidable (_ ∧ _))

/-- The names that lie under the cache directory. -/
def InCache (h : Handler) (names : List Segment) : Prop := h.cacheDir.target [] <+: names

instance (h : Handler) (names : List Segment) : Decidable (h.InCache names) :=
  inferInstanceAs (Decidable (_ <+: _))

theorem isPlace_place (h : Handler) (u : Template) : h.IsPlace (u.place h) := by
  unfold IsPlace Template.place Template.compiledName
  rw [List.dropLast_concat]
  exact ⟨rfl, by simp⟩

theorem IsPlace.inCache {names : List Segment} (hn : h.IsPlace names) : h.InCache names := by
  unfold InCache
  rw [← hn.1]
  exact List.dropLast_prefix names

theorem not_isPlace_nil (h : Handler) : ¬ h.IsPlace [] := by
  rintro ⟨-, hext⟩
  exact absurd hext (by decide)

theorem not_isPlace_cacheDir (h : Handler) : ¬ h.IsPlace (h.cacheDir.target []) := by
  intro hplace
  rcases List.eq_nil_or_concat (h.cacheDir.target []) with hnil | ⟨init, last, hlast⟩
  · rw [hnil] at hplace
    exact not_isPlace_nil h hplace
  · have hlen := congrArg List.length hplace.1
    rw [hlast, List.length_dropLast, List.length_concat] at hlen
    omega

/-- Templates with the same place have the same identity. -/
theorem place_inj {v : Template} (huv : u.place h = v.place h) : u.identity = v.identity := by
  have hname := List.append_cancel_left huv
  exact hexText_inj (List.append_cancel_right (List.cons.inj hname).1)

theorem place_congr {v : Template} (huv : u.identity = v.identity) : u.place h = v.place h := by
  unfold Template.place Template.compiledName
  rw [huv]

theorem isAbsolute_cacheDir (hroot : Path.isAbsolute h.root = true) :
    Path.isAbsolute h.cacheDir = true :=
  Path.isAbsolute_join hroot _

/-! ### Entries -/

/-- The code that is kept for a template, and when it was stored. -/
def entry? (h : Handler) (w : World) (u : Template) : Option (List Char × Nat) :=
  match h.backend with
  | .memory =>
    match Assoc.get? w.memory u.cacheKey with
    | some ⟨.code code, time⟩ => some (code, time)
    | _ => none
  | .files =>
    match w.tree.node? (u.place h) with
    | some (.file (.text code) time) => some (code, time)
    | _ => none

/-- The entries of the memory hold code, not files. -/
def HoldsCode (w : World) : Prop :=
  ∀ key e, Assoc.get? w.memory key = some e → ∃ code, e.payload = .code code

/-- Code that counts is kept, and no older than the change. -/
theorem entry?_of_kept (hroot : Path.isAbsolute h.root = true) (hcodes : HoldsCode w)
    {changed : Nat} (hkept : h.kept u changed w = some code) :
    ∃ time, h.entry? w u = some (code, time) ∧ changed ≤ time := by
  unfold kept at hkept
  unfold entry?
  cases hbackend : h.backend with
  | memory =>
    simp only [hbackend] at hkept ⊢
    unfold Cache.get? at hkept
    cases he : Assoc.get? w.memory u.cacheKey with
    | none => simp [he] at hkept
    | some e =>
      obtain ⟨text, htext⟩ := hcodes _ _ he
      rcases e with ⟨payload, time⟩
      cases htext
      simp only [he] at hkept ⊢
      by_cases hfresh : changed ≤ time
      · simp only [CacheEntry.isFresh, hfresh, decide_true, if_true, Option.some.injEq] at hkept
        exact ⟨time, by rw [hkept], hfresh⟩
      · simp [CacheEntry.isFresh, hfresh] at hkept
  | files =>
    simp only [hbackend] at hkept ⊢
    unfold freshFile at hkept
    split at hkept
    · rename_i text time hfind
      split at hkept
      · rename_i hfresh
        cases hkept
        obtain ⟨r, hr, hnode⟩ := Option.bind_eq_some_iff.mp hfind
        have habs := isAbsolute_cacheDir hroot
        have hplace : r = u.place h := by
          rw [FileTree.names?_eq_target_of_isAbsolute (Path.isAbsolute_join habs _) hr]
          exact Path.target_join_name habs u.isFileName_compiledName
        rw [← hplace, hnode]
        exact ⟨time, rfl, hfresh.1⟩
      · contradiction
    · contradiction

/-- What keeping compiled code does to the files: nothing, or a compiled file is set. -/
theorem tree_keep (hroot : Path.isAbsolute h.root = true)
    (hdir : w.tree.find? h.cacheDir = some .dir) (hplace : w.tree.isDirAt (u.place h) = false)
    (code : List Char) :
    (h.keep u code w).tree = match h.backend with
      | .memory => w.tree
      | .files => w.tree.setNode (u.place h) (.file (.text code) w.now) := by
  unfold keep
  cases h.backend with
  | memory => rfl
  | files =>
    dsimp only
    have hnode : ¬ w.tree.node? (u.place h) = some .dir := by
      simpa [FileTree.isDirAt] using hplace
    unfold Template.compiledFile
    rw [writeCompiled_eq (isAbsolute_cacheDir hroot) u.isFileName_compiledName hdir]
    exact if_neg hnode

/-- What is kept in memory after the code of a template was: this code for its identity, and for the
other ones what was kept before. -/
theorem entry?_keep_memory (hbackend : h.backend = .memory) (u : Template) (code : List Char)
    (w : World) (v : Template) :
    h.entry? (h.keep u code w) v =
      if v.identity = u.identity then some (code, w.now) else h.entry? w v := by
  unfold entry? keep
  simp only [hbackend]
  unfold Cache.put
  by_cases huv : v.identity = u.identity
  · have hkey : v.cacheKey = u.cacheKey := by
      unfold Template.cacheKey
      rw [huv]
    rw [if_pos huv, hkey, Assoc.get?_insert_self]
  · have hkey : u.cacheKey ≠ v.cacheKey := fun hkey => huv (Template.cacheKey_inj hkey).symm
    rw [if_neg huv, Assoc.get?_insert_of_ne _ hkey]

/-- What is kept after the code of a template was: this code for its identity, and for the other
ones what was kept before. -/
theorem entry?_keep (hroot : Path.isAbsolute h.root = true)
    (hdir : w.tree.find? h.cacheDir = some .dir) (hplace : w.tree.isDirAt (u.place h) = false)
    (code : List Char) (v : Template) :
    h.entry? (h.keep u code w) v =
      if v.identity = u.identity then some (code, w.now) else h.entry? w v := by
  cases hbackend : h.backend with
  | memory => exact entry?_keep_memory hbackend u code w v
  | files =>
    have htree := tree_keep hroot hdir hplace code
    unfold entry?
    simp only [hbackend] at htree ⊢
    rw [htree]
    by_cases huv : v.identity = u.identity
    · rw [if_pos huv, place_congr huv, FileTree.node?_setNode_self]
      unfold Template.place
      simp
    · rw [if_neg huv, FileTree.node?_setNode_of_ne]
      exact fun hp => huv (place_inj hp).symm

/-- Keeping compiled code changes the files in one place at most. -/
theorem agreeOff_keep (hroot : Path.isAbsolute h.root = true)
    (hdir : w.tree.find? h.cacheDir = some .dir)
    (hplaces : ∀ names, h.IsPlace names → w.tree.isDirAt names = false) (code : List Char) :
    FileTree.AgreeOff h.IsPlace (h.keep u code w).tree w.tree := by
  rw [tree_keep hroot hdir (hplaces _ (isPlace_place h u)) code]
  cases h.backend with
  | memory => exact ⟨rfl, fun _ _ => rfl, fun names hn => ⟨hplaces names hn, hplaces names hn⟩⟩
  | files =>
    refine ⟨rfl, fun names hn => ?_, fun names hn => ⟨?_, hplaces names hn⟩⟩
    · apply FileTree.node?_setNode_of_ne
      rintro rfl
      exact hn (isPlace_place h u)
    · have hbefore := hplaces names hn
      unfold FileTree.isDirAt at hbefore ⊢
      dsimp only
      by_cases heq : u.place h = names
      · have hne : names ≠ [] := by
          rintro rfl
          exact not_isPlace_nil h hn
        rw [heq, FileTree.node?_setNode_self _ hne]
        simp
      · rw [FileTree.node?_setNode_of_ne _ heq]
        exact hbefore

theorem keep_others (h : Handler) (u : Template) (code : List Char) (w : World) :
    (h.keep u code w).programs = w.programs ∧ (h.keep u code w).events = w.events := by
  unfold keep
  cases h.backend <;> exact ⟨rfl, rfl⟩

theorem holdsCode_keep (hcodes : HoldsCode w) : HoldsCode (h.keep u code w) := by
  unfold keep
  cases h.backend with
  | files => exact hcodes
  | memory =>
    intro key e he
    dsimp only [Cache.put] at he
    by_cases hkey : u.cacheKey = key
    · subst hkey
      rw [Assoc.get?_insert_self] at he
      cases he
      exact ⟨code, rfl⟩
    · rw [Assoc.get?_insert_of_ne _ hkey] at he
      exact hcodes key e he

end Handler

end Stencil
