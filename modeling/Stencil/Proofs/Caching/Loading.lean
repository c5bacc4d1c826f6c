import Stencil.Proofs.Caching.Soundness

/-!
# One load of a template

A load of a template either fails, or it takes code that is kept, or it compiles the template and
keeps the code.  Compiled code goes to the one entry or the one file of its template; where the
cache directory does not exist, it is made first.

## Main definitions

* `Handler.Accepts` — code that a handler compiles for a template, that its policy lets pass, and
  that parses.
* `Handler.loadedCode?` — the code of which a load takes the program.
* `Retains` — the programs after one of them was put in the place of its template.
* `Handler.LoadCase` — the ways in which a load ends.

## Main results

* `node?_of_writeCompiled` — the files after compiled code was written, if it could be.
* `Handler.load_cases` — every load ends in one of the ways.
-/

namespace Stencil

open Text

/-! ### Writing compiled code -/

section Writing

variable {t : FileTree} {p dir : Path} {name : Segment} {other segs : List Segment}
  {content : Content} {time : Nat}

theorem leadFrom_joinSegments (hslash : ∀ s ∈ segs, '/' ∉ s) :
    leadFrom [] (splitText ['/'] (Path.joinSegments segs)) = leadFrom [] segs := by
  cases segs with
  | nil => rfl
  | cons s rest => rw [splitText_joinSegments (List.cons_ne_nil s rest) hslash]

/-- The directory of a name in a directory has the same names as that directory. -/
theorem Path.target_of_parent?_join_name (hp : Path.isAbsolute p = true) (hname : IsFileName name)
    (hdir : Path.parent? (p.join name) = some dir) : dir.target [] = p.target [] := by
  obtain ⟨base, idles, hjoin, hsplit, hidles⟩ := Path.split_join_name hp hname
  obtain ⟨ends, hbase, hends⟩ := Path.dropIdleEnd_append base
  obtain ⟨cs, -, hroot⟩ := Path.split_of_isAbsolute hp
  rw [hroot] at hsplit
  have hslash : ∀ s ∈ Path.dropIdleEnd base, '/' ∉ s := by
    intro s hs
    have hmem : s ∈ splitText ['/'] cs := by
      rw [show splitText ['/'] cs = base ++ idles from hsplit, hbase]
      simp [hs]
    exact notMem_of_mem_splitText hmem
  have hassembled : Path.assemble .root (Path.dropIdleEnd base) = dir := by
    unfold Path.parent? at hdir
    simpa [hjoin, hname.idle] using hdir
  rw [← hassembled]
  change leadFrom [] (splitText ['/'] (Path.joinSegments (Path.dropIdleEnd base))) = _
  rw [leadFrom_joinSegments hslash]
  unfold Path.target
  rw [hroot]
  dsimp only at hsplit ⊢
  have hlead : leadFrom [] base = leadFrom [] (Path.dropIdleEnd base) := by
    conv => lhs; rw [hbase, leadFrom_append, leadFrom_idle _ hends]
  rw [hsplit, leadFrom_append, leadFrom_idle _ hidles, hlead]

/-- No file comes into being when directories are made. -/
theorem FileTree.node?_of_makeAlong (t : FileTree) (names segs : List Segment)
    (hnode : (t.makeAlong names segs).1.node? other = some (.file content time)) :
    t.node? other = some (.file content time) := by
  induction segs generalizing t names with
  | nil => exact hnode
  | cons s rest ih =>
    unfold makeAlong at hnode
    split at hnode
    · split at hnode
      · exact ih _ _ hnode
      · split at hnode
        · exact ih _ _ hnode
        · split at hnode
          · exact ih _ _ hnode
          · have hset := ih _ _ hnode
            by_cases hother : names ++ [s] = other
            · subst hother
              rw [node?_setNode_self _ (by simp)] at hset
              cases hset
            · rwa [node?_setNode_of_ne _ hother] at hset
    · exact hnode

/-- After compiled code was written, all files were there before, except for the compiled one. -/
theorem node?_of_writeCompiled (hp : Path.isAbsolute p = true) (hname : IsFileName name)
    {code : List Char} {now : Nat}
    (hnode : (Handler.writeCompiled t (p.join name) name code now).node? other =
      some (.file content time)) :
    t.node? other = some (.file content time) ∨
      (other = p.target [] ++ [name] ∧ content = .text code) := by
  unfold Handler.writeCompiled at hnode
  obtain ⟨dir, hparent, habs, -⟩ := Path.parent?_join_name hp hname
  have htarget := Path.target_of_parent?_join_name hp hname hparent
  rw [hparent] at hnode
  dsimp only at hnode
  have hmade : ∀ t' made, t.makeDirs dir = (t', made) →
      t'.node? other = some (.file content time) → t.node? other = some (.file content time) := by
    intro t' made hmake hold
    unfold FileTree.makeDirs at hmake
    apply t.node?_of_makeAlong (t.startOf dir).1 (t.startOf dir).2
    rw [show t.makeAlong (t.startOf dir).1 (t.startOf dir).2 = (t', made) from hmake]
    exact hold
  generalize hmake : t.makeDirs dir = made at hnode
  obtain ⟨t', _ | _⟩ := made
  · exact .inl (hmade _ _ hmake hnode)
  · dsimp only at hnode
    unfold FileTree.write? at hnode
    cases hnames : t'.names? dir with
    | none =>
      rw [hnames] at hnode
      exact .inl (hmade _ _ hmake hnode)
    | some r =>
      rw [hnames] at hnode
      dsimp only at hnode
      split at hnode
      · rw [Option.getD_some, FileTree.names?_eq_target_of_isAbsolute habs hnames, htarget] at hnode
        by_cases hother : p.target [] ++ [name] = other
        · subst hother
          rw [FileTree.node?_setNode_self _ (by simp)] at hnode
          cases hnode
          exact .inr ⟨rfl, rfl⟩
        · rw [FileTree.node?_setNode_of_ne _ hother] at hnode
          exact .inl (hmade _ _ hmake hnode)
      · exact .inl (hmade _ _ hmake hnode)

end Writing

/-! ### Programs -/

/-- The programs after the one of some code was put in the place of its template. -/
structure Retains (u : Template) (code : List Char) (program : Program)
    (before after : Assoc Nat (List Char × Program)) : Prop where
  here : Assoc.get? after u.identity = some (code, program)
  others : ∀ id, id ≠ u.identity → Assoc.get? after id = Assoc.get? before id
  distinct : (Assoc.keys before).Nodup → (Assoc.keys after).Nodup
  holds : HoldsPrograms after

namespace Handler

variable {h : Handler} {u : Template} {w w' : World} {code : List Char} {program : Program}

/-- Code that the handler compiles for a template with these files, that its policy lets pass, and
that parses. -/
def Accepts (h : Handler) (t : FileTree) (u : Template) (code : List Char) : Prop :=
  (∃ source, t.read? u.path = some source ∧ h.codeOf t u source = .ok code) ∧
    ∃ program, u.parse code = .ok program

/-- The code of which a load takes the program: what is kept and fresh, or else what the handler
compiles. -/
def loadedCode? (h : Handler) (u : Template) (w : World) : Option (List Char) :=
  match w.tree.time? u.path with
  | none => none
  | some time =>
    match h.kept u (max time h.compilerTime) w with
    | some code => some code
    | none =>
      match h.compile u w with
      | .ok code _ => some code
      | .error _ _ => none

theorem program_error {e : TemplateError} (hprogram : Handler.program u code w = .error e w') :
    w' = w := by
  rw [program_eq] at hprogram
  split at hprogram
  · cases hprogram
  · split at hprogram
    · cases hprogram
      rfl
    · cases hprogram

theorem program_ok (hp : HoldsPrograms w.programs)
    (hprogram : Handler.program u code w = .ok program w') :
    w' = { w with programs := w'.programs } ∧ u.parse code = .ok program ∧
      Retains u code program w.programs w'.programs := by
  rw [program_eq] at hprogram
  split at hprogram
  · rename_i code' _ hfound
    obtain ⟨hget, hcode⟩ := Option.filter_eq_some_iff.mp hfound
    obtain rfl : code' = code := by simpa using hcode
    cases hprogram
    exact ⟨rfl, hp u _ _ hget, hget, fun _ _ => rfl, id, hp⟩
  · split at hprogram
    · cases hprogram
    · rename_i hparse
      cases hprogram
      exact ⟨rfl, hparse, Assoc.get?_insert_self .., fun _ hid =>
        Assoc.get?_insert_of_ne _ hid.symm _, fun hnodup => Assoc.nodup_keys_insert hnodup _ _,
        holdsPrograms_insert hp hparse⟩

theorem compile_error {e : TemplateError} (hcompile : h.compile u w = .error e w') :
    w'.tree = w.tree ∧ w'.memory = w.memory ∧ w'.programs = w.programs := by
  rw [compile_eq] at hcompile
  split at hcompile
  · cases hcompile
    exact ⟨rfl, rfl, rfl⟩
  · split at hcompile
    · cases hcompile
      exact ⟨rfl, rfl, rfl⟩
    · cases hcompile

theorem compile_ok (hcompile : h.compile u w = .ok code w') :
    (∃ source, w.tree.read? u.path = some source ∧ h.codeOf w.tree u source = .ok code) ∧
      w' = { w with compiled := w.compiled + 1 } := by
  rw [compile_eq] at hcompile
  split at hcompile
  · cases hcompile
  · rename_i source hsource
    split at hcompile
    · cases hcompile
    · rename_i hcode
      cases hcompile
      exact ⟨⟨source, hsource, hcode⟩, rfl⟩

/-! ### Loads -/

/-- The ways in which a load ends. -/
inductive LoadCase (h : Handler) (u : Template) (w : World) :
    EStateM.Result TemplateError World Program → Prop
  /-- The load fails, and what is kept stays. -/
  | failed {e : TemplateError} {w' : World} (htree : w'.tree = w.tree)
      (hmemory : w'.memory = w.memory) (hprograms : w'.programs = w.programs) :
      LoadCase h u w (.error e w')
  /-- The program is that of code that is kept. -/
  | reused {code : List Char} {program : Program} {w' : World} {changed : Nat}
      (hcode : h.loadedCode? u w = some code) (hkept : h.kept u changed w = some code)
      (hparse : u.parse code = .ok program) (htree : w'.tree = w.tree)
      (hmemory : w'.memory = w.memory) (hretains : Retains u code program w.programs w'.programs) :
      LoadCase h u w (.ok program w')
  /-- The template is compiled, and its code is kept. -/
  | compiled {code : List Char} {program : Program} {w' : World}
      (hcode : h.loadedCode? u w = some code) (haccepts : h.Accepts w.tree u code)
      (hparse : u.parse code = .ok program) (htree : w'.tree = (h.keep u code w).tree)
      (hmemory : w'.memory = (h.keep u code w).memory)
      (hretains : Retains u code program w.programs w'.programs) :
      LoadCase h u w (.ok program w')

/-- What is kept is about the files and the memory alone, and so is keeping. -/
theorem keep_congr (h : Handler) (u : Template) (code : List Char) {w₁ w₂ : World}
    (htree : w₁.tree = w₂.tree) (hmemory : w₁.memory = w₂.memory) (hnow : w₁.now = w₂.now) :
    (h.keep u code w₁).tree = (h.keep u code w₂).tree ∧
      (h.keep u code w₁).memory = (h.keep u code w₂).memory := by
  unfold keep
  rw [htree, hmemory, hnow]
  cases h.backend <;> exact ⟨rfl, rfl⟩

/-- **Every load fails, or takes kept code, or compiles and keeps.** -/
theorem load_cases (h : Handler) (u : Template) (w : World) (hp : HoldsPrograms w.programs) :
    h.LoadCase u w (h.load u w) := by
  rw [load_eq]
  cases htime : w.tree.time? u.path with
  | none => exact .failed rfl rfl rfl
  | some time =>
    dsimp only
    cases hkept : h.kept u (max time h.compilerTime) w with
    | some code =>
      dsimp only
      have hcode : h.loadedCode? u w = some code := by
        simp only [loadedCode?, htime, hkept]
      cases hprogram : Handler.program u code { w with reused := w.reused + 1 } with
      | error e w' =>
        cases program_error hprogram
        exact .failed rfl rfl rfl
      | ok program w' =>
        obtain ⟨hw', hparse, hretains⟩ :=
          program_ok (w := { w with reused := w.reused + 1 }) hp hprogram
        rw [hw']
        exact .reused hcode hkept hparse rfl rfl hretains
    | none =>
      dsimp only
      rw [loadAnew_eq]
      cases hcompile : h.compile u w with
      | error e w₁ =>
        obtain ⟨htree, hmemory, hprograms⟩ := compile_error hcompile
        exact .failed htree hmemory hprograms
      | ok code w₁ =>
        obtain ⟨⟨source, hsource, hcodeOf⟩, rfl⟩ := compile_ok hcompile
        have hcode : h.loadedCode? u w = some code := by
          simp only [loadedCode?, htime, hkept, hcompile]
        dsimp only
        cases hprogram : Handler.program u code { w with compiled := w.compiled + 1 } with
        | error e w' =>
          cases program_error hprogram
          exact .failed rfl rfl rfl
        | ok program w' =>
          obtain ⟨hw', hparse, hretains⟩ :=
            program_ok (w := { w with compiled := w.compiled + 1 }) hp hprogram
          have hkeep : (h.keep u code w').tree = (h.keep u code w).tree ∧
              (h.keep u code w').memory = (h.keep u code w).memory :=
            keep_congr h u code (by rw [hw']) (by rw [hw']) (by rw [hw'])
          have hothers := (keep_others h u code w').1
          refine .compiled hcode ⟨⟨source, hsource, hcodeOf⟩, program, hparse⟩ hparse hkeep.1
            hkeep.2 ?_
          rw [hothers]
          exact hretains

end Handler

end Stencil
