import Stencil.Proofs.Caching.Loading
import Stencil.Proofs.Collecting
import Stencil.Proofs.Ending.Limits

/-!
# What nested renders leave behind

A nested render works on the context of the template that includes it.  Whatever its program and
the includes of that program do there, the variable with the directory is put back afterwards; and
a render that never comes to its program leaves the context alone.

Putting back an absent variable means to erase one entry.  It is enough because a name that had at
most one entry never gets a second one, which holds of every step of every program.

## Main definitions

* `Context.Stable P` — setting variables, removing them and defining constants keep `P`.
* `Maintains P m` — the step `m` keeps `P`, also when it fails.
* `Context.Once name` — the variable has at most one entry.
* `Handler.Unloadable` — why the program of a template cannot be loaded.
* `Handler.hostAt` — the surroundings of a program that runs at a depth.

## Main results

* `Handler.maintains_program` — programs keep what is stable, at every depth of includes.
* `Handler.load_error_iff` — a load fails for the given reasons only.
* `Handler.nested_leaves_view` — **nested renders leave the view of the template around them.**
-/

namespace Stencil

/-! ### One entry a name -/

namespace Assoc

variable {κ α : Type} [DecidableEq κ]

theorem keys_erase (m : Assoc κ α) (x : κ) : keys (erase m x) = (keys m).erase x := by
  induction m with
  | nil => rfl
  | cons e rest ih =>
    obtain ⟨k, v⟩ := e
    by_cases hk : k = x
    · simp [erase, keys, hk]
    · simp only [keys] at ih
      simp [erase, keys, hk, ih]

theorem notMem_keys {m : Assoc κ α} {x : κ} (h : get? m x = none) : x ∉ keys m := by
  induction m with
  | nil => simp [keys]
  | cons e rest ih =>
    obtain ⟨k, v⟩ := e
    rw [get?] at h
    by_cases hk : k = x
    · simp [hk] at h
    · rw [if_neg hk] at h
      have hrest := ih h
      simp only [keys] at hrest
      simp [keys, Ne.symm hk, hrest]

end Assoc

namespace Context

/-- Setting variables, removing them and defining constants keep a property of contexts. -/
structure Stable (P : Context → Prop) : Prop where
  set : ∀ ctx name value, P ctx → P (ctx.set name value)
  remove : ∀ ctx name, P ctx → P (ctx.remove name)
  define : ∀ ctx name value, P ctx → P (ctx.define name value)

/-- A variable has at most one entry. -/
def Once (name : String) (ctx : Context) : Prop := (Assoc.keys ctx.vars).count name ≤ 1

variable {name : String} {ctx : Context}

theorem once_of_get?_none (h : ctx.get? name = none) : Once name ctx := by
  have habsent : name ∉ Assoc.keys ctx.vars := Assoc.notMem_keys h
  simp [Once, List.count_eq_zero_of_not_mem habsent]

/-- No name gets a second entry. -/
theorem stable_once (name : String) : Stable (Once name) where
  set ctx other value h := by
    unfold Once set
    by_cases hmem : other ∈ Assoc.keys ctx.vars
    · rw [Assoc.keys_insert_of_mem hmem]
      exact h
    · rw [Assoc.insert_of_notMem hmem, Assoc.keys, List.map_append, List.count_append]
      by_cases hname : other = name
      · have hzero : (Assoc.keys ctx.vars).count name = 0 :=
          List.count_eq_zero_of_not_mem (hname ▸ hmem)
        rw [Assoc.keys] at hzero
        simp [hzero, hname]
      · simpa [Once, Assoc.keys, hname] using h
  remove ctx other h := by
    unfold Once remove
    rw [Assoc.keys_erase]
    exact ((List.erase_sublist (a := other)).count_le name).trans h
  define _ _ _ h := h

/-- A variable with one entry is gone when it is removed. -/
theorem Once.get?_remove (h : Once name ctx) : (ctx.remove name).get? name = none := by
  apply Assoc.get?_eq_none
  rw [remove, Assoc.keys_erase, ← List.count_eq_zero, List.count_erase_self]
  unfold Once at h
  omega

end Context

open Context

/-! ### What steps keep -/

section Steps

variable {σ α : Type} {P : Context → Prop}

/-- A step keeps a property of the context, also when it fails. -/
def Maintains (P : Context → Prop) (m : Run σ α) : Prop :=
  ∀ st, P st.context → P (endState (m st)).context

theorem Maintains.bind {β : Type} {m : Run σ α} {f : α → Run σ β} (hm : Maintains P m)
    (hf : ∀ a, Maintains P (f a)) : Maintains P (m >>= f) := by
  intro st hst
  have hend := hm st hst
  rw [bind_eq]
  cases hrun : m st with
  | ok a st₁ =>
    rw [hrun] at hend
    exact hf a st₁ hend
  | error e st₁ =>
    rw [hrun] at hend
    exact hend

theorem maintains_readVar (name : String) : Maintains P (Run.readVar name : Run σ Value) := by
  intro st hst
  unfold Run.readVar
  rw [get_bind_eq]
  split <;> exact hst

theorem maintains_store (hP : Stable P) (p : Place) (v : Value) :
    Maintains P (Run.store p v : Run σ Unit) := by
  intro st hst
  unfold Run.store
  rw [get_bind_eq]
  have hset : P (st.setRoot (Value.write v p.path (st.root p.root)).1 p.root).context := by
    cases p.root with
    | context name => exact hP.set _ _ _ hst
    | «local» name => exact hst
  generalize Value.write v p.path (st.root p.root) = written at hset ⊢
  obtain ⟨value, _ | _⟩ := written <;> exact hset

theorem maintains_render {A : Host σ}
    (hrender : ∀ dir file ctx s, P ctx → P (A.render dir file ctx s).2.1) (dir file : String) :
    Maintains P (Run.render A dir file) := by
  intro st hst
  have hend := hrender dir file st.context st.host hst
  rw [render_eq]
  generalize A.render dir file st.context st.host = x at hend ⊢
  obtain ⟨_ | _, after, s⟩ := x <;> exact hend

/-- What is stable, and kept by the includes of a host, is kept by all that runs on the host. -/
theorem relates_maintains (hP : Stable P) {A : Host σ}
    (hrender : ∀ dir file ctx s, P ctx → P (A.render dir file ctx s).2.1) :
    Relates (fun _ m _ => Maintains P m) A A where
  functions := rfl
  limit := rfl
  pure _ _ hst := hst
  fail _ _ hst := hst
  bind hm hf := hm.bind hf
  ask _ _ hst := hst
  write _ _ hst := hst
  readVar := maintains_readVar
  store := maintains_store hP
  record _ _ hst := hst
  render := maintains_render hrender

theorem Program.maintains_run (hP : Stable P) {A : Host σ}
    (hrender : ∀ dir file ctx s, P ctx → P (A.render dir file ctx s).2.1) (program : Program)
    {ctx : Context} (s : σ) (hctx : P ctx) : P (program.run A ctx s).2.1 := by
  have hend := (relates_maintains hP hrender).execBlock program.body ⟨ctx, [], "", s⟩ hctx
  unfold Program.run
  cases hrun : execBlock A program.body ⟨ctx, [], "", s⟩ <;>
  · rw [hrun] at hend
    exact hend

end Steps

namespace Handler

variable {P : Context → Prop}

/-! ### What includes keep -/

theorem maintains_enter (hP : Stable P) (h : Handler) (u : Template) {ctx : Context}
    (hctx : P ctx) : P (h.enter u ctx) := by
  unfold enter
  extract_lets before entered
  have hbefore : P before := hP.set _ _ _ hctx
  have hentered : P entered := by
    unfold entered
    split
    · split
      · exact hP.set _ _ _ hbefore
      · exact hbefore
    · exact hbefore
  split
  · exact hentered
  · exact hP.define _ _ _ hentered

theorem maintains_leave (hP : Stable P) (before : Context) {after : Context} (hafter : P after) :
    P (leave before after) := by
  unfold leave
  split
  · exact hP.set _ _ _ hafter
  · exact hP.remove _ _ hafter

theorem maintains_renderUnit (hP : Stable P) (h : Handler) {A : Host World}
    (hrender : ∀ dir file ctx w, P ctx → P (A.render dir file ctx w).2.1) (isRoot : Bool)
    (u : Template) {ctx : Context} (w : World) (hctx : P ctx) :
    P (h.renderUnit A isRoot u ctx w).2.1 := by
  unfold renderUnit
  cases h.load u w with
  | error e w₁ => exact hctx
  | ok program w₁ =>
    have hrun := program.maintains_run hP hrender w₁ (maintains_enter hP h u hctx)
    dsimp only
    cases isRoot with
    | true => exact hrun
    | false => exact maintains_leave hP ctx hrun

/-- Includes keep what is stable, at every depth. -/
theorem maintains_host (hP : Stable P) (h : Handler) (left depth : Nat) (dir file : String)
    (ctx : Context) (w : World) (hctx : P ctx) :
    P ((h.host left depth).render dir file ctx w).2.1 := by
  -- the includes of an included program have one level less left
  induction left generalizing depth dir file ctx w with
  | zero => exact hctx
  | succ left ih =>
    rw [includeOver_cached]
    unfold includeOver
    split
    · rw [renderUnitOver_cached]
      exact maintains_renderUnit hP h (ih (depth + 1)) false _ w hctx
    · exact hctx
    · exact hctx

/-- **Programs keep what is stable**, whatever they assign and include. -/
theorem maintains_program (hP : Stable P) (h : Handler) (left depth : Nat) (program : Program)
    {ctx : Context} (w : World) (hctx : P ctx) : P (program.run (h.host left depth) ctx w).2.1 :=
  program.maintains_run hP (maintains_host hP h left depth) w hctx

/-! ### Putting the directory back -/

/-- After an included template, the directory is the one before it, when the name was not entered
twice in between. -/
theorem get?_leave {before after : Context}
    (honce : before.get? tplPathName = none → Once tplPathName after) :
    (leave before after).get? tplPathName = before.get? tplPathName := by
  unfold leave
  split
  next v hbefore => rw [hbefore, get?_set_self]
  next hbefore => rw [hbefore, (honce hbefore).get?_remove]

/-- A template that is not the outermost one gives back the directory it found. -/
theorem get?_renderUnit (h : Handler) (left depth : Nat) (u : Template) (ctx : Context)
    (w : World) : (h.renderUnit (h.host left depth) false u ctx w).2.1.get? tplPathName =
      ctx.get? tplPathName := by
  unfold renderUnit
  cases h.load u w with
  | error e w₁ => rfl
  | ok program w₁ =>
    apply get?_leave
    intro habsent
    have hstable := stable_once tplPathName
    exact maintains_program hstable h left depth program w₁
      (maintains_enter hstable h u (once_of_get?_none habsent))

/-! ### Programs that cannot be loaded -/

variable {h : Handler} {u : Template} {w : World} {e : TemplateError}

/-- Why the program of a template cannot be loaded, with the failure. -/
inductive Unloadable (h : Handler) (u : Template) (w : World) : TemplateError → Prop
  /-- There is no such file. -/
  | gone (htime : w.tree.time? u.path = none) : Unloadable h u w (.io u.path)
  /-- Nothing is kept, and the file is no text. -/
  | unread {time : Nat} (htime : w.tree.time? u.path = some time)
      (hkept : h.kept u (max time h.compilerTime) w = none)
      (hread : w.tree.read? u.path = none) : Unloadable h u w (.io u.path)
  /-- Nothing is kept, and there are diagnostics, which the policy refuses. -/
  | reported {time : Nat} {source : List Char} (htime : w.tree.time? u.path = some time)
      (hkept : h.kept u (max time h.compilerTime) w = none)
      (hread : w.tree.read? u.path = some source)
      (hdirty : (h.compiler.compile w.tree u.path u.webPath source).diagnostics ≠ [])
      (hstrict : h.config.policy = .strict) :
      Unloadable h u w
        (.compile u.path (h.compiler.compile w.tree u.path u.webPath source).diagnostics)
  /-- The code does not parse, and no program is held for it. -/
  | unparsed {code : List Char} {error : SyntaxError} (hcode : h.loadedCode? u w = some code)
      (hheld : (Assoc.get? w.programs u.identity).filter (fun kept => kept.1 == code) = none)
      (hparse : parseProgram (String.ofList u.programName) code = .error error) :
      Unloadable h u w (.parse error)

theorem program_error_iff {code : List Char} :
    (∃ w', Handler.program u code w = .error e w') ↔
      (Assoc.get? w.programs u.identity).filter (fun kept => kept.1 == code) = none ∧
        ∃ error, parseProgram (String.ofList u.programName) code = .error error ∧
          .parse error = e := by
  rw [program_eq]
  generalize (Assoc.get? w.programs u.identity).filter (fun kept => kept.1 == code) = held
  cases held with
  | some entry => simp
  | none =>
    unfold Template.parse
    cases parseProgram (String.ofList u.programName) code <;> simp

theorem compile_error_iff : (∃ w', h.compile u w = .error e w') ↔
    (w.tree.read? u.path = none ∧ .io u.path = e) ∨
      ∃ source, w.tree.read? u.path = some source ∧ h.config.policy = .strict ∧
        (h.compiler.compile w.tree u.path u.webPath source).diagnostics ≠ [] ∧
        .compile u.path (h.compiler.compile w.tree u.path u.webPath source).diagnostics = e := by
  rw [compile_eq]
  cases w.tree.read? u.path with
  | none => simp
  | some source =>
    dsimp only
    rw [codeOf]
    generalize (h.compiler.compile w.tree u.path u.webPath source).code = code
    by_cases hrefused : (h.compiler.compile w.tree u.path u.webPath source).diagnostics ≠ [] ∧
        h.config.policy = .strict
    · rw [if_pos hrefused]
      simp [hrefused.1, hrefused.2]
    · rw [if_neg hrefused]
      simp only [reduceCtorEq, exists_false, false_and, false_or, false_iff]
      rintro ⟨_, ⟨⟩, hstrict, hdirty, -⟩
      exact hrefused ⟨hdirty, hstrict⟩

theorem loadAnew_error_iff : (∃ w', h.loadAnew u w = .error e w') ↔
    (∃ w', h.compile u w = .error e w') ∨
      ∃ code w₁, h.compile u w = .ok code w₁ ∧ ∃ w', Handler.program u code w = .error e w' := by
  rw [loadAnew_eq]
  cases hcompile : h.compile u w with
  | error e' w₁ => simp
  | ok code w₁ =>
    obtain ⟨-, rfl⟩ := compile_ok hcompile
    have hprogram : (∃ w', Handler.program u code w = .error e w') ↔
        ∃ w', Handler.program u code { w with compiled := w.compiled + 1 } = .error e w' := by
      rw [program_error_iff, program_error_iff]
    dsimp only
    simp only [reduceCtorEq, exists_false, false_or, EStateM.Result.ok.injEq]
    rw [show (∃ code' w₁, (code = code' ∧ _ = w₁) ∧ ∃ w', Handler.program u code' w = .error e w') ↔
      ∃ w', Handler.program u code w = .error e w' by simp, hprogram]
    cases Handler.program u code { w with compiled := w.compiled + 1 } <;> simp

/-- **A load fails for one of the reasons**, and for each of them it does. -/
theorem load_error_iff : (∃ w', h.load u w = .error e w') ↔ h.Unloadable u w e := by
  rw [load_eq]
  cases htime : w.tree.time? u.path with
  | none =>
    have hcode : h.loadedCode? u w = none := by simp only [loadedCode?, htime]
    dsimp only
    constructor
    · rintro ⟨w', ⟨⟩⟩
      exact .gone htime
    · rintro (_ | ⟨htime', -, -⟩ | ⟨htime', -, -⟩ | ⟨hcode', -, -⟩)
      · exact ⟨w, rfl⟩
      · cases htime.symm.trans htime'
      · cases htime.symm.trans htime'
      · cases hcode.symm.trans hcode'
  | some time =>
    dsimp only
    cases hkept : h.kept u (max time h.compilerTime) w with
    | some code =>
      have hcode : h.loadedCode? u w = some code := by simp only [loadedCode?, htime, hkept]
      dsimp only
      rw [program_error_iff]
      constructor
      · rintro ⟨hheld, error, hparse, rfl⟩
        exact .unparsed hcode hheld hparse
      · rintro (htime' | ⟨htime', hkept', -⟩ | ⟨htime', hkept', -⟩ | ⟨hcode', hheld, hparse⟩)
        · cases htime.symm.trans htime'
        · cases htime.symm.trans htime'
          cases hkept.symm.trans hkept'
        · cases htime.symm.trans htime'
          cases hkept.symm.trans hkept'
        · cases hcode.symm.trans hcode'
          exact ⟨hheld, _, hparse, rfl⟩
    | none =>
      dsimp only
      rw [loadAnew_error_iff, compile_error_iff]
      constructor
      · rintro ((⟨hread, rfl⟩ | ⟨source, hread, hstrict, hdirty, rfl⟩) | ⟨code, w₁, hcompile, hprogram⟩)
        · exact .unread htime hkept hread
        · exact .reported htime hkept hread hdirty hstrict
        · obtain ⟨hheld, error, hparse, rfl⟩ := program_error_iff.mp hprogram
          have hcode : h.loadedCode? u w = some code := by
            simp only [loadedCode?, htime, hkept, hcompile]
          exact .unparsed hcode hheld hparse
      · rintro (htime' | ⟨-, -, hread⟩ | ⟨-, -, hread, hdirty, hstrict⟩ | ⟨hcode, hheld, hparse⟩)
        · cases htime.symm.trans htime'
        · exact .inl (.inl ⟨hread, rfl⟩)
        · exact .inl (.inr ⟨_, hread, hstrict, hdirty, rfl⟩)
        · simp only [loadedCode?, htime, hkept] at hcode
          cases hcompile : h.compile u w with
          | error e' w₁ =>
            rw [hcompile] at hcode
            cases hcode
          | ok code' w₁ =>
            rw [hcompile] at hcode
            cases hcode
            exact .inr ⟨_, w₁, rfl, program_error_iff.mpr ⟨hheld, _, hparse, rfl⟩⟩

/-! ### Nested renders -/

/-- The surroundings of a program that runs at a depth of includes. -/
def hostAt (h : Handler) (depth : Nat) : Host World := h.host (h.config.maxDepth - depth) depth

theorem find_error {dir : Path} {file : List Char} (hfind : h.find w.tree dir file = .error e) :
    ∃ path, e = .sourceNotFound path := by
  unfold find Template.find at hfind
  extract_lets path at hfind
  split at hfind
  · split at hfind
    · cases hfind
    · cases hfind
      exact ⟨path, rfl⟩
  · cases hfind
    exact ⟨path, rfl⟩

/-- An include that is refused: beyond the limit, or of a template that does not exist. -/
theorem render_hostAt_refused (h : Handler) (depth : Nat) (dir file : String) (ctx : Context)
    (w : World) :
    (h.config.maxDepth ≤ depth →
      (h.hostAt depth).render dir file ctx w =
        (.error (.includeDepthExceeded (depth + 1) (Path.join dir.toList file.toList)), ctx, w)) ∧
    (depth < h.config.maxDepth → ∀ e, h.find w.tree dir.toList file.toList = .error e →
      (h.hostAt depth).render dir file ctx w = (.ok "", ctx, w)) := by
  constructor
  · intro hdeep
    rw [hostAt, Nat.sub_eq_zero_of_le hdeep]
    rfl
  · intro hshallow e hfind
    obtain ⟨left, hleft⟩ : ∃ left, h.config.maxDepth - depth = left + 1 :=
      ⟨h.config.maxDepth - depth - 1, by omega⟩
    have htree : h.cached.tree w = w.tree := rfl
    rw [hostAt, hleft, includeOver_cached, includeOver, htree, hfind]
    obtain ⟨path, rfl⟩ := find_error hfind
    rfl

/-- An include of a template that exists renders it one level deeper. -/
theorem render_hostAt_found {h : Handler} {depth : Nat} {w : World} {u : Template}
    {dir file : String} (hdepth : depth < h.config.maxDepth)
    (hfind : h.find w.tree dir.toList file.toList = .ok u) (ctx : Context) :
    (h.hostAt depth).render dir file ctx w = h.renderAt (depth + 1) u ctx w := by
  obtain ⟨left, hleft⟩ : ∃ left, h.config.maxDepth - depth = left + 1 :=
    ⟨h.config.maxDepth - depth - 1, by omega⟩
  have hinner : h.config.maxDepth - (depth + 1) = left := by omega
  have htree : h.cached.tree w = w.tree := rfl
  rw [hostAt, hleft, includeOver_cached, includeOver, htree, hfind, renderAt, hinner]
  exact renderUnitOver_cached h _ false u ctx w

/-- **Nested renders leave the view of the template around them.**  At every depth below the
outermost template, a render gives the directory back that it found, whether it ends with a text or
with a failure; where the program cannot be loaded, the context stays as it was.  So it does when an
include is beyond the limit or its template does not exist, and every other include is such a
render. -/
theorem nested_leaves_view (h : Handler) (depth : Nat) (ctx : Context) (w : World) :
    (∀ u, (h.renderAt (depth + 1) u ctx w).2.1.get? tplPathName = ctx.get? tplPathName ∧
      ∀ e, h.Unloadable u w e → ∃ w', h.renderAt (depth + 1) u ctx w = (.error e, ctx, w')) ∧
    ∀ dir file,
      (h.config.maxDepth ≤ depth → (h.hostAt depth).render dir file ctx w =
        (.error (.includeDepthExceeded (depth + 1) (Path.join dir.toList file.toList)), ctx, w)) ∧
      (depth < h.config.maxDepth → match h.find w.tree dir.toList file.toList with
        | .error _ => (h.hostAt depth).render dir file ctx w = (.ok "", ctx, w)
        | .ok u => (h.hostAt depth).render dir file ctx w = h.renderAt (depth + 1) u ctx w) := by
  refine ⟨fun u => ⟨?_, ?_⟩, fun dir file => ⟨?_, ?_⟩⟩
  · exact h.get?_renderUnit _ (depth + 1) u ctx w
  · intro e hunloadable
    obtain ⟨w', hload⟩ := load_error_iff.mpr hunloadable
    refine ⟨w', ?_⟩
    rw [renderAt, renderUnit, hload]
  · exact (h.render_hostAt_refused depth dir file ctx w).1
  · intro hdepth
    split
    next e hfind => exact (h.render_hostAt_refused depth dir file ctx w).2 hdepth e hfind
    next u hfind => exact render_hostAt_found hdepth hfind ctx

/-- An application with a page that changes the directory, one whose code does not parse and one
with a diagnostic. -/
def strictHandler : Handler :=
  { config := { cacheDir := ['c'] }, root := "/a".toList, backend := .memory }

/-- Its files, before anything is kept. -/
def strictWorld : World where
  tree := { nodes := [([['a']], .dir),
      ([['a'], ['p']], .file (.text "<?tpl $__ctx->tpl_path = 1; ?>\x7b$tpl_path\x7d".toList) 1),
      ([['a'], ['q']], .file (.text "\x7bf(\x7d".toList) 1),
      ([['a'], ['r']], .file (.text "<!--@endless-->".toList) 1)] }
  now := 0

/-- The context of a template that includes them. -/
def parentContext : Context :=
  { vars := [("a", .int 1), (tplPathName, .string "up"), ("b", .int 2)] }

/-- A page that is rendered, three that cannot be loaded, and two includes that are refused. -/
theorem nested_leaves_view_pages :
    (strictHandler.renderAt 1 (.at strictHandler "/a/p".toList) parentContext
        strictWorld).2.1.get? tplPathName = some (.string "up") ∧
    (∃ w', strictHandler.renderAt 1 (.at strictHandler "/a/q".toList) parentContext strictWorld =
      (.error (.parse ⟨"`;` or `?>`", "an expression", 54, 2⟩), parentContext, w')) ∧
    (∃ ds w', ds ≠ [] ∧
      strictHandler.renderAt 1 (.at strictHandler "/a/r".toList) parentContext strictWorld =
        (.error (.compile "/a/r".toList ds), parentContext, w')) ∧
    (∃ w', strictHandler.renderAt 1 (.at strictHandler "/a/s".toList) parentContext strictWorld =
      (.error (.io "/a/s".toList), parentContext, w')) ∧
    (strictHandler.hostAt 16).render "." "p" parentContext strictWorld =
      (.error (.includeDepthExceeded 17 "./p".toList), parentContext, strictWorld) ∧
    (strictHandler.hostAt 15).render "." "s" parentContext strictWorld =
      (.ok "", parentContext, strictWorld) := by
  obtain ⟨hpages, -⟩ := nested_leaves_view strictHandler 0 parentContext strictWorld
  rw [Nat.zero_add] at hpages
  have hdirectory : parentContext.get? tplPathName = some (.string "up") := by rfl
  refine ⟨(hpages _).1.trans hdirectory, ?_, ?_, ?_, ?_, ?_⟩
  · have hcode : strictHandler.loadedCode? (.at strictHandler "/a/q".toList) strictWorld =
        some (strictHandler.compiler.prologue ++ "<?tpl echo f( ?>".toList) := by decide +kernel
    refine (hpages _).2 _ (.unparsed hcode (by decide +kernel) ?_)
    have herror : (parseProgram
        (String.ofList (Template.at strictHandler "/a/q".toList).programName)
        (strictHandler.compiler.prologue ++ "<?tpl echo f( ?>".toList)).map (fun _ => ()) =
      .error ⟨"`;` or `?>`", "an expression", 54, 2⟩ := by decide +kernel
    generalize parseProgram _ _ = parsed at herror ⊢
    cases parsed with
    | error error => exact congrArg Except.error (Except.error.inj herror)
    | ok program => cases herror
  · have htime : strictWorld.tree.time? (Template.at strictHandler "/a/r".toList).path = some 1 := by
      decide +kernel
    have hread : strictWorld.tree.read? (Template.at strictHandler "/a/r".toList).path =
        some "<!--@endless-->".toList := by decide +kernel
    have hreported : strictHandler.Unloadable (.at strictHandler "/a/r".toList) strictWorld _ :=
      .reported htime (by decide +kernel) hread (by decide +kernel) (by decide +kernel)
    obtain ⟨w', hrender⟩ := (hpages (.at strictHandler "/a/r".toList)).2 _ hreported
    exact ⟨_, w', by decide +kernel, hrender⟩
  · have hgone : strictHandler.Unloadable (.at strictHandler "/a/s".toList) strictWorld
        (.io "/a/s".toList) := .gone (by decide +kernel)
    exact (hpages _).2 _ hgone
  · obtain ⟨-, hincludes⟩ := nested_leaves_view strictHandler 16 parentContext strictWorld
    exact (hincludes "." "p").1 (by decide)
  · obtain ⟨-, hincludes⟩ := nested_leaves_view strictHandler 15 parentContext strictWorld
    have hmissing := (hincludes "." "s").2 (by decide)
    have hfind : strictHandler.find strictWorld.tree ".".toList "s".toList =
        .error (.sourceNotFound "/a/./s".toList) := by decide +kernel
    rwa [hfind] at hmissing

end Handler

end Stencil
