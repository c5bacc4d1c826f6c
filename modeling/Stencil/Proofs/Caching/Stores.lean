import Stencil.Proofs.Simulation
import Stencil.Template.Render

/-!
# Renders on a store

What a render does besides running programs is to look templates up and to load their programs.
Here the two are parameters, a store, so that renders with a cache and renders without one are the
same render on two stores.  Stores whose states belong together and that find and load alike have
renders that end alike, through every depth of includes.

## Main definitions

* `Store` — how templates are looked up and loaded.
* `Handler.cached`, `Handler.afresh` — the store that keeps compiled code, and the one that compiles
  every template whenever it is loaded and keeps nothing.
* `Store.noting` — a store that notes what is loaded, and `Handler.loads`, the notes of a render.
* `Handler.renderOver` — a render on a store.
* `Store.Follows` — stores that find and load alike.

## Main results

* `Handler.render_eq` — a render of a handler is a render on its store.
* `Handler.same_renderOver` — renders on stores that find and load alike end alike.
* `Handler.renderOver_noting` — notes change nothing.
-/

namespace Stencil

variable {σ τ : Type}

/-- How templates are looked up and loaded. -/
structure Store (σ : Type) where
  /-- The files. -/
  tree : σ → FileTree
  /-- The program of a template. -/
  load : Template → EStateM TemplateError σ Program
  /-- Records a resource that a program asks for. -/
  record : ResourceEvent → σ → σ

/-- The store that also notes every template that it is asked for, with the files at that time. -/
def Store.noting (S : Store σ) : Store (σ × List (Template × FileTree)) where
  tree s := S.tree s.1
  load u s :=
    match S.load u s.1 with
    | .ok program s₁ => .ok program (s₁, s.2 ++ [(u, S.tree s.1)])
    | .error e s₁ => .error e (s₁, s.2 ++ [(u, S.tree s.1)])
  record event s := (S.record event s.1, s.2)

namespace Handler

/-- The world with a resource recorded. -/
def recordIn (event : ResourceEvent) (w : World) : World := { w with events := w.events ++ [event] }

/-- The store of the handler, with everything that is kept. -/
def cached (h : Handler) : Store World where
  tree := World.tree
  load := h.load
  record := recordIn

/-- The program of a template, compiled and parsed.  Nothing is kept, and nothing that is kept is
used. -/
def loadAfresh (h : Handler) (u : Template) : Action Program := do
  let code ← h.compile u
  match parseProgram (String.ofList u.programName) code with
  | .error e => throw (.parse e)
  | .ok program => pure program

/-- The store that compiles a template whenever it is loaded. -/
def afresh (h : Handler) : Store World where
  tree := World.tree
  load := h.loadAfresh
  record := recordIn

/-! ### Renders -/

/-- A template rendered on a store, with the given surroundings of its program. -/
def renderUnitOver (h : Handler) (S : Store σ) (host : Host σ) (isRoot : Bool) (u : Template)
    (ctx : Context) (s : σ) : Except TemplateError String × Context × σ :=
  match S.load u s with
  | .error e s => (.error e, ctx, s)
  | .ok program s =>
    match program.run host (h.enter u ctx) s with
    | (result, after, s) => (result, if isRoot then after else leave ctx after, s)

/-- A template included on a store, with the given surroundings of its program. -/
def includeOver (h : Handler) (S : Store σ) (host : Host σ) (dir : Path) (file : List Char)
    (ctx : Context) (s : σ) : Except TemplateError String × Context × σ :=
  match h.find (S.tree s) dir file with
  | .ok u => h.renderUnitOver S host false u ctx s
  | .error (.sourceNotFound _) => (.ok "", ctx, s)
  | .error e => (.error e, ctx, s)

/-- The surroundings of a program on a store, when `left` deeper levels of includes are allowed. -/
def hostOver (h : Handler) (S : Store σ) : Nat → Nat → Host σ
  | 0, depth =>
    { functions := h.functions
      limit := h.config.maxRounds
      record := S.record
      render := fun dir file ctx s =>
        (.error (.includeDepthExceeded (depth + 1) (Path.join dir.toList file.toList)), ctx, s) }
  | left + 1, depth =>
    { functions := h.functions
      limit := h.config.maxRounds
      record := S.record
      render := fun dir file =>
        h.includeOver S (hostOver h S left (depth + 1)) dir.toList file.toList }

/-- The template with a directory and a file name, rendered on a store. -/
def renderOver (h : Handler) (S : Store σ) (dir : Path) (file : List Char) (ctx : Context) (s : σ) :
    Except TemplateError String × Context × σ :=
  match h.find (S.tree s) dir file with
  | .ok u => h.renderUnitOver S (h.hostOver S h.config.maxDepth 0) true u ctx s
  | .error e => (.error e, ctx, s)

/-- The templates that a render loads, each with the files at that time. -/
def loads (h : Handler) (dir : Path) (file : List Char) (ctx : Context) (w : World) :
    List (Template × FileTree) :=
  (h.renderOver h.cached.noting dir file ctx (w, [])).2.2.2

theorem renderUnitOver_cached (h : Handler) (host : Host World) (isRoot : Bool) (u : Template)
    (ctx : Context) (w : World) :
    h.renderUnitOver h.cached host isRoot u ctx w = h.renderUnit host isRoot u ctx w := by
  unfold renderUnitOver renderUnit
  have hload : h.cached.load u w = h.load u w := rfl
  rw [hload]
  cases h.load u w <;> rfl

theorem hostOver_cached (h : Handler) (left depth : Nat) :
    h.hostOver h.cached left depth = h.host left depth := by
  induction left generalizing depth with
  | zero => rfl
  | succ left ih =>
    have hinner : h.includeOver h.cached (h.hostOver h.cached left (depth + 1)) =
        fun dir file ctx w =>
          match h.find w.tree dir file with
          | .ok u => h.renderUnit (h.host left (depth + 1)) false u ctx w
          | .error (.sourceNotFound _) => (.ok "", ctx, w)
          | .error e => (.error e, ctx, w) := by
      funext dir file ctx w
      unfold includeOver
      rw [ih]
      change (match h.find w.tree dir file with
        | .ok u => _ | .error (.sourceNotFound _) => _ | .error e => _) = _
      rcases h.find w.tree dir file with e | u
      · cases e <;> rfl
      · exact renderUnitOver_cached h _ false u ctx w
    rw [hostOver, hinner]
    rfl

/-- An include of a handler is one on its store. -/
theorem includeOver_cached (h : Handler) (left depth : Nat) (dir file : String) (ctx : Context)
    (w : World) :
    (h.host (left + 1) depth).render dir file ctx w =
      h.includeOver h.cached (h.host left (depth + 1)) dir.toList file.toList ctx w := by
  rw [← hostOver_cached, ← hostOver_cached h left (depth + 1)]
  rfl

/-- A render of a handler is a render on its store. -/
theorem render_eq (h : Handler) (dir : Path) (file : List Char) (ctx : Context) (w : World) :
    h.render dir file ctx w = h.renderOver h.cached dir file ctx w := by
  unfold render renderOver renderAt
  change _ = (match h.find w.tree dir file with | .ok u => _ | .error e => _)
  rcases h.find w.tree dir file with e | u
  · rfl
  · dsimp only
    rw [hostOver_cached, renderUnitOver_cached]
    rfl

end Handler

/-! ### Stores side by side -/

/-- The stores find and load alike, as long as the first one does not get lost. -/
structure Store.Follows (h : Handler) (b : Bond σ τ) (S : Store σ) (T : Store τ) : Prop where
  record_lost : ∀ event s, b.lost s → b.lost (S.record event s)
  record : ∀ event s t, b.holds s t → b.holds (S.record event s) (T.record event t)
  load_lost : ∀ u s, b.lost s → b.lost (endState (S.load u s))
  found : ∀ dir file u s t, b.holds s t → h.find (S.tree s) dir file = .ok u →
    b.lost (endState (S.load u s)) ∨
      (h.find (T.tree t) dir file = .ok u ∧ Alike b.holds (S.load u s) (T.load u t))
  missing : ∀ dir file e s t, b.holds s t → h.find (S.tree s) dir file = .error e →
    h.find (T.tree t) dir file = .error e

namespace Handler

variable {h : Handler} {b : Bond σ τ} {S : Store σ} {T : Store τ} {A : Host σ} {B : Host τ}

theorem lost_renderUnitOver (hAB : A.Follows b B) (isRoot : Bool)
    (u : Template) (ctx : Context) {s : σ} (hend : b.lost (endState (S.load u s))) :
    b.lost (h.renderUnitOver S A isRoot u ctx s).2.2 := by
  unfold renderUnitOver
  cases hload : S.load u s with
  | error e s₁ =>
    rw [hload] at hend
    exact hend
  | ok program s₁ =>
    rw [hload] at hend
    exact program.lost_run hAB _ hend

theorem same_renderUnitOver (hAB : A.Follows b B) (isRoot : Bool) (u : Template) (ctx : Context)
    {s : σ} {t : τ} (hload : Alike b.holds (S.load u s) (T.load u t)) :
    b.Same (h.renderUnitOver S A isRoot u ctx s) (h.renderUnitOver T B isRoot u ctx t) := by
  unfold renderUnitOver
  generalize S.load u s = x at hload
  generalize T.load u t = y at hload
  cases hload with
  | error hst => exact .inr ⟨rfl, rfl, hst⟩
  | @ok program s₁ t₁ hst =>
    rcases program.same_run hAB (h.enter u ctx) hst with hlost | ⟨hresult, hafter, hend⟩
    · exact .inl hlost
    · refine .inr ⟨hresult, ?_, hend⟩
      simp only [hafter]

theorem same_includeOver (hST : S.Follows h b T) (hAB : A.Follows b B) (dir : Path)
    (file : List Char) (ctx : Context) {s : σ} {t : τ} (hst : b.holds s t) :
    b.Same (h.includeOver S A dir file ctx s) (h.includeOver T B dir file ctx t) := by
  unfold includeOver
  cases hfind : h.find (S.tree s) dir file with
  | error e =>
    rw [hST.missing _ _ _ _ _ hst hfind]
    cases e <;> exact .inr ⟨rfl, rfl, hst⟩
  | ok u =>
    rcases hST.found _ _ _ _ _ hst hfind with hlost | ⟨hfound, hload⟩
    · exact .inl (lost_renderUnitOver hAB false u ctx hlost)
    · rw [hfound]
      exact same_renderUnitOver hAB false u ctx hload

theorem lost_includeOver (hST : S.Follows h b T) (hAB : A.Follows b B) (dir : Path)
    (file : List Char) (ctx : Context) {s : σ} (hs : b.lost s) :
    b.lost (h.includeOver S A dir file ctx s).2.2 := by
  unfold includeOver
  split
  · exact lost_renderUnitOver hAB false _ ctx (hST.load_lost _ s hs)
  · exact hs
  · exact hs

/-- Includes on stores that find and load alike end alike, at every depth. -/
theorem follows_hostOver (hST : S.Follows h b T) (left depth : Nat) :
    (h.hostOver S left depth).Follows b (h.hostOver T left depth) := by
  induction left generalizing depth with
  | zero =>
    exact
      { functions := rfl
        limit := rfl
        record_lost := hST.record_lost
        record := hST.record
        render_lost := fun _ _ _ _ hs => hs
        render := fun _ _ _ _ _ hst => .inr ⟨rfl, rfl, hst⟩ }
  | succ left ih =>
    exact
      { functions := rfl
        limit := rfl
        record_lost := hST.record_lost
        record := hST.record
        render_lost := fun dir file ctx _ hs =>
          lost_includeOver hST (ih (depth + 1)) dir.toList file.toList ctx hs
        render := fun dir file ctx _ _ hst =>
          same_includeOver hST (ih (depth + 1)) dir.toList file.toList ctx hst }

/-- **Renders on stores that find and load alike end alike.** -/
theorem same_renderOver (hST : S.Follows h b T) (dir : Path) (file : List Char) (ctx : Context)
    {s : σ} {t : τ} (hst : b.holds s t) :
    b.Same (h.renderOver S dir file ctx s) (h.renderOver T dir file ctx t) := by
  have hhost := follows_hostOver hST h.config.maxDepth 0
  unfold renderOver
  cases hfind : h.find (S.tree s) dir file with
  | error e =>
    rw [hST.missing _ _ _ _ _ hst hfind]
    exact .inr ⟨rfl, rfl, hst⟩
  | ok u =>
    rcases hST.found _ _ _ _ _ hst hfind with hlost | ⟨hfound, hload⟩
    · exact .inl (lost_renderUnitOver hhost true u ctx hlost)
    · rw [hfound]
      exact same_renderUnitOver hhost true u ctx hload

/-! ### Notes -/

/-- A store with notes and the same store without them; neither gets lost. -/
def unnoted : Bond (σ × List (Template × FileTree)) σ where
  holds s t := s.1 = t
  lost _ := False

theorem noting_follows (h : Handler) (S : Store σ) : S.noting.Follows h unnoted S where
  record_lost _ _ hs := hs
  record event _ _ hst := congrArg (S.record event) hst
  load_lost _ _ hs := hs
  missing _ _ _ s t hst hfind := by
    cases hst
    exact hfind
  found _ _ u s t hst hfind := by
    cases hst
    refine .inr ⟨hfind, ?_⟩
    unfold Store.noting
    dsimp only
    cases S.load u s.1 with
    | ok program s₁ => exact .ok rfl
    | error e s₁ => exact .error rfl

theorem endState_noting (S : Store σ) (u : Template) (s : σ × List (Template × FileTree)) :
    (endState (S.noting.load u s)).2 = s.2 ++ [(u, S.tree s.1)] := by
  unfold Store.noting
  dsimp only
  cases S.load u s.1 <;> rfl

/-- Notes change nothing about how a load ends. -/
theorem alike_noting {R : σ → τ → Prop} {S : Store σ} {u : Template}
    {s : σ × List (Template × FileTree)} {y : EStateM.Result TemplateError τ Program}
    (halike : Alike R (S.load u s.1) y) :
    Alike (fun s t => R s.1 t) (S.noting.load u s) y := by
  unfold Store.noting
  dsimp only
  cases hload : S.load u s.1 with
  | ok program s₁ =>
    rw [hload] at halike
    cases halike with
    | ok hend => exact .ok hend
  | error e s₁ =>
    rw [hload] at halike
    cases halike with
    | error hend => exact .error hend

/-- Notes change nothing about a render. -/
theorem renderOver_noting (h : Handler) (S : Store σ) (dir : Path) (file : List Char)
    (ctx : Context) (s : σ) (notes : List (Template × FileTree)) :
    ∃ notes', h.renderOver S.noting dir file ctx (s, notes) =
      ((h.renderOver S dir file ctx s).1, (h.renderOver S dir file ctx s).2.1,
        (h.renderOver S dir file ctx s).2.2, notes') := by
  have hsame := same_renderOver (noting_follows h S) dir file ctx (s := (s, notes)) rfl
  rcases hsame with hlost | ⟨hresult, hafter, hend⟩
  · exact hlost.elim
  · refine ⟨(h.renderOver S.noting dir file ctx (s, notes)).2.2.2, ?_⟩
    rw [← hresult, ← hafter, ← show _ = _ from hend]

end Handler

end Stencil
