import Stencil.Proofs.Relating

/-!
# Programs on two hosts

All that a program learns of its host is what the host answers.  A program that runs on two hosts
therefore goes the same way on both, as long as states of the hosts that belong together answer
alike.  The states of the first host may also get *lost*: then nothing is promised from there on,
and whatever the program does next, the host stays lost.

## Main definitions

* `Bond` — which states of two hosts belong together, and which ones are lost.
* `Alike` — results that agree and leave states that belong together.
* `Bond.Beside`, `Bond.Same` — programs and renders that stand at the same point.
* `Follows` — two steps that lead from states that belong together to results that are alike.
* `Host.Follows` — two hosts that answer alike.

## Main results

* `Host.Follows.relates` — programs follow on hosts that answer alike.
* `Program.same_run`, `Program.lost_run` — a program on such hosts ends alike.
-/

namespace Stencil

/-- Which states of two hosts belong together. -/
structure Bond (σ τ : Type) where
  /-- States that belong together. -/
  holds : σ → τ → Prop
  /-- States of the first host of which nothing is promised any more. -/
  lost : σ → Prop

/-- The state that a step ends in. -/
def endState {ε σ α : Type} : EStateM.Result ε σ α → σ
  | .ok _ s => s
  | .error _ s => s

variable {σ τ α β : Type} {b : Bond σ τ}

/-- Steps that end with the same value or failure, in states of which `R` holds. -/
inductive Alike {ε : Type} (R : σ → τ → Prop) :
    EStateM.Result ε σ α → EStateM.Result ε τ α → Prop
  | ok {a : α} {s : σ} {t : τ} (h : R s t) : Alike R (.ok a s) (.ok a t)
  | error {e : ε} {s : σ} {t : τ} (h : R s t) : Alike R (.error e s) (.error e t)

/-- Programs with the same context, variables and output, and with hosts whose states belong
together. -/
structure Bond.Beside (b : Bond σ τ) (st : State σ) (st' : State τ) : Prop where
  context : st.context = st'.context
  locals : st.locals = st'.locals
  out : st.out = st'.out
  host : b.holds st.host st'.host

/-- Renders that end alike, unless the first one ends in a lost state. -/
def Bond.Same (b : Bond σ τ) (x : Except TemplateError String × Context × σ)
    (y : Except TemplateError String × Context × τ) : Prop :=
  b.lost x.2.2 ∨ (x.1 = y.1 ∧ x.2.1 = y.2.1 ∧ b.holds x.2.2 y.2.2)

/-- The steps lead from states that belong together to results that are alike, and what is lost
stays lost. -/
structure Follows (b : Bond σ τ) (m : Run σ α) (m' : Run τ α) : Prop where
  lost : ∀ st, b.lost st.host → b.lost (endState (m st)).host
  alike : ∀ st st', b.Beside st st' →
    b.lost (endState (m st)).host ∨ Alike b.Beside (m st) (m' st')

/-- The hosts have the same functions and limits, and answer alike. -/
structure Host.Follows (b : Bond σ τ) (A : Host σ) (B : Host τ) : Prop where
  functions : A.functions = B.functions
  limit : A.limit = B.limit
  record_lost : ∀ event s, b.lost s → b.lost (A.record event s)
  record : ∀ event s t, b.holds s t → b.holds (A.record event s) (B.record event t)
  render_lost : ∀ dir file context s, b.lost s → b.lost (A.render dir file context s).2.2
  render : ∀ dir file context s t, b.holds s t →
    b.Same (A.render dir file context s) (B.render dir file context t)

/-! ### Steps -/

/-- What a step does with the context, the variables and the output. -/
abbrev Own (α : Type) :=
  Context → Assoc String Value → String →
    Except TemplateError α × Context × Assoc String Value × String

/-- The step that does this and leaves the host alone. -/
def Run.own (f : Own α) : Run σ α := fun st =>
  match f st.context st.locals st.out with
  | (.ok a, context, locals, out) => .ok a ⟨context, locals, out, st.host⟩
  | (.error e, context, locals, out) => .error e ⟨context, locals, out, st.host⟩

namespace Follows

variable {m : Run σ α} {m' : Run τ α}

theorem pure (a : α) : Follows b (Pure.pure a : Run σ α) (Pure.pure a) where
  lost _ h := h
  alike _ _ h := .inr (.ok h)

theorem throw (e : TemplateError) : Follows b (MonadExcept.throw e : Run σ α) (MonadExcept.throw e)
    where
  lost _ h := h
  alike _ _ h := .inr (.error h)

theorem fail (e : RuntimeError) : Follows b (Run.fail e : Run σ α) (Run.fail e) :=
  throw (.runtime e)

theorem bind {f : α → Run σ β} {f' : α → Run τ β} (hm : Follows b m m')
    (hf : ∀ a, Follows b (f a) (f' a)) : Follows b (m >>= f) (m' >>= f') where
  lost st h := by
    have hend := hm.lost st h
    rw [bind_eq]
    cases hst : m st with
    | ok a st₁ =>
      rw [hst] at hend
      exact (hf a).lost st₁ hend
    | error e st₁ =>
      rw [hst] at hend
      exact hend
  alike st st' h := by
    rw [bind_eq, bind_eq]
    rcases hm.alike st st' h with hend | hend
    · -- the first step is lost, and the second one stays so
      left
      cases hst : m st with
      | ok a st₁ =>
        rw [hst] at hend
        exact (hf a).lost st₁ hend
      | error e st₁ =>
        rw [hst] at hend
        exact hend
    · generalize m st = x at hend
      generalize m' st' = y at hend
      cases hend with
      | ok h₁ => exact (hf _).alike _ _ h₁
      | error h₁ => exact .inr (.error h₁)

/-- A step that reads and writes nothing of the host. -/
theorem own (f : Own α) : Follows b (Run.own f) (Run.own f) where
  lost st h := by
    unfold Run.own
    rcases f st.context st.locals st.out with ⟨e | a, context, locals, out⟩ <;> exact h
  alike st st' h := by
    unfold Run.own
    right
    rw [← h.context, ← h.locals, ← h.out]
    rcases f st.context st.locals st.out with ⟨e | a, context, locals, out⟩
    · exact .error ⟨rfl, rfl, rfl, h.host⟩
    · exact .ok ⟨rfl, rfl, rfl, h.host⟩

theorem write (text : String) : Follows b (Run.write text : Run σ Unit) (Run.write text) :=
  own fun context locals out => (.ok (), context, locals, out ++ text)

theorem readVar (name : String) :
    Follows b (Run.readVar name : Run σ Value) (Run.readVar name) := by
  unfold Run.readVar
  by_cases hname : name = contextName
  · simp only [hname, if_true]
    exact own fun context locals out => (.ok (Value.map context.vars), context, locals, out)
  · simp only [hname, if_false]
    exact own fun context locals out =>
      (.ok ((Assoc.get? locals name).getD .null), context, locals, out)

/-- What an assignment does, the host aside. -/
theorem store_eq_own (p : Place) (v : Value) :
    (Run.store p v : Run σ Unit) = Run.own fun context locals out =>
      let st : State Unit := ⟨context, locals, out, ()⟩
      let w := Value.write v p.path (st.root p.root)
      let st := st.setRoot w.1 p.root
      (if w.2 then .ok () else .error (.runtime .invalidAssignment), st.context, st.locals,
        st.out) := by
  rcases p with ⟨root, path⟩
  funext st
  unfold Run.store Run.own
  rw [get_bind_eq]
  -- the value of the variable is the same without the host
  have hroot : st.root root = (⟨st.context, st.locals, st.out, ()⟩ : State Unit).root root := by
    cases root <;> rfl
  dsimp only
  rw [hroot]
  generalize Value.write v path _ = written
  rcases written with ⟨w, _ | _⟩ <;> cases root <;> rfl

theorem store (p : Place) (v : Value) :
    Follows b (Run.store p v : Run σ Unit) (Run.store p v) := by
  rw [store_eq_own, store_eq_own]
  exact own _

end Follows

/-! ### What programs ask of their hosts -/

section Programs

variable {A : Host σ} {B : Host τ}

theorem follows_record (h : A.Follows b B) (event : ResourceEvent) :
    Follows b (Run.record A event) (Run.record B event) where
  lost st hst := h.record_lost event st.host hst
  alike st st' hst := .inr (.ok { hst with host := h.record event st.host st'.host hst.host })

theorem follows_render (h : A.Follows b B) (dir file : String) :
    Follows b (Run.render A dir file) (Run.render B dir file) where
  lost st hst := by
    have hend := h.render_lost dir file st.context st.host hst
    rw [render_eq]
    generalize A.render dir file st.context st.host = x at hend
    rcases x with ⟨e | out, context, s⟩ <;> exact hend
  alike st st' hst := by
    have hsame := h.render dir file st.context st.host st'.host hst.host
    rw [render_eq, render_eq, ← hst.context]
    generalize A.render dir file st.context st.host = x at hsame
    generalize B.render dir file st.context st'.host = y at hsame
    rcases x with ⟨result, after, s₁⟩
    rcases y with ⟨result', after', t₁⟩
    rcases hsame with hlost | ⟨hresult, hafter, hend⟩
    · left
      cases result <;> exact hlost
    · right
      cases hresult
      cases hafter
      cases result
      · exact .error ⟨rfl, hst.locals, hst.out, hend⟩
      · exact .ok ⟨rfl, hst.locals, hst.out, hend⟩

/-- Programs follow on hosts that answer alike. -/
theorem Host.Follows.relates (h : A.Follows b B) : Relates (fun _ => Stencil.Follows b) A B where
  functions := h.functions
  limit := h.limit
  pure := .pure
  fail := .fail
  bind := .bind
  ask f := .own fun context locals out => (.ok (f context), context, locals, out)
  write := .write
  readVar := .readVar
  store := .store
  record := follows_record h
  render := follows_render h

/-! ### Programs -/

/-- A program does not find back from a lost state. -/
theorem Program.lost_run (h : A.Follows b B) (program : Program) (context : Context) {s : σ}
    (hs : b.lost s) : b.lost (program.run A context s).2.2 := by
  have hend := (h.relates.execBlock program.body).lost
    ⟨context, [], "", s⟩ hs
  unfold Program.run
  cases hst : execBlock A program.body ⟨context, [], "", s⟩ <;>
  · rw [hst] at hend
    exact hend

/-- **Programs on hosts that answer alike end alike.** -/
theorem Program.same_run (h : A.Follows b B) (program : Program) (context : Context) {s : σ} {t : τ}
    (hst : b.holds s t) : b.Same (program.run A context s) (program.run B context t) := by
  have hend := (h.relates.execBlock program.body).alike ⟨context, [], "", s⟩ ⟨context, [], "", t⟩
    ⟨rfl, rfl, rfl, hst⟩
  unfold Program.run
  generalize execBlock A program.body ⟨context, [], "", s⟩ = x at hend
  generalize execBlock B program.body ⟨context, [], "", t⟩ = y at hend
  rcases hend with hlost | halike
  · left
    cases x <;> exact hlost
  · right
    cases halike with
    | ok h₁ => exact ⟨congrArg Except.ok h₁.out, h₁.context, h₁.host⟩
    | error h₁ => exact ⟨rfl, h₁.context, h₁.host⟩

end Programs

end Stencil
