import Stencil.Proofs.Reaching

/-!
# Programs one after the other

A program that is the statements of one program and then those of another one behaves like the two
in turn, as long as the first one gets to its end.  An `exit` that it executes ends everything; so
does a `break` or `continue` that it executes outside of its loops and switches, for nothing
encloses it.  What a program does depends on the text that is already written only in that its own
text comes behind it.

## Main definitions

* `State.prepend`, `prepended` — states and results with a text in front of what was written.

## Main results

* `execBlock_prepend` — programs write behind the text that is there.
* `execBlock_append` — how statements in two lists run.
* `execBlock_append_of_ne` — whatever does not end normally keeps what stands behind it from running.
* `execBlock_append_of_not_exits` — a program that executes no `exit`, and no other jump outside of
  its loops and switches, is followed by the next one.
-/

namespace Stencil

variable {σ α : Type} {host : Host σ}

/-! ### Text that is already written -/

/-- The state with a text in front of what was written. -/
def State.prepend (before : String) (st : State σ) : State σ := { st with out := before ++ st.out }

/-- The result with a text in front of what was written. -/
def prepended (before : String) :
    EStateM.Result TemplateError (State σ) α → EStateM.Result TemplateError (State σ) α
  | .ok a st => .ok a (st.prepend before)
  | .error e st => .error e (st.prepend before)

/-- Every step leaves the text in front as it is, and does not look at it. -/
theorem relates_prepend (host : Host σ) (before : String) :
    Relates (fun _ m m' => ∀ st, m (st.prepend before) = prepended before (m' st)) host host where
  functions := rfl
  limit := rfl
  pure _ _ := rfl
  fail _ _ := rfl
  bind := by
    intro α β m m' f f' hm hf st
    rw [bind_eq, bind_eq, hm]
    cases m' st with
    | ok a st₁ => exact hf a st₁
    | error e st₁ => rfl
  ask _ _ := rfl
  write text st := by
    change EStateM.Result.ok () _ = EStateM.Result.ok () _
    simp only [State.prepend, String.append_assoc]
  readVar name st := by
    unfold Run.readVar
    rw [get_bind_eq, get_bind_eq]
    split <;> rfl
  store p v st := by
    rcases p with ⟨root, path⟩
    unfold Run.store
    rw [get_bind_eq, get_bind_eq]
    have hroot : (st.prepend before).root root = st.root root := by cases root <;> rfl
    dsimp only
    rw [hroot]
    generalize Value.write v path _ = written
    rcases written with ⟨w, _ | _⟩ <;> cases root <;> rfl
  record _ _ := rfl
  render dir file st := by
    have hsame : host.render dir file (st.prepend before).context (st.prepend before).host =
        host.render dir file st.context st.host := rfl
    rw [render_eq, render_eq, hsame]
    rcases host.render dir file st.context st.host with ⟨_ | _, _, _⟩ <;> rfl

/-- Statements write behind the text that is there. -/
theorem execBlock_prepend (body : List Stmt) (before : String) (st : State σ) :
    execBlock host body (st.prepend before) = prepended before (execBlock host body st) :=
  (relates_prepend host before).execBlock body st

/-! ### Two lists of statements -/

/-- Statements behind other ones run when these end normally. -/
theorem execBlock_append (p q : List Stmt) :
    execBlock host (p ++ q) = (do
      match ← execBlock host p with
      | .normal => execBlock host q
      | flow => pure flow) := by
  induction p with
  | nil =>
    funext st
    rw [List.nil_append, bind_eq, execBlock]
    rfl
  | cons s rest ih =>
    rw [List.cons_append, execBlock, execBlock, ih, bind_assoc]
    congr 1
    funext flow
    cases flow <;> rfl

section Following

variable {p : List Stmt} {flow : Flow} {st st₁ : State σ}

/-- A statement alone is the statement. -/
theorem execBlock_singleton (s : Stmt) : execBlock host [s] st = s.exec host st := by
  cases hs : s.exec host st with
  | error err st₁ => rw [execBlock, Run.bind_of_error hs]
  | ok flow st₁ =>
    rw [execBlock, Run.bind_of_ok hs]
    cases flow <;> rfl

/-- Statements that do the same do so in front of others. -/
theorem execBlock_cons_congr {s t : Stmt} (q : List Stmt) (h : s.exec host st = t.exec host st) :
    execBlock host (s :: q) st = execBlock host (t :: q) st := by
  rw [execBlock, execBlock, bind_eq, bind_eq, h]

theorem execBlock_append_of_normal (q : List Stmt) (h : execBlock host p st = .ok .normal st₁) :
    execBlock host (p ++ q) st = execBlock host q st₁ := by
  rw [execBlock_append, Run.bind_of_ok h]

/-- What does not end normally ends the statements behind it, too. -/
theorem execBlock_append_of_ne (q : List Stmt) (h : execBlock host p st = .ok flow st₁)
    (hflow : flow ≠ .normal) : execBlock host (p ++ q) st = execBlock host p st := by
  rw [execBlock_append, Run.bind_of_ok h, h]
  cases flow with
  | normal => exact absurd rfl hflow
  | _ => rfl

/-- Statements end normally unless they execute an `exit` or stray. -/
theorem eq_normal_of_not_exits (h : execBlock host p st = .ok flow st₁) (hexit : ¬ Exits host p st)
    (hstray : ¬ Strays host p st) : flow = .normal := by
  cases flow with
  | normal => rfl
  | exit => exact absurd (exits_iff.mpr ⟨st₁, h⟩) hexit
  | breakOut => exact absurd (strays_iff.mpr ⟨st₁, .inl h⟩) hstray
  | continueOn => exact absurd (strays_iff.mpr ⟨st₁, .inr h⟩) hstray

/-- A loop or a switch ends normally, however its bodies are left, or by an `exit` in them. -/
theorem Stmt.exits_of_encloses {s : Stmt} (hs : s.encloses = true)
    (h : s.exec host st = .ok flow st₁) (hflow : flow ≠ .normal) :
    flow = .exit ∧ Exits host [s] st := by
  have hblock : execBlock host [s] st = .ok flow st₁ := execBlock_cons_of_ne h hflow
  rcases s.exec_cases h hflow with hself | ⟨-, -, -, -, hleaves⟩
  · cases flow <;> cases hself <;> cases hs
  · cases flow with
    | normal => exact absurd rfl hflow
    | exit => exact ⟨rfl, exits_iff.mpr ⟨st₁, hblock⟩⟩
    | breakOut | continueOn => exact absurd (hs.symm.trans hleaves) (by decide)

/-- **A program that gets to its end is followed by the next one**: when the statements succeed,
execute no `exit` and do not stray, the statements behind them run from the state that they leave,
and write behind their output.  Loops and switches are left by `exit` alone, so a `break` or
`continue` in them does not keep what stands behind them from running. -/
theorem execBlock_append_of_not_exits (q : List Stmt) (h : execBlock host p st = .ok flow st₁)
    (hexit : ¬ Exits host p st) (hstray : ¬ Strays host p st) :
    execBlock host (p ++ q) st = execBlock host q st₁ ∧
      execBlock host (p ++ q) st =
        prepended st₁.out (execBlock host q { st₁ with out := "" }) ∧
      ∀ (s : Stmt) (st st₁ : State σ) (flow : Flow), s.encloses = true →
        s.exec host st = .ok flow st₁ → flow = .normal ∨ flow = .exit ∧ Exits host [s] st := by
  obtain rfl := eq_normal_of_not_exits h hexit hstray
  have hwhole := execBlock_append_of_normal q h
  have hout : ({ st₁ with out := "" } : State σ).prepend st₁.out = st₁ := by
    simp [State.prepend]
  refine ⟨hwhole, ?_, ?_⟩
  · rw [hwhole, ← execBlock_prepend, hout]
  · intro s st st₁ flow hs hexec
    by_cases hflow : flow = .normal
    · exact .inl hflow
    · exact .inr (s.exits_of_encloses hs hexec hflow)

end Following

/-! ### Pages with a `break` -/

/-- A host whose loops may run twice. -/
def twiceHost : Host Unit where
  functions _ := none
  limit := 2
  render _ _ context host := (.ok "", context, host)
  record _ host := host

/-- The state in which a program starts that has written this. -/
def written (out : String) : State Unit := { context := {}, locals := [], out, host := () }

/-- The statements of `a<?tpl while (true) { break; } ?>`. -/
def leftLoop : List Stmt :=
  [.text "a", .whileLoop (.literal (.bool true)) [.breakOut]]

/-- A `break` in a loop ends the loop only, so `b` follows. -/
theorem execBlock_leftLoop_append :
    execBlock twiceHost leftLoop (written "") = .ok .normal (written "a") ∧
      ¬ Exits twiceHost leftLoop (written "") ∧ ¬ Strays twiceHost leftLoop (written "") ∧
      execBlock twiceHost (leftLoop ++ [.text "b"]) (written "") = .ok .normal (written "ab") := by
  have hruns : execBlock twiceHost leftLoop (written "") = .ok .normal (written "a") := rfl
  have hexit : ¬ Exits twiceHost leftLoop (written "") := by
    intro h
    obtain ⟨st₁, hst₁⟩ := exits_iff.mp h
    cases hruns.symm.trans hst₁
  have hstray : ¬ Strays twiceHost leftLoop (written "") := by
    intro h
    obtain ⟨st₁, hst₁ | hst₁⟩ := strays_iff.mp h <;> cases hruns.symm.trans hst₁
  have happend := (execBlock_append_of_not_exits [.text "b"] hruns hexit hstray).1
  exact ⟨hruns, hexit, hstray, happend.trans rfl⟩

/-- The statements of `a<?tpl break; ?>`. -/
def strayBreak : List Stmt := [.text "a", .breakOut]

/-- A `break` outside of every loop and switch ends the page: it succeeds without an `exit`, and `b`
is lost. -/
theorem strayBreak_loses_tail :
    execBlock twiceHost strayBreak (written "") = .ok .breakOut (written "a") ∧
      ¬ Exits twiceHost strayBreak (written "") ∧
      execBlock twiceHost [.text "b"] (written "a") = .ok .normal (written "ab") ∧
      execBlock twiceHost (strayBreak ++ [.text "b"]) (written "") =
        .ok .breakOut (written "a") ∧
      ((⟨"page", strayBreak ++ [.text "b"]⟩ : Program).run twiceHost {} ()).1 = .ok "a" := by
  have hruns : execBlock twiceHost strayBreak (written "") = .ok .breakOut (written "a") := rfl
  have hlost := execBlock_append_of_ne [.text "b"] hruns (by decide)
  refine ⟨hruns, ?_, rfl, hlost.trans hruns, rfl⟩
  intro h
  obtain ⟨st₁, hst₁⟩ := exits_iff.mp h
  cases hruns.symm.trans hst₁

end Stencil
