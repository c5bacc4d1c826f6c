import Stencil.Proofs.Caching.Stores
import Stencil.Proofs.Ending.Code

/-!
# Renders end within their limits

Templates may include themselves and each other, and loops may go on for ever.  What happens in a
render is described here by rules that know of no measure: an include runs the program of its
template, and a loop begins another round, whenever the limits of the configuration do not forbid
this one step.  A derivation by the rules is a render that has come to its end, together with the
course that it took.  Every render has exactly one, and its course stays within the limits.

## Main definitions

* `Activity` — what happens in a render: templates, loops and the passes of their bodies, each with
  what happens inside it.
* `Activity.Within`, `Activity.Occurs` — activities within the limits, and what occurs in them.
* `Handler.Ends`, `Handler.Renders` — code and renders that have come to their end.

## Main results

* `Handler.Ends.unique` — the course that code takes, and how it ends, are determined.
* `Handler.settles` — code that runs on the host of a handler comes to its end.
* `Handler.render_ends` — every render comes to its end, within the limits.
-/

namespace Stencil

/-! ### Courses -/

/-- What happens in a render. -/
inductive Activity where
  /-- The program of a template runs. -/
  | template (u : Template) (inside : List Activity) : Activity
  /-- A template is not looked at, because it would lie too deep. -/
  | refused (path : Path) : Activity
  /-- A loop is entered. -/
  | loop (inside : List Activity) : Activity
  /-- The body of a loop runs once. -/
  | pass (inside : List Activity) : Activity
  /-- The condition of a loop, its step, or the binding of its variables runs once. -/
  | around (inside : List Activity) : Activity
  /-- A loop begins one more round than it may. -/
  | overrun : Activity

namespace Activity

/-- What happens inside of an activity. -/
def inside : Activity → List Activity
  | template _ as | loop as | pass as | around as => as
  | refused _ | overrun => []

/-- Whether the activity is a pass of the body of a loop. -/
def isPass : Activity → Bool
  | pass _ => true
  | _ => false

/-- The activity is among the others or inside of one of them. -/
inductive Occurs (a : Activity) : List Activity → Prop
  | here {as : List Activity} (h : a ∈ as) : Occurs a as
  | inside {b : Activity} {as : List Activity} (hb : b ∈ as) (h : Occurs a b.inside) : Occurs a as

/-- The activity, where the next template lies at the given depth, runs no template below the
deepest level, refuses only templates one level below it, and no loop in it runs its body more
often than the limit says; a loop that overruns has run it that often. -/
inductive Within (deepest limit : Nat) : Nat → Activity → Prop
  | template {depth : Nat} {u : Template} {as : List Activity} (hdepth : depth ≤ deepest)
      (h : ∀ a ∈ as, Within deepest limit (depth + 1) a) :
      Within deepest limit depth (.template u as)
  | refused {path : Path} : Within deepest limit (deepest + 1) (.refused path)
  | loop {depth : Nat} {as : List Activity} (hcount : as.countP isPass ≤ limit)
      (hover : .overrun ∈ as → as.countP isPass = limit)
      (h : ∀ a ∈ as, Within deepest limit depth a) : Within deepest limit depth (.loop as)
  | pass {depth : Nat} {as : List Activity} (h : ∀ a ∈ as, Within deepest limit depth a) :
      Within deepest limit depth (.pass as)
  | around {depth : Nat} {as : List Activity} (h : ∀ a ∈ as, Within deepest limit depth a) :
      Within deepest limit depth (.around as)
  | overrun {depth : Nat} : Within deepest limit depth .overrun

end Activity

/-! ### Rules -/

/-- The state in which a program starts. -/
def State.start (context : Context) (w : World) : State World :=
  { context, locals := [], out := "", host := w }

/-- A program goes on after a template that it rendered, with what becomes of the output. -/
def State.resume {α : Type} (st : State World) (f : Value → α) :
    Except TemplateError String × Context × World → EStateM.Result TemplateError (State World) α
  | (.ok out, context, w) => .ok (f (.string out)) { st with context, host := w }
  | (.error e, context, w) => .error e { st with context, host := w }

/-- What a program that has ended comes to. -/
def outcome : EStateM.Result TemplateError (State World) Flow →
    Except TemplateError String × Context × World
  | .ok _ st => (.ok st.out, st.context, st.host)
  | .error e st => (.error e, st.context, st.host)

/-- What an include comes to before a program runs. -/
inductive Opening where
  /-- No program runs. -/
  | done (result : Except TemplateError String) (w : World) (as : List Activity) : Opening
  /-- The program of a template runs. -/
  | runs (u : Template) (program : Program) (w : World) : Opening

namespace Handler

/-- An include by a program at a depth.  The limit is looked at before the template is. -/
def opening (h : Handler) (depth : Nat) (dir file : String) (w : World) : Opening :=
  if h.config.maxDepth < depth + 1 then
    let path := Path.join dir.toList file.toList
    .done (.error (.includeDepthExceeded (depth + 1) path)) w [.refused path]
  else
    match h.find w.tree dir.toList file.toList with
    | .error (.sourceNotFound _) => .done (.ok "") w []
    | .error e => .done (.error e) w []
    | .ok u =>
      match h.load u w with
      | .error e w => .done (.error e) w []
      | .ok program w => .runs u program w

/-- Code that runs at a depth of includes has come to its end, after these activities. -/
inductive Ends (h : Handler) : Nat → {α : Type} → Code α → State World →
    EStateM.Result TemplateError (State World) α → List Activity → Prop
  | own {depth : Nat} {α : Type} {f : Own α} {st : State World} :
      Ends h depth (.own f) st (Run.own f st) []
  | record {depth : Nat} {α : Type} {event : ResourceEvent} {f : Value → α} {st : State World} :
      Ends h depth (.record event f) st
        (.ok (f .null) { st with host := { st.host with events := st.host.events ++ [event] } }) []
  | done {depth : Nat} {α : Type} {dir file : String} {f : Value → α} {st : State World}
      {result : Except TemplateError String} {w : World} {as : List Activity}
      (hopen : h.opening depth dir file st.host = .done result w as) :
      Ends h depth (.render dir file f) st (st.resume f (result, st.context, w)) as
  -- the program of an included template runs one level deeper, with variables and an output of
  -- its own
  | runs {depth : Nat} {α : Type} {dir file : String} {f : Value → α} {st : State World}
      {u : Template} {program : Program} {w : World}
      {r : EStateM.Result TemplateError (State World) Flow} {as : List Activity}
      (hopen : h.opening depth dir file st.host = .runs u program w)
      (hrun : Ends h (depth + 1) (program.code h.functions) (.start (h.enter u st.context) w) r
        as) :
      Ends h depth (.render dir file f) st
        (st.resume f ((outcome r).1, leave st.context (outcome r).2.1, (outcome r).2.2))
        [.template u as]
  | bind {depth : Nat} {α β : Type} {m : Code α} {f : α → Code β} {st st₁ : State World} {a : α}
      {r : EStateM.Result TemplateError (State World) β} {as bs : List Activity}
      (hm : Ends h depth m st (.ok a st₁) as) (hf : Ends h depth (f a) st₁ r bs) :
      Ends h depth (.bind m f) st r (as ++ bs)
  | stop {depth : Nat} {α β : Type} {m : Code α} {f : α → Code β} {st st₁ : State World}
      {e : TemplateError} {as : List Activity} (hm : Ends h depth m st (.error e st₁) as) :
      Ends h depth (.bind m f) st (.error e st₁) as
  | tick {depth i : Nat} {α : Type} {f : Unit → α} {st : State World}
      (hi : i + 1 ≤ h.config.maxRounds) : Ends h depth (.tick i f) st (.ok (f ()) st) []
  | overrun {depth i : Nat} {α : Type} {f : Unit → α} {st : State World}
      (hi : h.config.maxRounds < i + 1) :
      Ends h depth (.tick i f) st (.error (.runtime (.iterationLimit h.config.maxRounds)) st)
        [.overrun]
  | pass {depth : Nat} {α : Type} {m : Code α} {st : State World}
      {r : EStateM.Result TemplateError (State World) α} {as : List Activity}
      (hm : Ends h depth m st r as) : Ends h depth (.pass m) st r [.pass as]
  | around {depth : Nat} {α : Type} {m : Code α} {st : State World}
      {r : EStateM.Result TemplateError (State World) α} {as : List Activity}
      (hm : Ends h depth m st r as) : Ends h depth (.around m) st r [.around as]
  | whileLoop {depth : Nat} {α : Type} {cond : Code Bool} {body : Code Flow} {step : Code Unit}
      {f : Flow → α} {st : State World} {r : EStateM.Result TemplateError (State World) α}
      {as : List Activity} (hloop : Ends h depth (.rounds 0 cond body step f) st r as) :
      Ends h depth (.whileLoop cond body step f) st r [.loop as]
  -- a loop goes on with no regard to how often it has done so; only `tick` counts
  | rounds {depth i : Nat} {α : Type} {cond : Code Bool} {body : Code Flow} {step : Code Unit}
      {f : Flow → α} {st : State World} {r : EStateM.Result TemplateError (State World) α}
      {as : List Activity} (hnext : Ends h depth (.nextRound i cond body step f) st r as) :
      Ends h depth (.rounds i cond body step f) st r as
  | eachLoop {depth : Nat} {α : Type} {take : Value → Value → Code Unit} {body : Code Flow}
      {all : List (Value × Value)} {f : Flow → α} {st : State World}
      {r : EStateM.Result TemplateError (State World) α} {as : List Activity}
      (hloop : Ends h depth (.entries 0 take body all f) st r as) :
      Ends h depth (.eachLoop take body all f) st r [.loop as]
  | entries {depth i : Nat} {α : Type} {take : Value → Value → Code Unit} {body : Code Flow}
      {left : List (Value × Value)} {f : Flow → α} {st : State World}
      {r : EStateM.Result TemplateError (State World) α} {as : List Activity}
      (hnext : Ends h depth (.nextEntry i take body left f) st r as) :
      Ends h depth (.entries i take body left f) st r as

/-- A render that has come to its end, after these activities. -/
inductive Renders (h : Handler) (dir : Path) (file : List Char) (ctx : Context) (w : World) :
    Except TemplateError String × Context × World → List Activity → Prop
  | unfound {e : TemplateError} (hfind : h.find w.tree dir file = .error e) :
      Renders h dir file ctx w (.error e, ctx, w) []
  | unloaded {u : Template} {e : TemplateError} {w₁ : World}
      (hfind : h.find w.tree dir file = .ok u) (hload : h.load u w = .error e w₁) :
      Renders h dir file ctx w (.error e, ctx, w₁) []
  | runs {u : Template} {program : Program} {w₁ : World}
      {r : EStateM.Result TemplateError (State World) Flow} {as : List Activity}
      (hfind : h.find w.tree dir file = .ok u) (hload : h.load u w = .ok program w₁)
      (hrun : h.Ends 0 (program.code h.functions) (.start (h.enter u ctx) w₁) r as) :
      Renders h dir file ctx w (outcome r) [.template u as]

/-- The end of code, and the activities before it, are determined. -/
theorem Ends.unique {h : Handler} {depth : Nat} {α : Type} {c : Code α} {st : State World}
    {r r' : EStateM.Result TemplateError (State World) α} {as as' : List Activity}
    (hr : h.Ends depth c st r as) (hr' : h.Ends depth c st r' as') : r = r' ∧ as = as' := by
  induction hr generalizing as' with
  | own =>
    cases hr'
    exact ⟨rfl, rfl⟩
  | record =>
    cases hr'
    exact ⟨rfl, rfl⟩
  | done hopen =>
    cases hr' with
    | done hopen' =>
      cases hopen.symm.trans hopen'
      exact ⟨rfl, rfl⟩
    | runs hopen' => cases hopen.symm.trans hopen'
  | runs hopen _ ih =>
    cases hr' with
    | done hopen' => cases hopen.symm.trans hopen'
    | runs hopen' hrun' =>
      cases hopen.symm.trans hopen'
      obtain ⟨rfl, rfl⟩ := ih hrun'
      exact ⟨rfl, rfl⟩
  | bind _ _ ihm ihf =>
    cases hr' with
    | bind hm' hf' =>
      obtain ⟨hok, rfl⟩ := ihm hm'
      cases hok
      obtain ⟨rfl, rfl⟩ := ihf hf'
      exact ⟨rfl, rfl⟩
    | stop hm' => cases (ihm hm').1
  | stop _ ihm =>
    cases hr' with
    | bind hm' _ => cases (ihm hm').1
    | stop hm' =>
      obtain ⟨herror, rfl⟩ := ihm hm'
      cases herror
      exact ⟨rfl, rfl⟩
  | tick hi =>
    cases hr' with
    | tick => exact ⟨rfl, rfl⟩
    | overrun hi' => omega
  | overrun hi =>
    cases hr' with
    | tick hi' => omega
    | overrun => exact ⟨rfl, rfl⟩
  | pass _ ih =>
    cases hr' with
    | pass hm' =>
      obtain ⟨rfl, rfl⟩ := ih hm'
      exact ⟨rfl, rfl⟩
  | around _ ih =>
    cases hr' with
    | around hm' =>
      obtain ⟨rfl, rfl⟩ := ih hm'
      exact ⟨rfl, rfl⟩
  | whileLoop _ ih =>
    cases hr' with
    | whileLoop hloop' =>
      obtain ⟨rfl, rfl⟩ := ih hloop'
      exact ⟨rfl, rfl⟩
  | rounds _ ih =>
    cases hr' with
    | rounds hnext' => exact ih hnext'
  | eachLoop _ ih =>
    cases hr' with
    | eachLoop hloop' =>
      obtain ⟨rfl, rfl⟩ := ih hloop'
      exact ⟨rfl, rfl⟩
  | entries _ ih =>
    cases hr' with
    | entries hnext' => exact ih hnext'

end Handler

/-! ### Activities within the limits -/

namespace Activity

theorem not_occurs_nil {a : Activity} : ¬ Occurs a [] := by
  rintro (h | ⟨hb, _⟩)
  · cases h
  · cases hb

theorem occurs_append {a : Activity} {as bs : List Activity} :
    Occurs a (as ++ bs) ↔ Occurs a as ∨ Occurs a bs := by
  constructor
  · rintro (h | ⟨hb, h⟩)
    · exact (List.mem_append.mp h).imp .here .here
    · exact (List.mem_append.mp hb).imp (.inside · h) (.inside · h)
  · rintro ((h | ⟨hb, h⟩) | (h | ⟨hb, h⟩))
    · exact .here (List.mem_append_left _ h)
    · exact .inside (List.mem_append_left _ hb) h
    · exact .here (List.mem_append_right _ h)
    · exact .inside (List.mem_append_right _ hb) h

theorem occurs_singleton {a b : Activity} : Occurs a [b] ↔ a = b ∨ Occurs a b.inside := by
  constructor
  · rintro (h | ⟨hb, h⟩)
    · exact .inl (List.mem_singleton.mp h)
    · cases List.mem_singleton.mp hb
      exact .inr h
  · rintro (rfl | h)
    · exact .here (List.mem_singleton.mpr rfl)
    · exact .inside (List.mem_singleton.mpr rfl) h

end Activity

/-- The failure of a step that failed. -/
def failure? {ε σ α : Type} : EStateM.Result ε σ α → Option ε
  | .ok _ _ => none
  | .error e _ => some e

namespace Handler

/-- Activities within the limits, where a refusal or an overrun among them is the failure in which
all ends. -/
structure Bounded (h : Handler) (depth : Nat) (failure : Option TemplateError)
    (as : List Activity) : Prop where
  within : ∀ a ∈ as, a.Within h.config.maxDepth h.config.maxRounds depth
  refused : ∀ path, Activity.Occurs (.refused path) as →
    failure = some (.includeDepthExceeded (h.config.maxDepth + 1) path)
  overrun : Activity.Occurs .overrun as →
    failure = some (.runtime (.iterationLimit h.config.maxRounds))

namespace Bounded

variable {h : Handler} {depth : Nat} {failure : Option TemplateError} {as bs : List Activity}

theorem nil : h.Bounded depth failure [] where
  within _ ha := nomatch ha
  refused _ ha := absurd ha Activity.not_occurs_nil
  overrun ha := absurd ha Activity.not_occurs_nil

/-- What happens before a step that ends has not failed. -/
theorem append (has : h.Bounded depth none as) (hbs : h.Bounded depth failure bs) :
    h.Bounded depth failure (as ++ bs) where
  within a ha := (List.mem_append.mp ha).elim (has.within a) (hbs.within a)
  refused path hpath := by
    rcases Activity.occurs_append.mp hpath with hpath | hpath
    · cases has.refused path hpath
    · exact hbs.refused path hpath
  overrun hover := by
    rcases Activity.occurs_append.mp hover with hover | hover
    · cases has.overrun hover
    · exact hbs.overrun hover

theorem ofOverrun :
    h.Bounded depth (some (.runtime (.iterationLimit h.config.maxRounds))) [.overrun] where
  within a ha := by
    cases List.mem_singleton.mp ha
    exact .overrun
  refused path hpath := by
    rcases Activity.occurs_singleton.mp hpath with hpath | hpath
    · cases hpath
    · exact absurd hpath Activity.not_occurs_nil
  overrun _ := rfl

theorem ofRefused {path : Path} :
    h.Bounded (h.config.maxDepth + 1) (some (.includeDepthExceeded (h.config.maxDepth + 1) path))
      [.refused path] where
  within a ha := by
    cases List.mem_singleton.mp ha
    exact .refused
  refused path' hpath := by
    rcases Activity.occurs_singleton.mp hpath with hpath | hpath
    · cases hpath
      rfl
    · exact absurd hpath Activity.not_occurs_nil
  overrun hover := by
    rcases Activity.occurs_singleton.mp hover with hover | hover
    · cases hover
    · exact absurd hover Activity.not_occurs_nil

/-- An activity with something inside is bounded as that is. -/
theorem wrap {inner : Nat} {b : Activity} (hb : h.Bounded inner failure b.inside)
    (hwithin : b.Within h.config.maxDepth h.config.maxRounds depth)
    (hrefused : ∀ path, .refused path ≠ b) (hover : .overrun ≠ b) :
    h.Bounded depth failure [b] where
  within a ha := by
    cases List.mem_singleton.mp ha
    exact hwithin
  refused path hpath :=
    hb.refused path ((Activity.occurs_singleton.mp hpath).resolve_left (hrefused path))
  overrun hocc := hb.overrun ((Activity.occurs_singleton.mp hocc).resolve_left hover)

end Bounded

/-! ### Code on the host of a handler -/

@[simp] theorem host_functions (h : Handler) (left depth : Nat) :
    (h.host left depth).functions = h.functions := by
  cases left <;> rfl

@[simp] theorem host_limit (h : Handler) (left depth : Nat) :
    (h.host left depth).limit = h.config.maxRounds := by
  cases left <;> rfl

theorem host_record (h : Handler) (left depth : Nat) (event : ResourceEvent) (w : World) :
    (h.host left depth).record event w = { w with events := w.events ++ [event] } := by
  cases left <;> rfl

/-- Any activities. -/
def Any (_ : List Activity) : Prop := True

/-- Activities of a step of a loop that runs the body so many times. -/
def Passes (n : Nat) (as : List Activity) : Prop :=
  as.countP Activity.isPass = n ∧ .overrun ∉ as

/-- Activities of a loop that has so many rounds left. -/
def InRounds (n : Nat) (as : List Activity) : Prop :=
  as.countP Activity.isPass ≤ n ∧ (.overrun ∈ as → as.countP Activity.isPass = n)

/-- From every state the code comes to the end in which it runs on the host, and `P` holds of the
activities before it. -/
def Settles (h : Handler) (depth : Nat) (host : Host World) (P : List Activity → Prop) {α : Type}
    (c : Code α) : Prop :=
  ∀ st, ∃ as, h.Ends depth c st (c.run host st) as ∧
    h.Bounded (depth + 1) (failure? (c.run host st)) as ∧ P as

section Settling

variable {h : Handler} {depth : Nat} {host : Host World} {α β : Type} {n i : Nat}
  {P Q : List Activity → Prop}

theorem InRounds.of_passes {k : Nat} {as : List Activity} (has : Passes k as) (hk : k ≤ n) :
    InRounds n as :=
  ⟨has.1 ▸ hk, fun hover => absurd hover has.2⟩

theorem InRounds.append {k : Nat} {as bs : List Activity} (has : Passes k as)
    (hbs : InRounds n bs) : InRounds (k + n) (as ++ bs) := by
  unfold InRounds
  rw [List.countP_append, has.1]
  refine ⟨Nat.add_le_add_left hbs.1 k, fun hover => ?_⟩
  rw [hbs.2 ((List.mem_append.mp hover).resolve_left has.2)]

theorem Settles.mono {c : Code α} (hc : h.Settles depth host P c) (hPQ : ∀ as, P as → Q as) :
    h.Settles depth host Q c := by
  intro st
  obtain ⟨as, hends, hbounded, has⟩ := hc st
  exact ⟨as, hends, hbounded, hPQ as has⟩

theorem settles_own {f : Own α} (hP : P []) : h.Settles depth host P (.own f) :=
  fun _ => ⟨[], .own, .nil, hP⟩

theorem settles_bind {R : List Activity → Prop} {m : Code α} {f : α → Code β}
    (hm : h.Settles depth host P m) (hf : ∀ a, h.Settles depth host Q (f a))
    (hstop : ∀ as, P as → R as) (hboth : ∀ as bs, P as → Q bs → R (as ++ bs)) :
    h.Settles depth host R (.bind m f) := by
  intro st
  obtain ⟨as, hends, hbounded, has⟩ := hm st
  rw [Code.run, bind_eq]
  cases hst : m.run host st with
  | error e st₁ =>
    rw [hst] at hends hbounded
    exact ⟨as, .stop hends, hbounded, hstop as has⟩
  | ok a st₁ =>
    rw [hst] at hends hbounded
    obtain ⟨bs, hends', hbounded', hbs⟩ := hf a st₁
    exact ⟨as ++ bs, .bind hends hends', hbounded.append hbounded', hboth as bs has hbs⟩

theorem settles_around {m : Code α} (hm : h.Settles depth host P m) :
    h.Settles depth host (Passes 0) (.around m) := by
  intro st
  obtain ⟨as, hends, hbounded, _⟩ := hm st
  exact ⟨[.around as], .around hends, hbounded.wrap (.around hbounded.within) nofun nofun,
    rfl, by simp⟩

theorem settles_pass {m : Code α} (hm : h.Settles depth host P m) :
    h.Settles depth host (Passes 1) (.pass m) := by
  intro st
  obtain ⟨as, hends, hbounded, _⟩ := hm st
  exact ⟨[.pass as], .pass hends, hbounded.wrap (.pass hbounded.within) nofun nofun,
    rfl, by simp⟩

/-- A loop in progress goes on after a step of it. -/
theorem settles_inRounds {k : Nat} {m : Code α} {f : α → Code β}
    (hm : h.Settles depth host (Passes k) m)
    (hf : ∀ a, h.Settles depth host (InRounds n) (f a)) :
    h.Settles depth host (InRounds (k + n)) (.bind m f) :=
  settles_bind hm hf (fun _ has => .of_passes has (Nat.le_add_right k n))
    fun _ _ has hbs => InRounds.append has hbs

theorem run_tick (hlimit : host.limit = h.config.maxRounds) (f : Unit → α)
    (hi : i < h.config.maxRounds) (st : State World) :
    (Code.tick i f).run host st = .ok (f ()) st := by
  simp only [Code.run, hlimit, hi, if_true]
  rfl

theorem run_overrun (hlimit : host.limit = h.config.maxRounds) (f : Unit → α)
    (hi : ¬ i < h.config.maxRounds) (st : State World) :
    (Code.tick i f).run host st = .error (.runtime (.iterationLimit h.config.maxRounds)) st := by
  simp only [Code.run, hlimit, hi, if_false]
  rfl

theorem settles_tick (hlimit : host.limit = h.config.maxRounds) {f : Unit → α}
    (hi : i < h.config.maxRounds) : h.Settles depth host (Passes 0) (.tick i f) := by
  intro st
  rw [run_tick hlimit f hi]
  exact ⟨[], .tick hi, .nil, rfl, nofun⟩

theorem settles_overrun (hlimit : host.limit = h.config.maxRounds) {f : Unit → α}
    (hi : ¬ i < h.config.maxRounds) : h.Settles depth host Any (.tick i f) := by
  intro st
  rw [run_overrun hlimit f hi]
  exact ⟨[.overrun], .overrun (by omega), .ofOverrun, trivial⟩

/-- A loop that has had all its rounds fails before it begins another one. -/
theorem settles_lastRound (hlimit : host.limit = h.config.maxRounds)
    {opening closing : Code Unit} {body : Code Flow} {f : Flow → α} {again : Code α}
    (hi : ¬ i < h.config.maxRounds) :
    h.Settles depth host (InRounds 0) (.round i opening body closing f again) := by
  intro st
  have hrun : (Code.round i opening body closing f again).run host st =
      .error (.runtime (.iterationLimit h.config.maxRounds)) st := by
    rw [Code.run_round, hlimit, if_neg hi]
    rfl
  rw [hrun]
  exact ⟨[.overrun], .stop (.overrun (by omega)), .ofOverrun, Nat.le_refl 0, fun _ => rfl⟩

/-- A loop under a condition settles as its next round does. -/
theorem Settles.rounds {cond : Code Bool} {body : Code Flow} {step : Code Unit} {f : Flow → α}
    (hnext : h.Settles depth host P (.nextRound i cond body step f)) :
    h.Settles depth host P (.rounds i cond body step f) := by
  intro st
  obtain ⟨as, hends, hbounded, has⟩ := hnext st
  rw [Code.run_rounds]
  exact ⟨as, .rounds hends, hbounded, has⟩

/-- A loop over entries settles as its next round does. -/
theorem Settles.entries {take : Value → Value → Code Unit} {body : Code Flow}
    {left : List (Value × Value)} {f : Flow → α}
    (hnext : h.Settles depth host P (.nextEntry i take body left f)) :
    h.Settles depth host P (.entries i take body left f) := by
  intro st
  obtain ⟨as, hends, hbounded, has⟩ := hnext st
  rw [Code.run_entries]
  exact ⟨as, .entries hends, hbounded, has⟩

/-- What happens in a loop that is entered is within the limits, when the loop has all rounds. -/
theorem Bounded.loop {failure : Option TemplateError} {as : List Activity}
    (hbounded : h.Bounded depth failure as) (has : InRounds h.config.maxRounds as) :
    h.Bounded depth failure [.loop as] :=
  hbounded.wrap (.loop has.1 has.2 hbounded.within) nofun nofun

section Loops

variable (hlimit : host.limit = h.config.maxRounds) {body : Code Flow} {f : Flow → α}
  (hbody : h.Settles depth host Any body)

include hlimit hbody

/-- One more round of a loop, while it has some left. -/
theorem settles_round {opening closing : Code Unit} {again : Code α}
    (hi : i < h.config.maxRounds) (hopening : h.Settles depth host Any opening)
    (hclosing : h.Settles depth host Any closing)
    (hagain : h.Settles depth host (InRounds n) again) :
    h.Settles depth host (InRounds (n + 1)) (.round i opening body closing f again) := by
  rw [show n + 1 = 0 + (0 + (1 + (0 + n))) by omega]
  apply settles_inRounds (settles_tick hlimit hi)
  intro _
  apply settles_inRounds (settles_around hopening)
  intro _
  apply settles_inRounds (settles_pass hbody)
  intro flow
  cases flow with
  | breakOut | exit => exact settles_own ⟨Nat.zero_le _, nofun⟩
  | normal | continueOn =>
    apply settles_inRounds (settles_around hclosing)
    intro _
    exact hagain

/-- A loop under a condition has the rounds that the limit leaves it. -/
theorem settles_rounds {cond : Code Bool} {step : Code Unit}
    (hcond : h.Settles depth host Any cond) (hstep : h.Settles depth host Any step) (i : Nat) :
    h.Settles depth host (InRounds (h.config.maxRounds - i)) (.rounds i cond body step f) := by
  generalize hn : h.config.maxRounds - i = n
  induction n generalizing i with
  | zero =>
    apply Settles.rounds
    rw [← Nat.zero_add 0]
    apply settles_inRounds (settles_around hcond)
    intro holds
    cases holds with
    | false => exact settles_own ⟨Nat.le_refl 0, nofun⟩
    | true => exact settles_lastRound hlimit (by omega)
  | succ n ih =>
    apply Settles.rounds
    rw [← Nat.zero_add (n + 1)]
    apply settles_inRounds (settles_around hcond)
    intro holds
    cases holds with
    | false => exact settles_own ⟨Nat.zero_le _, nofun⟩
    | true =>
      exact settles_round hlimit hbody (by omega) (settles_own trivial) hstep
        (ih (i + 1) (by omega))

theorem settles_whileLoop {cond : Code Bool} {step : Code Unit}
    (hcond : h.Settles depth host Any cond) (hstep : h.Settles depth host Any step) :
    h.Settles depth host Any (.whileLoop cond body step f) := by
  intro st
  obtain ⟨as, hends, hbounded, has⟩ := settles_rounds hlimit hbody hcond hstep 0 st
  exact ⟨[.loop as], .whileLoop hends, hbounded.loop has, trivial⟩

/-- A loop over entries has the rounds that the limit leaves it. -/
theorem settles_entries {take : Value → Value → Code Unit}
    (htake : ∀ k v, h.Settles depth host Any (take k v)) (i : Nat)
    (left : List (Value × Value)) :
    h.Settles depth host (InRounds (h.config.maxRounds - i)) (.entries i take body left f) := by
  generalize hn : h.config.maxRounds - i = n
  induction left generalizing i n with
  | nil => exact .entries (settles_own ⟨Nat.zero_le n, nofun⟩)
  | cons entry left ih =>
    apply Settles.entries
    cases n with
    | zero => exact settles_lastRound hlimit (by omega)
    | succ n =>
      exact settles_round hlimit hbody (by omega) (htake _ _) (settles_own trivial)
        (ih (i + 1) n (by omega))

theorem settles_eachLoop {take : Value → Value → Code Unit}
    (htake : ∀ k v, h.Settles depth host Any (take k v)) (all : List (Value × Value)) :
    h.Settles depth host Any (.eachLoop take body all f) := by
  intro st
  obtain ⟨as, hends, hbounded, has⟩ := settles_entries hlimit hbody htake 0 all st
  exact ⟨[.loop as], .eachLoop hends, hbounded.loop has, trivial⟩

end Loops

end Settling

/-! ### Included templates -/

theorem run_eq_outcome (host : Host World) (program : Program) (ctx : Context) (w : World) :
    program.run host ctx w = outcome (execBlock host program.body (.start ctx w)) := by
  unfold Program.run State.start
  cases execBlock host program.body { context := ctx, locals := [], out := "", host := w } <;> rfl

theorem run_render (host : Host World) {α : Type} (dir file : String) (f : Value → α)
    (st : State World) :
    (Code.render dir file f).run host st =
      st.resume f (host.render dir file st.context st.host) := by
  change EStateM.map f (Run.render host dir file) st = _
  unfold EStateM.map
  rw [Stencil.render_eq]
  rcases host.render dir file st.context st.host with ⟨e | out, context, w⟩ <;> rfl

theorem opening_eq {h : Handler} {left depth : Nat}
    (hdepth : depth + (left + 1) = h.config.maxDepth) (dir file : String) (w : World) :
    h.opening depth dir file w =
      match h.find w.tree dir.toList file.toList with
      | .error (.sourceNotFound _) => .done (.ok "") w []
      | .error e => .done (.error e) w []
      | .ok u =>
        match h.load u w with
        | .error e w => .done (.error e) w []
        | .ok program w => .runs u program w :=
  if_neg (by omega)

theorem failure?_resume {α : Type} (st : State World) (f : Value → α) (ctx : Context) (w : World)
    (r : EStateM.Result TemplateError (State World) Flow) :
    failure? (st.resume f ((outcome r).1, ctx, w)) = failure? r := by
  cases r <;> rfl

theorem outcome_of_failure {r : EStateM.Result TemplateError (State World) Flow}
    {e : TemplateError} (hr : failure? r = some e) : (outcome r).1 = .error e := by
  cases r with
  | ok _ _ => cases hr
  | error _ _ =>
    cases hr
    rfl

/-- What an include comes to on the host of a handler. -/
theorem host_render (h : Handler) {left depth : Nat}
    (hdepth : depth + (left + 1) = h.config.maxDepth)
    (dir file : String) (ctx : Context) (w : World) :
    (h.host (left + 1) depth).render dir file ctx w =
      match h.opening depth dir file w with
      | .done result w _ => (result, ctx, w)
      | .runs u program w =>
        match program.run (h.host left (depth + 1)) (h.enter u ctx) w with
        | (result, after, w) => (result, leave ctx after, w) := by
  have htree : h.cached.tree w = w.tree := rfl
  rw [opening_eq hdepth, includeOver_cached, includeOver, htree]
  rcases h.find w.tree dir.toList file.toList with e | u
  · cases e <;> rfl
  · dsimp only
    rw [renderUnitOver_cached]
    unfold renderUnit
    generalize h.load u w = loaded
    cases loaded <;> rfl

/-- Code settles at a depth when what it renders does. -/
theorem settles_of_render {h : Handler} {left depth : Nat}
    (hrender : ∀ {α : Type} (dir file : String) (f : Value → α),
      h.Settles depth (h.host left depth) Any (.render dir file f))
    {α : Type} (c : Code α) : h.Settles depth (h.host left depth) Any c := by
  have hlimit := h.host_limit left depth
  induction c with
  | own f => exact settles_own trivial
  | record event f =>
    intro st
    have hrun : (Code.record event f).run (h.host left depth) st =
        .ok (f .null)
          { st with host := { st.host with events := st.host.events ++ [event] } } := by
      rw [← host_record h left depth]
      rfl
    rw [hrun]
    exact ⟨[], .record, .nil, trivial⟩
  | render dir file f => exact hrender dir file f
  | bind m f hm hf => exact settles_bind hm hf (fun _ _ => trivial) fun _ _ _ _ => trivial
  | tick i f =>
    by_cases hi : i < h.config.maxRounds
    · exact (settles_tick hlimit hi).mono fun _ _ => trivial
    · exact settles_overrun hlimit hi
  | pass m hm => exact (settles_pass hm).mono fun _ _ => trivial
  | around m hm => exact (settles_around hm).mono fun _ _ => trivial
  | whileLoop cond body step f hcond hbody hstep =>
    exact settles_whileLoop hlimit hbody hcond hstep
  | rounds i cond body step f hcond hbody hstep =>
    exact (settles_rounds hlimit hbody hcond hstep i).mono fun _ _ => trivial
  | eachLoop take body all f htake hbody => exact settles_eachLoop hlimit hbody htake all
  | entries i take body left f htake hbody =>
    exact (settles_entries hlimit hbody htake i left).mono fun _ _ => trivial

/-- Nothing happens in an include within the limit that runs no program. -/
theorem opening_quiet {h : Handler} {left depth : Nat}
    (hdepth : depth + (left + 1) = h.config.maxDepth) {dir file : String} {w w' : World}
    {result : Except TemplateError String} {as : List Activity}
    (hopen : h.opening depth dir file w = .done result w' as) : as = [] := by
  rw [opening_eq hdepth] at hopen
  split at hopen
  · cases hopen
    rfl
  · cases hopen
    rfl
  · split at hopen
    · cases hopen
      rfl
    · cases hopen

theorem run_programCode (h : Handler) (left depth : Nat) (program : Program) :
    (program.code h.functions).run (h.host left depth) =
      execBlock (h.host left depth) program.body := by
  rw [← h.host_functions left depth]
  exact program.run_code (h.host left depth)

/-- At every depth that the limit allows, code settles. -/
theorem settles (h : Handler) {left depth : Nat} (hdepth : depth + left = h.config.maxDepth)
    {α : Type} (c : Code α) : h.Settles depth (h.host left depth) Any c := by
  -- the induction is on the levels that are left; at each one it is on the code
  induction left generalizing depth α with
  | zero =>
    apply settles_of_render
    intro _ dir file f st
    have hopen : h.opening depth dir file st.host =
        .done (.error (.includeDepthExceeded (depth + 1) (Path.join dir.toList file.toList)))
          st.host [.refused (Path.join dir.toList file.toList)] :=
      if_pos (by omega)
    rw [run_render]
    refine ⟨_, .done hopen, ?_, trivial⟩
    obtain rfl : depth = h.config.maxDepth := hdepth
    exact .ofRefused
  | succ left ih =>
    apply settles_of_render
    intro _ dir file f st
    rw [run_render, host_render h hdepth]
    have hdeeper : depth + 1 + left = h.config.maxDepth := by omega
    cases hopen : h.opening depth dir file st.host with
    | done result w as =>
      obtain rfl := opening_quiet hdepth hopen
      exact ⟨[], .done hopen, .nil, trivial⟩
    | runs u program w =>
      obtain ⟨as, hends, hbounded, _⟩ :=
        ih hdeeper (program.code h.functions) (.start (h.enter u st.context) w)
      rw [run_programCode] at hends hbounded
      dsimp only
      rw [run_eq_outcome]
      refine ⟨[.template u as], .runs hopen hends, ?_, trivial⟩
      rw [failure?_resume]
      exact hbounded.wrap (.template (by omega) hbounded.within) nofun nofun

/-! ### Renders -/

/-- The end of a render, and the activities before it, are determined. -/
theorem Renders.unique {h : Handler} {dir : Path} {file : List Char} {ctx : Context} {w : World}
    {r r' : Except TemplateError String × Context × World} {as as' : List Activity}
    (hr : h.Renders dir file ctx w r as) (hr' : h.Renders dir file ctx w r' as') :
    r = r' ∧ as = as' := by
  cases hr with
  | unfound hfind =>
    cases hr' with
    | unfound hfind' =>
      cases hfind.symm.trans hfind'
      exact ⟨rfl, rfl⟩
    | unloaded hfind' _ | runs hfind' _ _ => cases hfind.symm.trans hfind'
  | unloaded hfind hload =>
    cases hr' with
    | unfound hfind' => cases hfind.symm.trans hfind'
    | unloaded hfind' hload' =>
      cases hfind.symm.trans hfind'
      cases hload.symm.trans hload'
      exact ⟨rfl, rfl⟩
    | runs hfind' hload' _ =>
      cases hfind.symm.trans hfind'
      cases hload.symm.trans hload'
  | runs hfind hload hrun =>
    cases hr' with
    | unfound hfind' => cases hfind.symm.trans hfind'
    | unloaded hfind' hload' =>
      cases hfind.symm.trans hfind'
      cases hload.symm.trans hload'
    | runs hfind' hload' hrun' =>
      cases hfind.symm.trans hfind'
      cases hload.symm.trans hload'
      obtain ⟨rfl, rfl⟩ := hrun.unique hrun'
      exact ⟨rfl, rfl⟩

/-- A render comes to the end that the handler computes. -/
theorem exists_renders (h : Handler) (dir : Path) (file : List Char) (ctx : Context) (w : World) :
    ∃ as failure, h.Renders dir file ctx w (h.render dir file ctx w) as ∧
      h.Bounded 0 failure as ∧ ∀ e, failure = some e → (h.render dir file ctx w).1 = .error e := by
  unfold render
  cases hfind : h.find w.tree dir file with
  | error e => exact ⟨[], none, .unfound hfind, .nil, nofun⟩
  | ok u =>
    simp only [renderAt, renderUnit]
    cases hload : h.load u w with
    | error e w₁ => exact ⟨[], none, .unloaded hfind hload, .nil, nofun⟩
    | ok program w₁ =>
      obtain ⟨as, hends, hbounded, _⟩ :=
        h.settles (Nat.zero_add h.config.maxDepth) (program.code h.functions)
          (.start (h.enter u ctx) w₁)
      rw [run_programCode] at hends hbounded
      simp only [run_eq_outcome]
      refine ⟨[.template u as], _, .runs hfind hload hends,
        hbounded.wrap (.template (Nat.zero_le _) hbounded.within) nofun nofun,
        fun _ => outcome_of_failure⟩

/-- **Every render comes to its end within the limits.**  Under the rules there is exactly one end
of it, which is the one the handler computes, and one course that leads there.  On this course no
template runs below the deepest level, and no loop runs its body more often than its limit says;
a template that would lie one level deeper is refused, and a loop that would begin one more round
fails, and the render ends in this failure. -/
theorem render_ends (h : Handler) (dir : Path) (file : List Char) (ctx : Context) (w : World) :
    ∃ as, (∀ r bs, h.Renders dir file ctx w r bs ↔ r = h.render dir file ctx w ∧ bs = as) ∧
      (∀ a ∈ as, a.Within h.config.maxDepth h.config.maxRounds 0) ∧
      (∀ path, Activity.Occurs (.refused path) as →
        (h.render dir file ctx w).1 = .error (.includeDepthExceeded (h.config.maxDepth + 1) path)) ∧
      (Activity.Occurs .overrun as →
        (h.render dir file ctx w).1 = .error (.runtime (.iterationLimit h.config.maxRounds))) := by
  obtain ⟨as, failure, hrenders, hbounded, hfailure⟩ := h.exists_renders dir file ctx w
  refine ⟨as, fun r bs => ⟨?_, ?_⟩, hbounded.within, ?_, ?_⟩
  · intro hr
    exact hr.unique hrenders
  · rintro ⟨rfl, rfl⟩
    exact hrenders
  · intro path hpath
    exact hfailure _ (hbounded.refused path hpath)
  · intro hover
    exact hfailure _ (hbounded.overrun hover)

end Handler

end Stencil
