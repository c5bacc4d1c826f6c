import Stencil.Markup.Compile

/-!
# What a compilation asks of the files

Besides its source, a compilation reads of the files only where the directories are that directives
name.  Each of them is looked up under a few paths.  Where these paths lead to the same places, or
nowhere as before, the compilation is the same.

## Main definitions

* `lookups` — the paths under which a directory that a template names is looked up.
* `Directive.declared?` — the directory part of a directive.
* `Compiler.lookups` — the paths that a compilation looks up.

## Main results

* `Compiler.compile_congr` — a compilation depends on the files only through these paths.
-/

namespace Stencil

open Text

/-- The paths under which a directory that a template names is looked up. -/
def lookups (root template declared : Path) : List Path :=
  let declared := trim declared
  match Path.parent? template with
  | none => []
  | some dir =>
    if declared.isEmpty || declared == ['.'] then []
    else
      match declared with
      | '/' :: rooted => [root.join rooted, declared]
      | _ => dir.join declared :: ((afterOverlap declared dir).map dir.join).toList

/-- The directory part of a directive; addresses of other hosts and plugins have none. -/
def Directive.declared? : Directive → Option Path
  | resource verb argument attributes =>
    match argument.or (Assoc.get? attributes "target".toList) with
    | some (c :: cs) =>
      match verb with
      | .includeTemplate => some (splitTarget (c :: cs)).1
      | .loadPlugin => none
      | _ => if isRemote (c :: cs) then none else some (splitTarget (c :: cs)).1
    | _ => none
  | _ => none

/-- The directory parts of the directives of a text. -/
def declaredDirs (cs : List Char) : List Path :=
  ((findAll constructAt cs).filterMap Construct.directive?).filterMap Directive.declared?

/-- The paths that the compilation of a template looks up. -/
def Compiler.lookups (c : Compiler) (path : Path) (webPath source : List Char) : List Path :=
  (declaredDirs (compileScopes (prepared webPath source)).1).flatMap (Stencil.lookups c.root path)

/-! ### Directives -/

section Resolving

variable {resolve resolve' : Path → Option Path}

theorem lookedUp_congr {dir : Path} (h : resolve dir = resolve' dir) :
    lookedUp resolve dir = lookedUp resolve' dir := by
  unfold lookedUp
  rw [h]

theorem includeCode_congr {target : List Char}
    (h : resolve (splitTarget target).1 = resolve' (splitTarget target).1) :
    includeCode resolve target = includeCode resolve' target := by
  unfold includeCode
  dsimp only
  rw [lookedUp_congr h]

theorem targetCode_congr (unload : Bool) {target : List Char}
    (attributes : Assoc (List Char) (List Char))
    (h : isRemote target = false →
      resolve (splitTarget target).1 = resolve' (splitTarget target).1) :
    targetCode resolve unload target attributes = targetCode resolve' unload target attributes := by
  unfold targetCode
  dsimp only
  cases hremote : isRemote target with
  | true => rfl
  | false => rw [lookedUp_congr (h hremote)]

/-- The code of a directive depends on its directory part alone. -/
theorem Directive.code_congr (d : Directive)
    (h : ∀ dir, d.declared? = some dir → resolve dir = resolve' dir) :
    d.code resolve = d.code resolve' := by
  cases d with
  | echo _ => rfl
  | raw _ => rfl
  | control _ _ => rfl
  | resource verb argument attributes =>
    unfold Directive.declared? at h
    unfold Directive.code resourceCode
    dsimp only at h ⊢
    generalize argument.or (Assoc.get? attributes "target".toList) = target at h ⊢
    rcases target with _ | _ | ⟨c, cs⟩
    · rfl
    · rfl
    · have htarget (hverb : verb ≠ .includeTemplate) (hplugin : verb ≠ .loadPlugin)
          (hremote : isRemote (c :: cs) = false) :
          resolve (splitTarget (c :: cs)).1 = resolve' (splitTarget (c :: cs)).1 := by
        apply h
        cases verb <;> first | contradiction | simp [hremote]
      cases verb with
      | includeTemplate => exact includeCode_congr (h _ rfl)
      | loadPlugin => rfl
      | unloadFile => exact targetCode_congr true attributes (htarget nofun nofun)
      | importFile => exact targetCode_congr false attributes (htarget nofun nofun)
      | loadFile => exact targetCode_congr false attributes (htarget nofun nofun)

theorem Directive.codeUnder_congr {d : Directive} (h : d.code resolve = d.code resolve')
    (verdict : Option Imbalance) : d.codeUnder resolve verdict = d.codeUnder resolve' verdict := by
  cases verdict with
  | none => exact h
  | some _ => rfl

theorem expandPieces_congr {pieces : List (Piece Construct)}
    (h : ∀ d, Construct.directive d ∈ pieces.filterMap Piece.value? →
      d.code resolve = d.code resolve') (offset : Nat) (verdicts : List (Option Imbalance)) :
    expandPieces resolve offset pieces verdicts = expandPieces resolve' offset pieces verdicts := by
  induction pieces generalizing offset verdicts with
  | nil => rfl
  | cons piece rest ih =>
    have hrest := ih fun d hd => h d (by
      rw [List.filterMap_cons]
      cases piece.value? <;> simp [hd])
    rcases piece with c | ⟨construct, source⟩
    · simp only [expandPieces, hrest]
    · cases construct with
      | island => simp only [expandPieces, hrest]
      | directive d =>
        have hd := Directive.codeUnder_congr (h d (by simp [Piece.value?]))
        simp only [expandPieces, hrest, hd]

theorem compileDirectives_congr {cs : List Char}
    (h : ∀ dir ∈ declaredDirs cs, resolve dir = resolve' dir) :
    compileDirectives resolve cs = compileDirectives resolve' cs := by
  apply expandPieces_congr
  intro d hd
  apply d.code_congr
  intro dir hdir
  apply h
  unfold declaredDirs
  rw [List.mem_filterMap]
  refine ⟨d, ?_, hdir⟩
  rw [List.mem_filterMap]
  exact ⟨.directive d, hd, rfl⟩

end Resolving

/-! ### Compilations -/

theorem FileTree.resolveDir?_congr {t t' : FileTree} {root template declared : Path}
    (h : ∀ q ∈ lookups root template declared, t.canonical? q = t'.canonical? q) :
    t.resolveDir? root template declared = t'.resolveDir? root template declared := by
  unfold lookups at h
  unfold FileTree.resolveDir?
  cases hdir : Path.parent? template with
  | none => rfl
  | some dir =>
    rw [hdir] at h
    simp only [Option.bind_some]
    dsimp only at h
    generalize trim declared = declared at h ⊢
    by_cases hown : (declared.isEmpty || declared == ['.']) = true
    · rw [if_pos hown, if_pos hown]
    · rw [if_neg hown] at h
      rw [if_neg hown, if_neg hown]
      congr 1
      unfold FileTree.lookupDir?
      split
      · rename_i rooted
        rw [h (root.join rooted) (by simp), h ('/' :: rooted) (by simp)]
      · rename_i hrelative
        split at h
        · exact absurd rfl (hrelative _)
        · rw [h (dir.join declared) (by simp)]
          congr 1
          cases hrest : afterOverlap declared dir with
          | none => rfl
          | some rest => exact h (dir.join rest) (by simp [hrest])

/-- **A compilation depends on the files only through the paths that it looks up.** -/
theorem Compiler.compile_congr (c : Compiler) {t t' : FileTree} {path : Path}
    {webPath source : List Char}
    (h : ∀ q ∈ c.lookups path webPath source, t.canonical? q = t'.canonical? q) :
    c.compile t path webPath source = c.compile t' path webPath source := by
  have hexpand : compileDirectives (t.resolveDir? c.root path)
      (compileScopes (prepared webPath source)).1 =
      compileDirectives (t'.resolveDir? c.root path)
        (compileScopes (prepared webPath source)).1 := by
    apply compileDirectives_congr
    intro dir hdir
    apply FileTree.resolveDir?_congr
    intro q hq
    exact h q (List.mem_flatMap.mpr ⟨dir, hdir, hq⟩)
  unfold Compiler.compile
  dsimp only
  rw [hexpand]

end Stencil
