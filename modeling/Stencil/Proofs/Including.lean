import Stencil.Markup.Directive.Expand
import Stencil.Proofs.Caching.Stores
import Stencil.Proofs.Caching.Trees
import Stencil.Proofs.Relating
import Stencil.Proofs.Relative
import Stencil.Proofs.Spelling

/-!
# Included templates

The code of an include names the directory of its target relative to the root, and the program looks
the file up there when it runs.  Where the name leads back to the directory, that is the directory
that was found when the template was compiled.

## Main definitions

* `FileTree.resolved?` — the directory that a template names, as it was found.
* `includeCall` — the call of an include.
* `Handler.includedFrom` — what an include gives of a file in a directory.
* `Handler.IncludesFrom` — the code that includes a file of a directory.

## Main results

* `yields_include` — the statement of an include.
* `Template.find_join_here` — templates are found in the root with a point behind it and without.
* `Handler.render_host` — a host looks included files up in directories taken from the root.
* `include_looks_in_directory` — **an include looks its file up in the directory that was found.**
-/

namespace Stencil

open Text Lexer Stencil.Parser FileTree

/-! ### The call -/

section Calls

variable {rest : List Char} {us r : List Token} {stop : Stop} {K : List Stmt} {dir file : List Char}

/-- The call that includes a file of a directory. -/
def includeCall (dir file : List Char) : Expr :=
  .call "include" [.literal (.string (String.ofList dir)), .literal (.string (String.ofList file))]

/-- The code of the call, written out. -/
def includeText (dir file : List Char) : List Char :=
  "echo include(".toList ++ quoteLiteral dir ++ ", ".toList ++ quoteLiteral file ++ [')']

theorem spells_include (dir file : List Char) :
    Spells (includeText dir file) (.word "echo" :: (includeCall dir file).tokens) := by
  have hecho : Spells "echo".toList [.word "echo"] := spells_name (.name ⟨by decide, by decide⟩)
  have hinclude : Spells "include".toList [.word "include"] :=
    spells_name (.name ⟨by decide, by decide⟩)
  intro rest us hr hus
  -- from right to left, as every token depends on what follows it
  have hread := reads_quoted file (hus.own (c := ')') rfl)
  replace hread := ((reads_blank (c := ' ') (by decide)).mpr hread).own (c := ',') rfl
  replace hread := (reads_quoted dir hread).own (c := '(') rfl
  replace hread := hinclude (apart_cons (by decide)) hread
  replace hread := (reads_blank (c := ' ') (by decide)).mpr hread
  replace hread := hecho (apart_cons (by decide)) hread
  have htext : includeText dir file ++ rest = "echo".toList ++ ' ' :: ("include".toList ++
      '(' :: (quoteLiteral dir ++ ',' :: ' ' :: (quoteLiteral file ++ ')' :: rest))) := by
    unfold includeText
    simp only [List.append_assoc]
    rfl
  rw [htext]
  exact hread

/-- **The statement of an include**, wherever its island stands. -/
theorem yields_include (dir file : List Char) (h : Yields stop rest K r) :
    Yields stop (island (includeText dir file) ++ rest) (.echo [includeCall dir file] :: K) r := by
  obtain ⟨us, hus, hK⟩ := h.reads
  have hprintable : (includeCall dir file).Printable :=
    ⟨.name ⟨by decide, by decide⟩, by decide, trivial, trivial, trivial⟩
  exact yields_of_island ((spells_include dir file).reads_island hus) (gives_echo hprintable hK) rfl

/-- A program that includes a file writes what its host makes of it. -/
theorem run_include {σ : Type} (host : Host σ) (name : String) (context : Context) (s : σ) :
    (Program.mk name [.echo [includeCall dir file]]).run host context s =
      host.render (String.ofList dir) (String.ofList file) context s := by
  have hcall : (includeCall dir file).eval host =
      Run.render host (String.ofList dir) (String.ofList file) := rfl
  rw [Program.run]
  simp only [execBlock, Stmt.exec, echoAll, hcall, bind_eq, render_eq]
  generalize host.render (String.ofList dir) (String.ofList file) context s = x
  obtain ⟨_ | out, after, s'⟩ := x
  · rfl
  · show (Except.ok ("" ++ out), after, s') = _
    rw [String.empty_append]

end Calls

/-! ### The directory of a target -/

/-- The directory that a declared path stands for in a template, as it is found: the template's own
one, or the one that is looked up. -/
def FileTree.resolved? (t : FileTree) (root template declared : Path) : Option Path :=
  (Path.parent? template).bind fun dir =>
    if (trim declared).isEmpty || trim declared == ['.'] then some dir
    else t.lookupDir? root dir (trim declared)

theorem FileTree.resolveDir?_eq (t : FileTree) (root template declared : Path) :
    t.resolveDir? root template declared =
      (t.resolved? root template declared).map (relativeToRoot root) := by
  unfold resolveDir? resolved?
  cases Path.parent? template with
  | none => rfl
  | some dir =>
    dsimp only [Option.bind_some]
    split <;> rfl

/-- The code of an include of a directory that was found. -/
theorem code_include {t : FileTree} {root template : Path} {argument : Option (List Char)}
    {attributes : Assoc (List Char) (List Char)} {target : List Char} {dir : Path}
    (htarget : argument.or (Assoc.get? attributes "target".toList) = some target)
    (hne : target ≠ []) (hdir : t.resolved? root template (splitTarget target).1 = some dir) :
    (Directive.resource .includeTemplate argument attributes).code (t.resolveDir? root template) =
      .ok (island (includeText (relativeToRoot root dir) (splitTarget target).2)) := by
  obtain ⟨c, cs, rfl⟩ := List.exists_cons_of_ne_nil hne
  have hresolve := t.resolveDir?_eq root template (splitTarget (c :: cs)).1
  rw [hdir, Option.map_some] at hresolve
  rw [Directive.code, resourceCode, htarget]
  dsimp only
  unfold includeCode lookedUp
  simp only [hresolve]
  rfl

/-! ### Looking up at render time -/

section Looking

variable {a b : List Segment} {t : FileTree}

/-- A point changes nothing for the segments behind it. -/
theorem follow_here (t : FileTree) (names : List Segment) {segs : List Segment} (h : segs ≠ []) :
    t.follow names (['.'] :: segs) = t.follow names segs := by
  obtain ⟨s, segs, rfl⟩ := List.exists_cons_of_ne_nil h
  have hidle : Path.isIdle ['.'] = true := rfl
  by_cases hdir : t.isDirAt names = true
  · rw [follow, if_pos hdir, if_pos hidle]
  · rw [follow, if_neg hdir, follow, if_neg hdir]

/-- A path taken from the root leads to the same names whether a point stands between or not. -/
theorem names?_join_here (ha : ∀ s ∈ a, IsFileName s) (t : FileTree) (q : Path) :
    t.names? (((pathOf a).join ['.']).join q) = t.names? ((pathOf a).join q) := by
  by_cases hq : Path.isAbsolute q = true
  · rw [Path.join, if_pos hq, Path.join, if_pos hq]
  · rw [Bool.not_eq_true] at hq
    have hpoint : ((pathOf a).join ['.']).join q = (pathOf a).join ('.' :: '/' :: q) := by
      rw [join_pathOf ha rfl, join_pathOf ha rfl, Path.join, hq, if_neg Bool.false_ne_true]
      have hopen : ∀ cs : List Char,
          ¬ ((cs ++ ['.']).isEmpty || (cs ++ ['.']).getLast? == some '/') = true := by simp
      split
      next => exact if_neg (hopen ['/'])
      next =>
        have hjoin := hopen ('/' :: (Path.joinSegments a ++ ['/']))
        rw [List.cons_append, List.append_assoc] at hjoin
        refine (if_neg hjoin).trans ?_
        simp
    rw [hpoint, names?_of_isAbsolute t (Path.isAbsolute_join rfl _),
      names?_of_isAbsolute t (Path.isAbsolute_join rfl _), split_join_pathOf ha rfl,
      split_join_pathOf ha hq]
    dsimp only
    have hsplit : splitText ['/'] ('.' :: '/' :: q) = ['.'] :: splitText ['/'] q :=
      splitText_join '/' ['.'] q
    rw [hsplit, follow_append, follow_append]
    congr 1
    funext names
    exact follow_here t names (splitText_ne_nil '/' q)

/-- **Templates are found** in the root and in the root with a point behind it alike. -/
theorem Template.find_join_here (ha : ∀ s ∈ a, IsFileName s) (numbering : Numbering)
    (config : Config) (root : Path) (t : FileTree) (file : List Char) :
    (∃ u, Template.find numbering config root t ((pathOf a).join ['.']) file = .ok u ∧
        Template.find numbering config root t (pathOf a) file = .ok u) ∨
      ∃ p q, Template.find numbering config root t ((pathOf a).join ['.']) file =
          .error (.sourceNotFound p) ∧
        Template.find numbering config root t (pathOf a) file = .error (.sourceNotFound q) := by
  have hfound : ∀ q, t.canonical? (((pathOf a).join ['.']).join q) =
      t.canonical? ((pathOf a).join q) := by
    intro q
    rw [canonical?, canonical?, names?_join_here ha]
  have hfile : ∀ q, t.isFile (((pathOf a).join ['.']).join q) = t.isFile ((pathOf a).join q) := by
    intro q
    rw [isFile, isFile, find?, find?, names?_join_here ha]
  -- the same file name is chosen in both
  obtain ⟨q, hq, hq'⟩ : ∃ q,
      Template.candidate t config.extension ((pathOf a).join ['.']) file =
          ((pathOf a).join ['.']).join q ∧
        Template.candidate t config.extension (pathOf a) file = (pathOf a).join q := by
    rw [Template.candidate, Template.candidate, hfile, hfile]
    split
    · exact ⟨_, rfl, rfl⟩
    · exact ⟨_, rfl, rfl⟩
  rw [Template.find, Template.find, hq, hq', hfound]
  cases t.canonical? ((pathOf a).join q) with
  | none => exact .inr ⟨_, _, rfl, rfl⟩
  | some found =>
    dsimp only
    split
    · exact .inl ⟨_, rfl, rfl⟩
    · exact .inr ⟨_, _, rfl, rfl⟩

end Looking

namespace Handler

/-- What an include at a depth gives of a file that is looked up in a directory: the rendered
template, and nothing when there is none. -/
def includedFrom (h : Handler) (left depth : Nat) (dir : Path) (file : List Char) (ctx : Context)
    (w : World) : Except TemplateError String × Context × World :=
  match Template.find h.numbering h.config h.root w.tree dir file with
  | .ok u => h.renderUnit (h.host left (depth + 1)) false u ctx w
  | .error (.sourceNotFound _) => (.ok "", ctx, w)
  | .error e => (.error e, ctx, w)

/-- A host looks included files up in directories that are taken from the root. -/
theorem render_host (h : Handler) (left depth : Nat) (dir file : String) (ctx : Context)
    (w : World) :
    (h.host (left + 1) depth).render dir file ctx w =
      h.includedFrom left depth (h.root.join dir.toList) file.toList ctx w := by
  have htree : h.cached.tree w = w.tree := rfl
  rw [includeOver_cached, includeOver, includedFrom, htree, find]
  cases Template.find h.numbering h.config h.root w.tree (h.root.join dir.toList) file.toList with
  | ok u => exact renderUnitOver_cached h _ false u ctx w
  | error e => cases e <;> rfl

/-- The root is one directory, with a point behind it and without. -/
theorem includedFrom_named {a b : List Segment} (h : Handler) (ha : ∀ s ∈ a, IsFileName s)
    (left depth : Nat) (file : List Char) (ctx : Context) (w : World) :
    h.includedFrom left depth (if b = a then (pathOf a).join ['.'] else pathOf b) file ctx w =
      h.includedFrom left depth (pathOf b) file ctx w := by
  split
  next heq =>
    subst heq
    obtain ⟨u, hpoint, hplain⟩ | ⟨p, q, hpoint, hplain⟩ :=
      Template.find_join_here ha h.numbering h.config h.root w.tree file
    all_goals rw [includedFrom, includedFrom, hpoint, hplain]
  next => rfl

/-- Code that includes a file of a directory: it parses, and its runs give what an include gives of
the file, as long as a deeper level is allowed. -/
def IncludesFrom (h : Handler) (code : List Char) (dir : Path) (file : List Char) : Prop :=
  ∀ name, ∃ program, parseProgram name code = .ok program ∧
    ∀ left depth ctx w, program.run (h.host (left + 1) depth) ctx w =
      h.includedFrom left depth dir file ctx w

theorem includesFrom_island {h : Handler} {a b : List Segment} (hroot : h.root = pathOf a)
    (ha : ∀ s ∈ a, IsFileName s) (hb : ∀ s ∈ b, IsFileName s) (hreturns : Returns a b)
    (file : List Char) :
    h.IncludesFrom (island (includeText (relativeToRoot h.root (pathOf b)) file)) (pathOf b)
      file := by
  intro name
  have hyields := yields_include (relativeToRoot h.root (pathOf b)) file Yields.nil
  rw [List.append_nil] at hyields
  refine ⟨_, parseProgram_of_yields name hyields, fun left depth ctx w => ?_⟩
  rw [run_include, render_host, String.toList_ofList, String.toList_ofList, hroot,
    join_relativeToRoot ha hb hreturns, h.includedFrom_named ha]

end Handler

/-! ### Where includes look -/

section Where

variable {a b : List Segment}

theorem canonical?_join_relativeToRoot (ha : ∀ s ∈ a, IsFileName s) (hb : ∀ s ∈ b, IsFileName s)
    (h : Returns a b) {t : FileTree} (hdir : t.isDirAt b = true)
    (hfound : t.canonical? (pathOf b) = some (pathOf b)) :
    t.canonical? ((pathOf a).join (relativeToRoot (pathOf a) (pathOf b))) = some (pathOf b) := by
  rw [join_relativeToRoot ha hb h]
  split
  next heq =>
    subst heq
    obtain ⟨names, hnames, -⟩ := Option.map_eq_some_iff.mp hfound
    obtain rfl : names = b :=
      (names?_eq_target_of_isAbsolute rfl hnames).trans (target_pathOf hb)
    have hpoint : t.follow names [['.']] = some names := by
      have hidle : Path.isIdle ['.'] = true := rfl
      rw [follow, if_pos hdir, if_pos hidle, follow]
    have hfollow : t.follow [] names = some names := by
      rw [t.names?_of_isAbsolute rfl, split_pathOf hb] at hnames
      split at hnames
      next hnil =>
        subst hnil
        rfl
      next => exact hnames
    rw [canonical?, t.names?_of_isAbsolute (Path.isAbsolute_join rfl _), split_join_pathOf hb rfl]
    dsimp only
    have hsplit : splitText ['/'] ['.'] = [['.']] := splitText_of_notMem (by decide)
    rw [hsplit, follow_append, hfollow, Option.bind_some, hpoint, Option.map_some]
  next => exact hfound

/-- **An include looks its file up in the directory that was found.**  The root, joined with the
name of a directory, leads back to the directory exactly when the segments of the name stay.  Then
it is the same directory in every tree that has it, a point stands for the root, and whatever target
a template declares: when its directory is found there, the code of the include parses, and includes
the file of that directory. -/
theorem include_looks_in_directory (ha : ∀ s ∈ a, IsFileName s) (hb : ∀ s ∈ b, IsFileName s) :
    (Returns a b ↔
      ((pathOf a).join (relativeToRoot (pathOf a) (pathOf b))).target [] = b) ∧
    (b = a → relativeToRoot (pathOf a) (pathOf b) = ['.']) ∧
    (Returns a b →
      (∀ t : FileTree, t.isDirAt b = true → t.canonical? (pathOf b) = some (pathOf b) →
        t.canonical? ((pathOf a).join (relativeToRoot (pathOf a) (pathOf b))) =
          some (pathOf b)) ∧
      ∀ (h : Handler) (t : FileTree) (template : Path) (argument : Option (List Char))
        (attributes : Assoc (List Char) (List Char)) (target : List Char),
        h.root = pathOf a →
        argument.or (Assoc.get? attributes "target".toList) = some target → target ≠ [] →
        t.resolved? h.root template (splitTarget target).1 = some (pathOf b) →
        ∃ code, (Directive.resource .includeTemplate argument attributes).code
            (t.resolveDir? h.root template) = .ok code ∧
          h.IncludesFrom code (pathOf b) (splitTarget target).2) := by
  refine ⟨returns_iff ha hb, ?_, fun hreturns => ⟨fun t hdir hfound => ?_, ?_⟩⟩
  · rintro rfl
    exact relativeToRoot_self ha
  · exact canonical?_join_relativeToRoot ha hb hreturns hdir hfound
  · intro h t template argument attributes target hroot htarget hne hfound
    exact ⟨_, code_include htarget hne hfound, Handler.includesFrom_island hroot ha hb hreturns _⟩

/-- The files of two pages in directories side by side, the first of which includes the second. -/
def sharedFiles : FileTree where
  nodes := [(["app".toList], .dir), (["app".toList, "sub".toList], .dir),
    (["app".toList, "shared.v2".toList], .dir),
    (["app".toList, "sub".toList, "t.html".toList],
      .file (.text "<include target=\x22../shared.v2/x.html\x22 />".toList) 0),
    (["app".toList, "shared.v2".toList, "x.html".toList], .file (.text ['X']) 0)]

/-- Their application. -/
def sharedHandler : Handler := { config := {}, root := pathOf ["app".toList] }

/-- The second page is looked up where it was found. -/
theorem include_looks_in_directory_shared :
    (∀ s ∈ ["app".toList, "shared.v2".toList], IsFileName s) ∧
      Returns ["app".toList] ["app".toList, "shared.v2".toList] ∧
      sharedFiles.resolved? sharedHandler.root "/app/sub/t.html".toList "../shared.v2".toList =
        some "/app/shared.v2".toList ∧
      ∃ code, (Directive.resource .includeTemplate none
            [("target".toList, "../shared.v2/x.html".toList)]).code
          (sharedFiles.resolveDir? sharedHandler.root "/app/sub/t.html".toList) = .ok code ∧
        sharedHandler.IncludesFrom code "/app/shared.v2".toList "x.html".toList := by
  have hroot : ∀ s ∈ ["app".toList], IsFileName s := by decide +kernel
  have hnames : ∀ s ∈ ["app".toList, "shared.v2".toList], IsFileName s := by decide +kernel
  have hreturns : Returns ["app".toList] ["app".toList, "shared.v2".toList] := by decide +kernel
  have hfound : sharedFiles.resolved? sharedHandler.root "/app/sub/t.html".toList
      "../shared.v2".toList = some "/app/shared.v2".toList := by decide +kernel
  exact ⟨hnames, hreturns, hfound,
    ((include_looks_in_directory hroot hnames).2.2 hreturns).2 sharedHandler sharedFiles
      "/app/sub/t.html".toList none [("target".toList, "../shared.v2/x.html".toList)]
      "../shared.v2/x.html".toList rfl (by decide +kernel) (by decide +kernel) hfound⟩

/-- An application with a directory in a directory `a.`. -/
def pointFiles : FileTree where
  nodes := [(["app".toList], .dir), (["app".toList, "a.".toList], .dir),
    (["app".toList, "a.".toList, "b".toList], .dir)]

/-- The point in front of the slash is left out, and the include looks for a directory `ab`. -/
theorem pointed_directory_lost :
    (∀ s ∈ ["app".toList, "a.".toList, "b".toList], IsFileName s) ∧
      pointFiles.resolved? "/app".toList "/app/t.html".toList "a./b".toList =
        some (pathOf ["app".toList, "a.".toList, "b".toList]) ∧
      ((pathOf ["app".toList]).join (relativeToRoot (pathOf ["app".toList])
        (pathOf ["app".toList, "a.".toList, "b".toList]))).target [] =
          ["app".toList, "ab".toList] ∧
      pointFiles.canonical? ((pathOf ["app".toList]).join (relativeToRoot (pathOf ["app".toList])
        (pathOf ["app".toList, "a.".toList, "b".toList]))) = none := by
  decide +kernel

end Where

end Stencil
