import Mathlib.Data.List.Nodup
import Stencil.Markup.Directive.Expand
import Stencil.Proofs.Spelling
import Stencil.Script.Eval

/-!
# Resources from the directive to the queue

The code of a directive about a script or a style sheet is one call with a map of texts.  The texts
are quoted in the code, read back by the lexer as they were, and looked up again in the map, so that
the request of the program is that of the directive.

## Main definitions

* `Field`, `givenFields` — the fields of a call, and the attributes that it passes on.
* `resolvedTarget?` — the file that a directive asks for.
* `ResourceVerb.event`, `ResourceVerb.marker` — what a directive asks its host for, and what it
  writes.

## Main results

* `reads_callWithFields` — the tokens of a call with fields.
* `ofMap?_requestEntries` — the request of the fields.
* `run_resource` — **the program of a directive asks for exactly what the directive says**.
-/

namespace Stencil

open Text Lexer Stencil.Parser

/-! ### The code of a call -/

section Calls

variable {rest : List Char} {us r : List Token} {stop : Stop} {K : List Stmt}

/-- A name and its value, as they stand in a call. -/
abbrev Field := List Char × List Char

/-- The code of a field. -/
def fieldText (f : Field) : List Char := quoteLiteral f.1 ++ " => ".toList ++ quoteLiteral f.2

/-- The item of a field. -/
def fieldItem (f : Field) : Item :=
  .keyed (.literal (.string (String.ofList f.1))) (.literal (.string (String.ofList f.2)))

/-- The value of an attribute, empty when there is none. -/
def attributeText (attributes : Assoc (List Char) (List Char)) (name : String) : List Char :=
  (Assoc.get? attributes name.toList).getD []

/-- The attributes of the given names that have a value. -/
def givenFields (attributes : Assoc (List Char) (List Char)) (names : List String) : List Field :=
  names.filterMap fun name =>
    if attributeText attributes name = [] then none
    else some (name.toList, attributeText attributes name)

/-- The fields behind the first one. -/
def moreFields (fs : List Field) : List Char := fs.flatMap fun f => ", ".toList ++ fieldText f

theorem moreFields_givenFields (attributes : Assoc (List Char) (List Char)) (names : List String) :
    moreFields (givenFields attributes names) = names.flatMap fun name =>
      match Assoc.get? attributes name.toList with
      | some (c :: cs) =>
        ", ".toList ++ quoteLiteral name.toList ++ " => ".toList ++ quoteLiteral (c :: cs)
      | _ => [] := by
  induction names with
  | nil => rfl
  | cons name names ih =>
    rw [List.flatMap_cons, ← ih, givenFields, List.filterMap_cons, attributeText]
    match Assoc.get? attributes name.toList with
    | none => rfl
    | some [] => rfl
    | some (c :: cs) =>
      simp [moreFields, fieldText, givenFields]

theorem resourceFields_eq (target : List Char) (attributes : Assoc (List Char) (List Char))
    (names : List String) :
    resourceFields target attributes names =
      fieldText ("target".toList, target) ++ moreFields (givenFields attributes names) := by
  rw [moreFields_givenFields]
  rfl

theorem reads_bracket {c : Char} {s : Sign}
    (hc : (c = '[' ∧ s = .bracketOpen) ∨ (c = ']' ∧ s = .bracketClose)) (h : Reads .code rest us) :
    Reads .code (c :: rest) (.sign s :: us) := by
  obtain ⟨rfl, rfl⟩ | ⟨rfl, rfl⟩ := hc
  · have hs : step .code '[' rest =
        .ok { token := some (.sign .bracketOpen), width := 1, mode := .code } := rfl
    exact Reads.of_step hs h
  · have hs : step .code ']' rest =
        .ok { token := some (.sign .bracketClose), width := 1, mode := .code } := rfl
    exact Reads.of_step hs h

theorem reads_field (f : Field) (h : Reads .code rest us) :
    Reads .code (fieldText f ++ rest) ((fieldItem f).tokens ++ us) := by
  have harrow : Reads .code ("=>".toList ++ ' ' :: (quoteLiteral f.2 ++ rest))
      ([.sign .fatArrow] ++ .string (String.ofList f.2) :: us) :=
    spells_sign .fatArrow (apart_cons (by decide))
      ((reads_blank (by decide)).mpr (reads_quoted f.2 h))
  have hkey := reads_quoted f.1 ((reads_blank (c := ' ') (by decide)).mpr harrow)
  have htext : fieldText f ++ rest =
      quoteLiteral f.1 ++ ' ' :: ("=>".toList ++ ' ' :: (quoteLiteral f.2 ++ rest)) := by
    simp [fieldText]
  rw [htext]
  exact hkey

theorem reads_moreFields (fs : List Field) (h : Reads .code rest us) :
    Reads .code (moreFields fs ++ rest) (moreItemTokens (fs.map fieldItem) ++ us) := by
  induction fs with
  | nil => exact h
  | cons f fs ih =>
    have hfield := ((reads_blank (c := ' ') (by decide)).mpr (reads_field f ih)).own
      (c := ',') rfl
    have htext : moreFields (f :: fs) ++ rest =
        ',' :: ' ' :: (fieldText f ++ (moreFields fs ++ rest)) := by
      simp [moreFields]
    rw [htext]
    simpa only [List.map_cons, moreItemTokens, List.cons_append, List.append_assoc] using hfield

/-- The call that a map of fields is passed to. -/
def fieldCall (function : String) (fs : List Field) : Expr :=
  .call function [.array (fs.map fieldItem)]

/-- The tokens of a call with fields. -/
theorem reads_callWithFields {function : String} (hname : IsQualified function.toList)
    (f : Field) (fs : List Field) (h : Reads .text rest us) :
    Reads .text (callWithFields function.toList (fieldText f ++ moreFields fs) ++ rest)
      ((fieldCall function (f :: fs)).tokens ++ .terminator :: .terminator :: us) := by
  have hclose : Reads .code (' ' :: closeTag ++ rest) (.terminator :: us) := by
    rw [List.cons_append, reads_blank (by decide), reads_closeTag]
    exact ⟨us, rfl, h⟩
  have hend := reads_bracket (c := ']') (.inr ⟨rfl, rfl⟩)
    ((hclose.own (c := ';') rfl).own (c := ')') rfl)
  have hfields := reads_field f (reads_moreFields fs hend)
  have hopen := (reads_bracket (c := '[') (.inl ⟨rfl, rfl⟩) hfields).own (c := '(') rfl
  have hcall := spells_name hname (apart_cons (by decide)) hopen
  rw [callWithFields, reads_island]
  have htext : function.toList ++ "([".toList ++ (fieldText f ++ moreFields fs) ++ "]);".toList ++
      (' ' :: closeTag ++ rest) = function.toList ++ '(' :: '[' ::
        (fieldText f ++ (moreFields fs ++ ']' :: ')' :: ';' :: (' ' :: closeTag ++ rest))) := by
    simp
  rw [htext]
  simpa only [fieldCall, Expr.tokens, listTokens, moreTokens, itemTokens, List.map_cons,
    List.append_nil, List.cons_append, List.nil_append, List.append_assoc] using hcall

theorem printable_fieldItems (fs : List Field) : AllItemsPrintable (fs.map fieldItem) := by
  induction fs with
  | nil => trivial
  | cons f fs ih => exact ⟨⟨trivial, trivial⟩, ih⟩

/-- What an island with a call gives. -/
theorem yields_callWithFields {function : String} (hname : IsQualified function.toList)
    (hreserved : isReserved function = false) (hword : function ∉ statementWords)
    (f : Field) (fs : List Field) (h : Yields stop rest K r) :
    Yields stop (callWithFields function.toList (fieldText f ++ moreFields fs) ++ rest)
      (.expr (fieldCall function (f :: fs)) :: K) r := by
  obtain ⟨us, hus, hK⟩ := h.reads
  have hprintable : (fieldCall function (f :: fs)).Printable :=
    ⟨hname, hreserved, printable_fieldItems (f :: fs), trivial⟩
  exact yields_of_island (reads_callWithFields hname f fs hus)
    (gives_expr hprintable rfl hword (gives_terminator hK)) rfl

end Calls

/-! ### What the call is given -/

section Values

variable {σ : Type} {host : Host σ} {attributes : Assoc (List Char) (List Char)}
  {names : List String} {name : String} {target : List Char}

/-- The entries of the map that a call is given. -/
def fieldEntries (fs : List Field) : Assoc String Value :=
  fs.map fun f => (String.ofList f.1, .string (String.ofList f.2))

theorem evalItems_fieldItems (fs : List Field) :
    evalItems host (fs.map fieldItem) = (pure (fs.map fun f =>
      (some (.string (String.ofList f.1)), .string (String.ofList f.2))) : Run σ _) := by
  induction fs with
  | nil => rw [List.map_nil, evalItems, List.map_nil]
  | cons f fs ih =>
    rw [List.map_cons, fieldItem, evalItems, Expr.eval, Expr.eval, ih]
    rfl

theorem keyedItems_fields (n : Int) (fs : List Field) :
    Value.keyedItems n (fs.map fun f =>
      (some (.string (String.ofList f.1)), .string (String.ofList f.2))) = fieldEntries fs := by
  induction fs generalizing n with
  | nil => rfl
  | cons f fs ih => exact congrArg (_ :: ·) (ih n)

/-- A call with fields of different names is given their map. -/
theorem eval_fieldCall {function : String} {f : Field} {fs : List Field}
    (h : ((f :: fs).map Prod.fst).Nodup) :
    (fieldCall function (f :: fs)).eval host =
      host.call function [.map (fieldEntries (f :: fs))] := by
  have hkeys : (Assoc.keys (fieldEntries (f :: fs))).Nodup := by
    have hmap : Assoc.keys (fieldEntries (f :: fs)) =
        ((f :: fs).map Prod.fst).map String.ofList := by
      simp [Assoc.keys, fieldEntries]
    rw [hmap]
    exact List.Nodup.map (fun _ _ => String.ofList_injective) h
  have hvalue : Value.ofItems ((f :: fs).map fun f =>
      (some (.string (String.ofList f.1)), .string (String.ofList f.2))) =
        .map (fieldEntries (f :: fs)) := by
    show Value.map (Assoc.ofList (Value.keyedItems 0 _)) = _
    rw [keyedItems_fields, Assoc.ofList_of_nodup hkeys]
  have harray : (Expr.array ((f :: fs).map fieldItem)).eval host =
      (pure (.map (fieldEntries (f :: fs))) : Run σ Value) := by
    rw [Expr.eval, evalItems_fieldItems, ← hvalue]
    rfl
  rw [fieldCall, Expr.eval, evalAll, evalAll, harray]
  rfl

theorem get?_givenFields : Assoc.get? (fieldEntries (givenFields attributes names)) name =
    if name ∈ names ∧ attributeText attributes name ≠ [] then
      some (.string (String.ofList (attributeText attributes name)))
    else none := by
  induction names with
  | nil => simp [givenFields, fieldEntries]
  | cons n names ih =>
    have hcons : givenFields attributes (n :: names) =
        if attributeText attributes n = [] then givenFields attributes names
        else (n.toList, attributeText attributes n) :: givenFields attributes names := by
      rw [givenFields, List.filterMap_cons]
      split_ifs <;> rfl
    rw [hcons]
    by_cases htext : attributeText attributes n = []
    · rw [if_pos htext, ih]
      refine if_congr (and_congr_left fun hne => ?_) rfl rfl
      have hn : name ≠ n := fun heq => hne (heq ▸ htext)
      simp [hn]
    · rw [if_neg htext]
      show (if String.ofList n.toList = name then _ else Assoc.get? (fieldEntries _) name) = _
      rw [String.ofList_toList, ih]
      by_cases hn : n = name
      · subst hn
        simp [htext]
      · simp [hn, Ne.symm hn]

/-- The texts of the entries are those of the attributes. -/
theorem entryText_givenFields (h : name ∈ names) :
    entryText (fieldEntries (givenFields attributes names)) name =
      String.ofList (attributeText attributes name) := by
  rw [entryText, get?_givenFields]
  by_cases htext : attributeText attributes name = []
  · simp [htext]
  · rw [if_pos ⟨h, htext⟩]
    rfl

/-- The request for a file with the attributes of a directive. -/
def ResourceRequest.ofAttributes (target : String) (attributes : Assoc (List Char) (List Char)) :
    ResourceRequest :=
  let text := fun name => String.ofList (attributeText attributes name)
  { kind := .ofTarget target
    target
    placement := text (if ResourceKind.ofTarget target = .script then "type" else "media")
    targetIe := text "targetie"
    -- the place in the queue is a number, and there is none without the attribute
    index := if attributeText attributes "index" = [] then none
      else (Value.string (text "index")).toNumber?.map fun n => Number.truncate n.toFloat
    useCdn := saysYes (text "usecdn")
    cdnPrefix := text "cdnprefix"
    cdnVersion := text "cdnversion" }

/-- The attributes that a request to load a file passes on. -/
def loadNames (kind : ResourceKind) : List String :=
  [if kind = .script then "type" else "media", "targetie", "index", "usecdn", "cdnprefix",
    "cdnversion"]

/-- The entries of the map of a request. -/
def requestEntries (target : List Char) (attributes : Assoc (List Char) (List Char))
    (names : List String) : Assoc String Value :=
  fieldEntries (("target".toList, target) :: givenFields attributes names)

theorem entryText_target :
    entryText (requestEntries target attributes names) "target" = String.ofList target := rfl

theorem get?_requestEntries (hname : name ≠ "target") :
    Assoc.get? (requestEntries target attributes names) name =
      Assoc.get? (fieldEntries (givenFields attributes names)) name :=
  if_neg (Ne.symm hname)

theorem entryText_requestEntries (hname : name ≠ "target") (h : name ∈ names) :
    entryText (requestEntries target attributes names) name =
      String.ofList (attributeText attributes name) := by
  rw [← entryText_givenFields h, entryText, get?_requestEntries hname]
  rfl

/-- **The request of the fields is that of the attributes.** -/
theorem ofMap?_requestEntries (hne : target ≠ []) {kind : ResourceKind}
    (hkind : ResourceKind.ofTarget (String.ofList target) = kind) (hother : kind ≠ .other) :
    ResourceRequest.ofMap? (requestEntries target attributes (loadNames kind)) =
      some (.ofAttributes (String.ofList target) attributes) := by
  have htarget : String.ofList target ≠ "" := fun h => hne (by simpa using h)
  have hplacement : (if kind = .stylesheet then "media" else "type") =
      if kind = .script then "type" else "media" := by
    cases kind <;> first | rfl | exact absurd rfl hother
  have hfirst : entryText (requestEntries target attributes (loadNames kind))
      (if kind = .script then "type" else "media") =
        String.ofList (attributeText attributes (if kind = .script then "type" else "media")) := by
    refine entryText_requestEntries ?_ List.mem_cons_self
    split <;> decide
  have hindex : (Assoc.get? (requestEntries target attributes (loadNames kind)) "index").bind
      Value.toNumber? = if attributeText attributes "index" = [] then none
        else (Value.string (String.ofList (attributeText attributes "index"))).toNumber? := by
    rw [get?_requestEntries (by decide), get?_givenFields]
    by_cases htext : attributeText attributes "index" = []
    · simp [htext]
    · rw [if_pos ⟨by simp [loadNames], htext⟩, if_neg htext]
      rfl
  rw [ResourceRequest.ofMap?, ResourceRequest.ofAttributes]
  simp only [entryText_target, htarget, if_false, hkind, hplacement, hfirst, hindex]
  rw [entryText_requestEntries (by decide) (by simp [loadNames]),
    entryText_requestEntries (by decide) (by simp [loadNames]),
    entryText_requestEntries (by decide) (by simp [loadNames]),
    entryText_requestEntries (by decide) (by simp [loadNames])]
  split_ifs <;> rfl

end Values

/-! ### Targets -/

section Targets

variable {resolve : Path → Option Path} {a b t target : List Char} {c : Char}

/-- The file that a directive asks for: an address of another host as it is, and any other target in
the directory that was looked up. -/
def resolvedTarget? (resolve : Path → Option Path) (t : List Char) : Option (List Char) :=
  if isRemote t then some t
  else (resolve (splitTarget t).1).map fun dir => targetIn (splitTarget t).1 dir (splitTarget t).2

theorem breakLast_eq_some_iff {x y : List Char} :
    breakLast c b = some (x, y) ↔ b = x ++ c :: y ∧ c ∉ y := by
  constructor
  · intro h
    unfold breakLast at h
    split at h
    next => cases h
    next d before hdrop =>
      cases h
      have hd : d = c := by
        have hhead := List.head?_dropWhile_not (fun d => decide (d ≠ c)) b.reverse
        rw [hdrop, List.head?_cons] at hhead
        simpa using hhead
      have hsplit : b.reverse.takeWhile (· ≠ c) ++ d :: before = b.reverse := by
        rw [← hdrop, List.takeWhile_append_dropWhile]
      refine ⟨?_, fun hmem => ?_⟩
      · have h := congrArg List.reverse hsplit
        rw [List.reverse_reverse] at h
        rw [hd, List.reverse_append, List.reverse_cons, List.append_assoc] at h
        exact h.symm
      · have h := List.mem_takeWhile_imp (List.mem_reverse.mp hmem)
        simp at h
  · rintro ⟨rfl, hy⟩
    have hall : ∀ d ∈ y.reverse, decide (d ≠ c) = true := by
      intro d hd
      rw [decide_eq_true_eq]
      rintro rfl
      exact hy (List.mem_reverse.mp hd)
    have hrev : (x ++ c :: y).reverse = y.reverse ++ c :: x.reverse := by simp
    have hdrop : (x ++ c :: y).reverse.dropWhile (· ≠ c) = c :: x.reverse := by
      rw [hrev, List.dropWhile_append_of_pos hall, List.dropWhile_cons_of_neg (by simp)]
    have htake : (x ++ c :: y).reverse.takeWhile (· ≠ c) = y.reverse := by
      rw [hrev, List.takeWhile_append_of_pos hall, List.takeWhile_cons_of_neg (by simp),
        List.append_nil]
    rw [breakLast, hdrop, htake]
    simp

theorem breakLast_append {x y : List Char} (h : breakLast c b = some (x, y)) :
    breakLast c (a ++ b) = some (a ++ x, y) := by
  obtain ⟨rfl, hy⟩ := breakLast_eq_some_iff.mp h
  exact breakLast_eq_some_iff.mpr ⟨by rw [List.append_assoc], hy⟩

theorem exists_append_splitTarget (t : List Char) : ∃ a, t = a ++ (splitTarget t).2 := by
  unfold splitTarget
  split
  next name h => exact ⟨['/'], (breakLast_eq_some_iff.mp h).1⟩
  next dir name _ h => exact ⟨dir ++ ['/'], by simpa using (breakLast_eq_some_iff.mp h).1⟩
  next => exact ⟨[], rfl⟩

/-- The name of a target ends the file that is asked for. -/
theorem exists_append_resolvedTarget? (h : resolvedTarget? resolve t = some target) :
    ∃ a, target = a ++ (splitTarget t).2 := by
  unfold resolvedTarget? at h
  split at h
  · cases h
    exact exists_append_splitTarget _
  · obtain ⟨dir, -, rfl⟩ := Option.map_eq_some_iff.mp h
    unfold targetIn
    split_ifs
    · exact ⟨['/'], rfl⟩
    · exact ⟨[], rfl⟩
    · exact ⟨dir ++ ['/'], by simp⟩

/-- A file has the extension of its name. -/
theorem extensionOf_append (h : extensionOf b ≠ []) : extensionOf (a ++ b) = extensionOf b := by
  unfold extensionOf at h ⊢
  cases hb : breakLast '.' b with
  | none =>
    rw [hb] at h
    exact absurd rfl h
  | some p => rw [breakLast_append hb]

end Targets

/-! ### Running the code -/

/-- What a directive about a file asks its host for. -/
def ResourceVerb.event (verb : ResourceVerb) (target : List Char)
    (attributes : Assoc (List Char) (List Char)) : ResourceEvent :=
  if verb = .unloadFile then
    .unload (String.ofList target) (String.ofList (attributeText attributes "targetie"))
      (String.ofList (attributeText attributes "media"))
  else .load (.ofAttributes (String.ofList target) attributes)

/-- The comment that marks the place of a file that is loaded. -/
def ResourceVerb.marker (verb : ResourceVerb) (target : List Char) : List Char :=
  if verb = .unloadFile then [] else "<!--#Meta:".toList ++ target ++ "-->".toList

section Runs

variable {σ : Type} {rest cs : List Char}

/-- No island opens in a text without an opening tag and a character behind it that no opening tag
has. -/
theorem inert_of_unopened {d : Char} (h : ¬ openTag <:+: cs) (hd : d ∉ openTag) :
    Inert (cs ++ [d]) := by
  induction cs with
  | nil =>
    refine inert_singleton ?_
    rintro rfl
    exact hd (by decide)
  | cons c cs ih =>
    intro rest
    have hopen : startsWith openTag (c :: cs ++ [d] ++ rest) = false := by
      rw [Bool.eq_false_iff, Ne, startsWith_iff]
      intro hpre
      rcases List.prefix_or_prefix_of_prefix hpre (List.prefix_append (c :: cs ++ [d]) rest) with
        hpre | hpre
      · rcases List.prefix_concat_iff.mp hpre with heq | hpre
        · exact hd (heq ▸ List.mem_append_right _ List.mem_cons_self)
        · exact h hpre.isInfix
      · exact hd (hpre.subset (List.mem_append_right _ List.mem_cons_self))
    have hrest := ih (fun hin => h (hin.trans (List.infix_cons List.infix_rfl))) rest
    show textRun (c :: (cs ++ [d] ++ rest)) = c :: (cs ++ [d] ++ textRun rest)
    rw [textRun, ← hrest]
    exact if_neg (Bool.eq_false_iff.mp hopen)

theorem inert_marker {target : List Char} (h : ¬ openTag <:+: target) :
    Inert ("<!--#Meta:".toList ++ target ++ "-->".toList) := by
  have hopen : Inert "<!--#Meta:".toList := by
    have hfirst : Inert ['<', '!'] := fun _ => rfl
    exact hfirst.append (b := "--#Meta:".toList) (inert_of_notMem (by decide))
  have htarget := (inert_of_unopened (d := '-') h (by decide)).append
    (b := "->".toList) (inert_of_notMem (by decide))
  have hall := hopen.append htarget
  simpa using hall

/-- A program of one call that asks for a resource. -/
theorem run_record {host : Host σ} {e : Expr} {event : ResourceEvent} (name : String)
    (h : e.eval host = Run.record host event) (context : Context) (s : σ) :
    (Program.mk name [.expr e]).run host context s = (.ok "", context, host.record event s) := by
  rw [Program.run, execBlock, Stmt.exec, h, execBlock]
  rfl

/-- A program of a text and one call that asks for a resource. -/
theorem run_text_record {host : Host σ} {e : Expr} {event : ResourceEvent} (name text : String)
    (h : e.eval host = Run.record host event) (context : Context) (s : σ) :
    (Program.mk name [.text text, .expr e]).run host context s =
      (.ok text, context, host.record event s) := by
  rw [Program.run, execBlock, Stmt.exec, execBlock, Stmt.exec, h, execBlock]
  show (Except.ok ("" ++ text), context, host.record event s) = _
  rw [String.empty_append]

end Runs

section Directives

variable {σ : Type} {host : Host σ} {resolve : Path → Option Path} {verb : ResourceVerb}
  {argument : Option (List Char)} {attributes : Assoc (List Char) (List Char)}
  {names : List String} {t code target : List Char} {kind : ResourceKind} {unload : Bool}

/-- The fields of a call have different names. -/
theorem nodup_fields (h : ("target" :: names).Nodup) :
    ((("target".toList, target) :: givenFields attributes names).map Prod.fst).Nodup := by
  have hsub : ∀ names, List.Sublist ((givenFields attributes names).map Prod.fst)
      (names.map String.toList) := by
    intro names
    induction names with
    | nil => exact List.Sublist.slnil
    | cons n names ih =>
      rw [givenFields, List.filterMap_cons, List.map_cons]
      by_cases hn : attributeText attributes n = []
      · rw [if_pos hn]
        exact ih.cons _
      · rw [if_neg hn]
        exact ih.cons_cons _
  have hnames : (("target" :: names).map String.toList).Nodup :=
    List.Nodup.map (fun _ _ => String.toList_injective) h
  exact hnames.sublist ((hsub names).cons_cons _)

/-- What the call with the fields of a directive does. -/
theorem eval_requestCall {function : String} (h : ("target" :: names).Nodup) :
    (fieldCall function (("target".toList, target) :: givenFields attributes names)).eval host =
      host.call function [.map (requestEntries target attributes names)] :=
  eval_fieldCall (nodup_fields h)

/-- The kind of a script or style sheet, by the extension of its name. -/
def KindOf (kind : ResourceKind) (name : List Char) : Prop :=
  (extensionOf name = "js".toList ∧ kind = .script) ∨
    (extensionOf name = "css".toList ∧ kind = .stylesheet)

theorem KindOf.ne_other (h : KindOf kind t) : kind ≠ .other := by
  obtain ⟨-, rfl⟩ | ⟨-, rfl⟩ := h <;> decide

theorem KindOf.extensionOf_ne_nil (h : KindOf kind t) : extensionOf t ≠ [] := by
  obtain ⟨h, -⟩ | ⟨h, -⟩ := h <;> rw [h] <;> decide

theorem KindOf.ofTarget (h : KindOf kind t) : ResourceKind.ofTarget (String.ofList t) = kind := by
  rw [ResourceKind.ofTarget, String.toList_ofList]
  obtain ⟨h, rfl⟩ | ⟨h, rfl⟩ := h
  · rw [h]
    rfl
  · rw [h]
    rfl

theorem fileCode_of_kindOf {name : List Char} (h : KindOf kind name) (declared : Path)
    (dir : Option Path) :
    fileCode unload declared name dir target attributes =
      .ok (assetCode unload kind target attributes) := by
  unfold fileCode
  obtain ⟨h, rfl⟩ | ⟨h, rfl⟩ := h
  · rw [h]
    exact (if_neg (by decide)).trans (if_pos rfl)
  · rw [h]
    exact (if_neg (by decide)).trans ((if_neg (by decide)).trans (if_pos rfl))

/-- The code of a directive about a script or a style sheet is that of the file it asks for. -/
theorem targetCode_of_kindOf (h : KindOf kind (splitTarget t).2)
    (hcode : targetCode resolve unload t attributes = .ok code) :
    ∃ target, resolvedTarget? resolve t = some target ∧
      code = assetCode unload kind target attributes := by
  unfold targetCode at hcode
  unfold resolvedTarget?
  generalize splitTarget t = p at h hcode
  obtain ⟨declared, name⟩ := p
  dsimp only at h hcode ⊢
  split_ifs at hcode ⊢ with hremote
  · rw [fileCode_of_kindOf h] at hcode
    exact ⟨t, rfl, (Except.ok.inj hcode).symm⟩
  · cases hdir : resolve declared with
    | none =>
      simp only [lookedUp, hdir] at hcode
      cases hcode
    | some dir =>
      simp only [lookedUp, hdir, fileCode_of_kindOf h] at hcode
      exact ⟨_, rfl, (Except.ok.inj hcode).symm⟩

/-- The code that unloads a file is a program that does so. -/
theorem run_unload (target : List Char) (attributes : Assoc (List Char) (List Char))
    (kind : ResourceKind) (name : String) :
    ∃ program, parseProgram name (assetCode true kind target attributes) = .ok program ∧
      ∀ {σ : Type} (host : Host σ) (context : Context) (s : σ),
        program.run host context s = (.ok "", context,
          host.record (ResourceVerb.event .unloadFile target attributes) s) := by
  have hname : IsQualified "unload_file".toList := .name ⟨by decide, by decide⟩
  have hcode : assetCode true kind target attributes = callWithFields "unload_file".toList
      (fieldText ("target".toList, target) ++
        moreFields (givenFields attributes ["targetie", "media"])) := by
    rw [← resourceFields_eq]
    rfl
  refine ⟨⟨name, [.expr (fieldCall "unload_file" (("target".toList, target) ::
    givenFields attributes ["targetie", "media"]))]⟩, ?_,
    fun host context s => run_record name ?_ context s⟩
  · rw [hcode, ← List.append_nil (callWithFields _ _)]
    exact parseProgram_of_yields name
      (yields_callWithFields hname (by decide) (by decide) _ _ .nil)
  · rw [eval_requestCall (by decide)]
    show Run.record host (.unload (entryText _ "target") (entryText _ "targetie")
      (entryText _ "media")) = _
    rw [entryText_target, entryText_requestEntries (by decide) (by decide),
      entryText_requestEntries (by decide) (by decide)]
    rfl

/-- The code that loads a file is a program that marks its place and asks for it. -/
theorem run_load (h : KindOf kind target) (hopen : ¬ openTag <:+: target)
    (attributes : Assoc (List Char) (List Char)) (name : String) :
    ∃ program, parseProgram name (assetCode false kind target attributes) = .ok program ∧
      ∀ {σ : Type} (host : Host σ) (context : Context) (s : σ),
        program.run host context s =
          (.ok (String.ofList ("<!--#Meta:".toList ++ target ++ "-->".toList)), context,
            host.record (.load (.ofAttributes (String.ofList target) attributes)) s) := by
  have hname : IsQualified "load_file".toList := .name ⟨by decide, by decide⟩
  have hne : target ≠ [] := by
    rintro rfl
    exact h.extensionOf_ne_nil rfl
  have hnodup : ("target" :: loadNames kind).Nodup := by
    cases kind <;> decide
  have hcode : assetCode false kind target attributes =
      "<!--#Meta:".toList ++ target ++ "-->".toList ++ (callWithFields "load_file".toList
        (fieldText ("target".toList, target) ++
          moreFields (givenFields attributes (loadNames kind))) ++ []) := by
    rw [← resourceFields_eq, List.append_nil]
    rfl
  refine ⟨⟨name, [.text (String.ofList ("<!--#Meta:".toList ++ target ++ "-->".toList)),
    .expr (fieldCall "load_file" (("target".toList, target) ::
      givenFields attributes (loadNames kind)))]⟩, ?_,
    fun host context s => run_text_record name _ ?_ context s⟩
  · rw [hcode]
    exact parseProgram_of_yields name ((yields_callWithFields hname (by decide) (by decide) _ _
      .nil).text (inert_marker hopen))
  · rw [eval_requestCall hnodup]
    show Run.loadFile host [.map (requestEntries target attributes (loadNames kind))] = _
    rw [Run.loadFile, ofMap?_requestEntries hne h.ofTarget h.ne_other]

/-- **The program of a directive asks for exactly what the directive says.**  When a directive that
loads or unloads a script or a style sheet has code, the code is a program, and whatever the host
and the context are, the program writes the marker of the file and nothing else, leaves the context, and
asks once, for the file and with the attributes of the directive. -/
theorem run_resource (hverb : verb = .importFile ∨ verb = .loadFile ∨ verb = .unloadFile)
    (ht : argument.or (Assoc.get? attributes "target".toList) = some t)
    (hext : extensionOf (splitTarget t).2 = "js".toList ∨
      extensionOf (splitTarget t).2 = "css".toList)
    (hcode : (Directive.resource verb argument attributes).code resolve = .ok code)
    (name : String) :
    ∃ target, resolvedTarget? resolve t = some target ∧
      extensionOf target = extensionOf (splitTarget t).2 ∧
      (¬ openTag <:+: target → ∃ program, parseProgram name code = .ok program ∧
        ∀ {σ : Type} (host : Host σ) (context : Context) (s : σ),
          program.run host context s = (.ok (String.ofList (verb.marker target)), context,
            host.record (verb.event target attributes) s)) := by
  obtain ⟨kind, hkind⟩ : ∃ kind, KindOf kind (splitTarget t).2 := by
    rcases hext with h | h
    · exact ⟨.script, .inl ⟨h, rfl⟩⟩
    · exact ⟨.stylesheet, .inr ⟨h, rfl⟩⟩
  obtain ⟨c, cs, rfl⟩ : ∃ c cs, t = c :: cs := by
    refine List.exists_cons_of_ne_nil ?_
    rintro rfl
    exact hkind.extensionOf_ne_nil rfl
  have htarget : ∃ target, resolvedTarget? resolve (c :: cs) = some target ∧
      code = assetCode (decide (verb = .unloadFile)) kind target attributes := by
    rw [Directive.code, resourceCode, ht] at hcode
    rcases hverb with rfl | rfl | rfl <;> exact targetCode_of_kindOf hkind hcode
  obtain ⟨target, hresolved, rfl⟩ := htarget
  obtain ⟨a, ha⟩ := exists_append_resolvedTarget? hresolved
  have hextension : extensionOf target = extensionOf (splitTarget (c :: cs)).2 := by
    rw [ha, extensionOf_append hkind.extensionOf_ne_nil]
  refine ⟨target, hresolved, hextension, fun hopen => ?_⟩
  have hkind' : KindOf kind target := by
    rw [KindOf, hextension]
    exact hkind
  rcases hverb with rfl | rfl | rfl
  · exact run_load hkind' hopen attributes name
  · exact run_load hkind' hopen attributes name
  · exact run_unload target attributes kind name

/-- A quote and a closing tag in the `media` of a style sheet reach the host. -/
theorem run_resource_stylesheet :
    let attributes : Assoc (List Char) (List Char) :=
      [("target".toList, "css/a.css".toList), ("media".toList, "it's ?>".toList)]
    let code := "<!--#Meta:css/a.css--><?tpl load_file(['target' => 'css/a.css', " ++
      "'media' => 'it\\'s ?>']); ?>"
    (Directive.resource .loadFile none attributes).code some = .ok code.toList ∧
      ∃ program, parseProgram "page" code.toList = .ok program ∧
        ∀ {σ : Type} (host : Host σ) (context : Context) (s : σ),
          program.run host context s = (.ok "<!--#Meta:css/a.css-->", context,
            host.record (.load ⟨.stylesheet, "css/a.css", "it's ?>", "", none, false, "", ""⟩) s) := by
  intro attributes code
  have hcode : (Directive.resource .loadFile none attributes).code some = .ok code.toList := by
    decide +kernel
  have htarget : resolvedTarget? some "css/a.css".toList = some "css/a.css".toList := by
    decide +kernel
  have hevent : ResourceVerb.event .loadFile "css/a.css".toList attributes =
      .load ⟨.stylesheet, "css/a.css", "it's ?>", "", none, false, "", ""⟩ := by
    decide +kernel
  have hmarker : String.ofList (ResourceVerb.marker .loadFile "css/a.css".toList) =
      "<!--#Meta:css/a.css-->" := by
    decide +kernel
  have ht : (none : Option (List Char)).or (Assoc.get? attributes "target".toList) =
      some "css/a.css".toList := by
    decide +kernel
  obtain ⟨target, htarget', -, h⟩ :=
    run_resource (.inr (.inl rfl)) ht (.inr (by decide +kernel)) hcode "page"
  rw [htarget] at htarget'
  cases htarget'
  rw [hevent, hmarker] at h
  exact ⟨hcode, h (by decide +kernel)⟩

end Directives

end Stencil
