import Stencil.Proofs.Labels
import Stencil.Proofs.Parsing.Arms

/-!
# Switches in comments

A switch is printed with control comments: one that opens it, one in front of every arm, and one that
closes it.  The comment of an arm can leave the switch first, at the end of the arm before.  The code
of the comments together is the switch, with the expressions of the labels as their authors wrote
them, when the parentheses at the ends of the labels are pairs.

## Main definitions

* `SwitchArm`, `SwitchBlock` — a switch with its arms, which hold trees of blocks.
* `SwitchBlock.marks`, `SwitchBlock.source` — its texts and comments.
* `switchArms` — the arms of its statement.

## Main results

* `readsArms_armMarks` — the tokens of arms, and what the parser makes of them.
* `parseProgram_of_switch` — a printed switch is compiled without findings, into its statement.
* `call_label_cut` — a label that ends with a call loses its parentheses.
-/

namespace Stencil

open Text Lexer Stencil.Parser

/-! ### Switches -/

/-- An arm of a switch. -/
structure SwitchArm where
  /-- The label, or none for the arm that is taken otherwise. -/
  label : Option Label
  /-- What stands in the arm. -/
  body : Blocks true

/-- A switch.  Every arm after the first one may leave the switch at the end of the arm before. -/
structure SwitchBlock where
  /-- The value that the labels are compared with. -/
  subject : Condition FitsComment
  /-- The text before the first arm. -/
  lead : PlainText
  blank : lead.chars.all isBlank = true
  /-- The first arm. -/
  first : SwitchArm
  /-- The other arms, and whether they leave the switch first. -/
  more : List (Bool × SwitchArm)
  /-- The keyword that closes the switch. -/
  closer : Closer

/-- The keyword in front of an arm. -/
def labelKeyword (breaks isDefault : Bool) : List Char :=
  (if breaks then "break@".toList else []) ++
    if isDefault then "default".toList else "case".toList

/-- The comment in front of an arm. -/
def labelMark (breaks : Bool) : Option Label → Mark
  | some label => .comment (labelKeyword breaks false) (argument label.code)
  | none => .comment (labelKeyword breaks true) []

/-- The texts and comments of arms. -/
def armMarks (arms : List (Bool × SwitchArm)) : List Mark :=
  arms.flatMap fun x => labelMark x.1 x.2.label :: x.2.body.marks

namespace SwitchBlock

/-- All arms; the first one leaves nothing. -/
def allArms (t : SwitchBlock) : List (Bool × SwitchArm) := (false, t.first) :: t.more

/-- The texts and comments of a switch. -/
def marks (t : SwitchBlock) : List Mark :=
  .comment "switch".toList (argument t.subject.code) ::
    (.text t.lead :: (armMarks t.allArms ++ [.comment t.closer.word []]))

/-- The source of a switch. -/
def source (t : SwitchBlock) : List Char := t.marks.flatMap Mark.source

end SwitchBlock

/-- Whether the first of the arms leaves the switch at the end of the arm before. -/
def leavesFirst : List (Bool × SwitchArm) → Bool
  | (breaks, _) :: _ => breaks
  | [] => false

/-- The statements that leave the switch. -/
def leaveStmts (breaks : Bool) : List Stmt := if breaks then [.breakOut] else []

/-- The arms of the statement. -/
def switchArms : List (Bool × SwitchArm) → List Arm
  | [] => []
  | (_, arm) :: more =>
    .mk (arm.label.map Condition.expr) (arm.body.stmts ++ leaveStmts (leavesFirst more)) ::
      switchArms more

/-! ### Comments -/

theorem get?_labelKeyword (breaks isDefault : Bool) :
    Assoc.get? keywords (labelKeyword breaks isDefault) = some (.label breaks isDefault) := by
  cases breaks <;> cases isDefault <;> rfl

/-- The code of the comment in front of an arm. -/
def labelCode (breaks : Bool) (label : Option Label) : List Char :=
  (if breaks then "break; ".toList else []) ++
    match label with
    | some label => "case ".toList ++ bindVars label.value ++ [':']
    | none => "default:".toList

theorem controlCode_label (breaks : Bool) (label : Label) :
    controlCode (labelKeyword breaks false) (argument label.code) =
      .ok (island (labelCode breaks (some label))) := by
  obtain ⟨-, -, -, hne⟩ := label.spells
  have hvalue : (labelValue (argument label.code)).isEmpty = false := hne
  have hcode : island (labelCode breaks (some label)) =
      island ((if breaks then "break; ".toList else []) ++ "case ".toList ++
        bindVars (labelValue (argument label.code)) ++ [':']) := by
    simp only [labelCode, Label.value, List.append_assoc]
  rw [controlCode, get?_labelKeyword, hcode]
  simp only [Keyword.code, hvalue, Bool.false_eq_true, if_false]

theorem controlCode_default (breaks : Bool) :
    controlCode (labelKeyword breaks true) [] = .ok (island (labelCode breaks none)) := by
  rw [controlCode, get?_labelKeyword]
  rfl

theorem labelMark_code (breaks : Bool) (label : Option Label) :
    (labelMark breaks label).code = island (labelCode breaks label) := by
  cases label with
  | some label => rw [labelMark, Mark.code, controlCode_label]
  | none => rw [labelMark, Mark.code, controlCode_default]

theorem labelMark_sound (breaks : Bool) (label : Option Label) : (labelMark breaks label).Sound := by
  have hk (isDefault : Bool) : (Assoc.get? keywords (labelKeyword breaks isDefault)).isSome := by
    rw [get?_labelKeyword]
    rfl
  cases label with
  | some label => exact sound_argument (hk false) ⟨_, controlCode_label breaks label⟩ label.fits.1
  | none => exact ⟨.inl rfl, hk true, _, controlCode_default breaks⟩

/-- Every comment of a switch is found and has code. -/
theorem SwitchBlock.sound (t : SwitchBlock) : ∀ m ∈ t.marks, m.Sound := by
  have harms (arms : List (Bool × SwitchArm)) : ∀ m ∈ armMarks arms, m.Sound := by
    intro m hm
    obtain ⟨x, -, hm⟩ := List.mem_flatMap.mp hm
    rcases List.mem_cons.mp hm with rfl | hm
    · exact labelMark_sound x.1 x.2.label
    · exact x.2.body.sound m hm
  rw [marks, List.forall_mem_cons, List.forall_mem_cons, List.forall_mem_append,
    List.forall_mem_singleton]
  exact ⟨sound_argument rfl ⟨_, rfl⟩ t.subject.fits, trivial, harms _, t.closer.sound⟩

theorem nesting_labelMark (breaks : Bool) (label : Option Label) :
    (labelMark breaks label).nesting? = some (some .inside) := by
  have hk (isDefault : Bool) (args : List Char) :
      controlNesting? (labelKeyword breaks isDefault) args = some .inside := by
    rw [controlNesting?, get?_labelKeyword]
    rfl
  cases label with
  | some label => rw [labelMark, Mark.nesting?, hk]
  | none => rw [labelMark, Mark.nesting?, hk]

/-- The comments of arms break no nesting in a switch. -/
theorem settled_armMarks (arms : List (Bool × SwitchArm)) (d : Nat) :
    Settled (d + 1) (nestings (armMarks arms)) := by
  induction arms with
  | nil => exact settled_nil (d + 1)
  | cons x arms ih =>
    have hcons : nestings (armMarks (x :: arms)) =
        [some .inside] ++ (nestings x.2.body.marks ++ nestings (armMarks arms)) := by
      rw [armMarks, List.flatMap_cons, List.cons_append, nestings, List.filterMap_cons,
        nesting_labelMark, ← nestings, nestings_append]
      rfl
    rw [hcons]
    exact (settled_inside d).append ((x.2.body.settled fun _ => Nat.succ_pos d).append ih)

/-- The comments of a switch break no nesting. -/
theorem SwitchBlock.imbalances_eq (t : SwitchBlock) :
    imbalances (nestings t.marks) = List.replicate (nestings t.marks).length none := by
  refine Settled.imbalances_eq ?_
  rw [marks, nestings_comment _ (n := some .opens) rfl, nestings_text, nestings_append,
    nestings_comment _ t.closer.nesting]
  exact (settled_armMarks t.allArms 0).block (settled_nil 0)

/-! ### Tokens -/

variable {a code rest : List Char} {ts us vs : List Token} {stop : Stop} {K : List Stmt}
  {r : List Token}

/-- A colon at the end of code is a token of its own: it has nothing to qualify. -/
theorem spells_colon (h : SpellsFirm a ts) : Spells (a ++ [':']) (ts ++ [.sign .colon]) := by
  intro rest us hr hus
  have hstep : step .code ':' rest =
      .ok { token := some (.sign .colon), width := 1, mode := .code } := rfl
  have hcolon : Reads .code (':' :: rest) (.sign .colon :: us) := Reads.of_step hstep hus
  rw [List.append_assoc, List.append_assoc]
  exact (h (breaks_colon hr)).mpr ⟨_, rfl, hcolon⟩

/-- The tokens that leave the arm before. -/
def leaveTokens (breaks : Bool) : List Token :=
  if breaks then [.word "break", .terminator] else []

theorem spells_leave (breaks : Bool) (h : Spells code ts) :
    Spells ((if breaks then "break; ".toList else []) ++ code) (leaveTokens breaks ++ ts) := by
  cases breaks with
  | false => exact h
  | true => exact firm_break.spells.append_own (b := ' ' :: code) rfl (h.blank (by decide))

/-- The code in front of an arm: tokens that leave the arm before, and a label. -/
theorem spells_labelCode (breaks : Bool) (label : Option Label) : ∃ word ls,
    Spells (labelCode breaks label) (leaveTokens breaks ++ .word word :: ls) ∧
      (word = "case" ∨ word = "default") ∧
      ∀ {us}, Parses (armLabel word) (ls ++ us) (label.map Condition.expr) us := by
  cases label with
  | none =>
    refine ⟨"default", [.sign .colon], ?_, .inr rfl, parses_armLabel_default⟩
    exact spells_leave breaks (spells_colon firm_default)
  | some label =>
    obtain ⟨ts, hfirm, hstands, -⟩ := label.spells
    refine ⟨"case", ts ++ [.sign .colon], ?_, .inl rfl, fun {us} => ?_⟩
    · have hcase : Spells ("case".toList ++ ' ' :: (bindVars label.value ++ [':'])) _ :=
        firm_case.spells.append_blank (by decide) (spells_colon hfirm)
      have hcode : "case ".toList ++ bindVars label.value ++ [':'] =
          "case".toList ++ ' ' :: (bindVars label.value ++ [':']) := by
        simp
      rw [labelCode]
      simp only [hcode]
      exact spells_leave breaks hcase
    · have h : Parses (armLabel "case") (ts ++ .sign .colon :: us) _ us :=
        parses_armLabel_case hstands
      simpa using h

/-! ### Statements -/

theorem startsText_leaveStmts (breaks : Bool) : startsText (leaveStmts breaks) = false := by
  cases breaks <;> rfl

/-- The tokens that leave the arm before are its last statement. -/
theorem gives_leave (breaks : Bool) (h : Stop.atArm.holds vs.head? = true) :
    Gives (listUntil .atArm) 2 (leaveTokens breaks ++ vs) (leaveStmts breaks) vs := by
  cases breaks with
  | false => exact gives_stop h
  | true => exact gives_break (gives_stop h)

/-- The text starts with an island, and behind the tokens that leave the arm before there are the
arms. -/
structure ReadsArms (breaks : Bool) (cs : List Char) (as : List Arm) (r : List Token) : Prop where
  /-- The island and the tokens. -/
  split : ∃ code rest vs, cs = island code ++ rest ∧ Reads .text cs (leaveTokens breaks ++ vs) ∧
    Stop.atArm.holds vs.head? = true ∧ Gives arms 1 vs as r

/-- The island that closes a switch. -/
theorem readsArms_close (h : Reads .text rest us) :
    ReadsArms false (island ['\x7d'] ++ rest) [] (.terminator :: us) :=
  ⟨_, _, _, rfl, reads_close h, rfl, gives_arms_close⟩

/-- An arm in front of others. -/
theorem ReadsArms.arm {cs : List Char} {as : List Arm} {next : Bool} (breaks : Bool)
    (arm : SwitchArm) (h : ReadsArms next cs as r) :
    ReadsArms breaks
      (island (labelCode breaks arm.label) ++ (arm.body.marks.flatMap Mark.code ++ cs))
      (.mk (arm.label.map Condition.expr) (arm.body.stmts ++ leaveStmts next) :: as) r := by
  obtain ⟨code, rest, vs, rfl, hread, hstop, harms⟩ := h.split
  have hlast : Yields .atArm (island code ++ rest) (leaveStmts next) vs :=
    yields_of_island hread (gives_leave next hstop) (startsText_leaveStmts next)
  obtain ⟨us, hus, hbody⟩ := (arm.body.yields (startsText_leaveStmts next) hlast).reads
  obtain ⟨word, ls, hspell, hword, hlabel⟩ := spells_labelCode breaks arm.label
  have hread := hspell.reads_island hus
  rw [List.append_assoc, List.cons_append] at hread
  refine ⟨_, _, _, rfl, hread, ?_, ?_⟩
  · rcases hword with rfl | rfl <;> rfl
  · refine gives_arm hword ?_ hlabel (gives_terminator hbody) harms
    rw [List.length_append]
    omega

/-- **What the arms of a switch are read as**, in front of the island that closes it. -/
theorem readsArms_armMarks (arms : List (Bool × SwitchArm)) (h : Reads .text rest us) :
    ReadsArms (leavesFirst arms) ((armMarks arms).flatMap Mark.code ++ (island ['\x7d'] ++ rest))
      (switchArms arms) (.terminator :: us) := by
  induction arms with
  | nil => exact readsArms_close h
  | cons x arms ih =>
    obtain ⟨breaks, arm⟩ := x
    have hcode : (armMarks ((breaks, arm) :: arms)).flatMap Mark.code =
        island (labelCode breaks arm.label) ++
          (arm.body.marks.flatMap Mark.code ++ (armMarks arms).flatMap Mark.code) := by
      rw [armMarks, List.flatMap_cons, List.cons_append, List.flatMap_cons, List.flatMap_append,
        labelMark_code]
      rfl
    rw [hcode, List.append_assoc, List.append_assoc]
    exact ih.arm breaks arm

/-- The arms of a switch behind blank text. -/
theorem gives_lead (t : SwitchBlock) (h : Reads .text rest us) :
    ∃ vs, Reads .text (t.lead.chars ++ ((armMarks t.allArms).flatMap Mark.code ++
        (island ['\x7d'] ++ rest))) vs ∧
      Gives arms 1 vs (switchArms t.allArms) (.terminator :: us) := by
  obtain ⟨code, cs, vs, hcs, hread, -, harms⟩ := (readsArms_armMarks t.allArms h).split
  rw [hcs] at hread ⊢
  have hrun : textRun (t.lead.chars ++ (island code ++ cs)) = t.lead.chars := by
    rw [inert_of_notMem t.lead.noTag, textRun_island, List.append_nil]
  have hdrop : Reads .text ((t.lead.chars ++ (island code ++ cs)).drop
      (textRun (t.lead.chars ++ (island code ++ cs))).length) vs := by
    rw [hrun, List.drop_left]
    exact hread
  refine ⟨_, reads_textRun hdrop, ?_⟩
  rw [hrun]
  split
  next => exact harms
  next =>
    refine gives_arms_text ?_ harms
    rw [String.toList_ofList]
    exact t.blank

/-- **The code of a switch gives its statement**, in front of those of the text after it. -/
theorem SwitchBlock.yields (t : SwitchBlock) (h : Yields stop rest K r) :
    Yields stop (t.marks.flatMap Mark.code ++ rest)
      (.switch t.subject.expr (switchArms t.allArms) :: K) r := by
  obtain ⟨us, hus, hK⟩ := h.reads
  obtain ⟨ts, hts, hcond⟩ := exprOf?_stands t.subject.stands
  obtain ⟨vs, hvs, harms⟩ := gives_lead t hus
  have hopen := code_opener .switchBlock (by decide) hts.outside
  have hcode : t.marks.flatMap Mark.code ++ rest =
      island ("switch".toList ++ argument (bindVars t.subject.code) ++ ['\x7b']) ++
        (t.lead.chars ++ ((armMarks t.allArms).flatMap Mark.code ++ (island ['\x7d'] ++ rest))) := by
    simp only [marks, List.flatMap_cons, List.flatMap_append, List.flatMap_nil, List.append_assoc,
      List.append_nil, t.closer.mark_code]
    exact hopen ▸ rfl
  have hread := (spells_word firm_switch.spells hts.whole).reads_island hvs
  have hswitch := gives_switch hcond (gives_arms_terminator harms)
  simp only [List.cons_append, List.append_assoc, List.nil_append] at hread
  rw [hcode]
  refine yields_of_island hread ?_ rfl
  refine gives_cons _ hswitch (List.cons_ne_nil _ _) (by cases stop <;> rfl) ?_ (gives_terminator hK)
  have hle := harms.le
  simp only [List.length_cons, List.length_append] at hle ⊢
  omega

/-- **A printed switch is compiled without findings, and its code is parsed into the switch**: the
labels of its arms are the expressions that were written, and an arm that leaves the switch first
does so at the end of the arm before. -/
theorem parseProgram_of_switch (resolve : Path → Option Path) (name : String) (t : SwitchBlock) :
    ∃ out, compileDirectives resolve t.source = (out, []) ∧
      parseProgram name out =
        .ok { name, body := [.switch t.subject.expr (switchArms t.allArms)] } := by
  refine ⟨_, compileDirectives_marks resolve t.sound t.imbalances_eq, ?_⟩
  have h := t.yields Yields.nil
  rw [List.append_nil] at h
  exact parseProgram_of_yields name h

/-- The first label has parentheses of its own, the second one leaves the first arm, and the last arm
has no label. -/
theorem parseProgram_of_switch_labels :
    ∃ out, compileDirectives (fun _ => none) ("<!--@switch($k)--> <!--@case(($a))-->x" ++
        "<!--@break@case(2)-->y<!--@break@default-->z<!--@endswitch-->").toList = (out, []) ∧
      parseProgram "page" out = .ok { name := "page", body :=
        [.switch (.member (.var "__ctx") "k")
          [.mk (some (.member (.var "__ctx") "a")) [.text "x", .breakOut],
            .mk (some (.literal (.int 2))) [.text "y", .breakOut],
            .mk none [.text "z"]]] } := by
  have hsubject : exprOf? "$k".toList = some (.member (.var "__ctx") "k") := by rfl
  have hfirst : exprOf? "($a)".toList = some (.member (.var "__ctx") "a") := by rfl
  have hsecond : exprOf? ['2'] = some (.literal (.int 2)) := by rfl
  let first : Label := ⟨_, _, hfirst, ⟨by decide, by decide⟩,
    1, "$a".toList, rfl, by decide +kernel, by rintro _ ⟨⟩; rfl, by rintro _ ⟨⟩; rfl⟩
  let second : Label := ⟨_, _, hsecond, ⟨by decide, by decide⟩,
    pairedEnds_of_ends hsecond (by rintro _ ⟨⟩; rfl) (by rintro _ ⟨⟩; rfl)⟩
  let t : SwitchBlock :=
    { subject := ⟨_, _, hsubject, by decide, by decide⟩
      lead := ⟨[' '], by decide, by decide⟩
      blank := by decide
      first := ⟨some first, .text ⟨['x'], by decide, by decide⟩ .done⟩
      more := [(true, ⟨some second, .text ⟨['y'], by decide, by decide⟩ .done⟩),
        (true, ⟨none, .text ⟨['z'], by decide, by decide⟩ .done⟩)]
      closer := ⟨"endswitch".toList, rfl⟩ }
  obtain ⟨out, hout, hparse⟩ := parseProgram_of_switch (fun _ => none) "page" t
  have hsource : ("<!--@switch($k)--> <!--@case(($a))-->x" ++
      "<!--@break@case(2)-->y<!--@break@default-->z<!--@endswitch-->").toList = t.source := by
    rfl
  exact ⟨out, hsource ▸ hout, hparse⟩

/-- The label `f($x)` loses its last parenthesis, and the code of the switch is not parsed.  The label
`f()` loses both of them, and what it is compared with is not the call but the constant of that
name. -/
theorem call_label_cut :
    ((exprOf? "f($x)".toList).isSome = true ∧ FitsComment "f($x)".toList ∧
      (compileDirectives (fun _ => none)
        "<!--@switch($k)--><!--@case(f($x))-->a<!--@end-->".toList).2 = [] ∧
      (parseProgram "page" (compileDirectives (fun _ => none)
        "<!--@switch($k)--><!--@case(f($x))-->a<!--@end-->".toList).1).isOk = false) ∧
    (match exprOf? "f()".toList with
      | some (.call "f" []) => true
      | _ => false) = true ∧
    (match parseProgram "page" (compileDirectives (fun _ => none)
        "<!--@switch($k)--><!--@case(f())-->a<!--@end-->".toList).1 with
      | .ok ⟨_, [.switch _ [.mk (some (.const "f")) [.text "a"]]]⟩ => true
      | _ => false) = true :=
  ⟨⟨by decide +kernel, by constructor <;> decide +kernel, by decide +kernel, by decide +kernel⟩,
    by decide +kernel, by decide +kernel⟩

end Stencil
