import Stencil.Proofs.Parsing.Statements

/-!
# Arms of a switch, token by token

The arms of a switch follow each other up to its closing brace.  An arm is its label and the
statements up to the next one.  Before the first arm there may be the ends of islands and blank
text, which the parser skips.

## Main results

* `parses_armLabel_case`, `parses_armLabel_default` — the labels.
* `gives_arm` — an arm in front of others.
* `gives_switch` — a switch with its arms.
-/

namespace Stencil.Parser

variable {us vs ws r ts : List Token} {as : List Arm} {B : List Stmt} {label : Option Expr} {e : Expr}

/-! ### Labels -/

/-- An expression up to the colon labels an arm. -/
theorem parses_armLabel_case (h : Stands parseExpr extendsExpr ts e) :
    Parses (armLabel "case") (ts ++ .sign .colon :: us) (some e) us := by
  intro ls hls
  obtain ⟨ls₁, h₁, hls₁⟩ := h (notNext_cons rfl) ls hls
  obtain ⟨a, b, ls₂, rfl, hls₂⟩ := tokens_cons hls₁
  refine ⟨ls₂, ?_, hls₂⟩
  have hne : ¬ "case" = "default" := by decide
  rw [armLabel, if_neg hne, h₁]
  rfl

/-- One arm has no expression. -/
theorem parses_armLabel_default :
    Parses (armLabel "default") (.sign .colon :: us) none us := by
  intro ls hls
  obtain ⟨a, b, rest, rfl, hrest⟩ := tokens_cons hls
  exact ⟨rest, rfl, hrest⟩

/-! ### Arms -/

/-- The closing brace ends the arms. -/
theorem gives_arms_close : Gives arms 1 (.sign .braceClose :: us) [] us where
  le := Nat.le_succ _
  parses {n} hn ls hls := by
    obtain ⟨k, rfl⟩ : ∃ k, n = k + 1 := ⟨n - 1, by omega⟩
    obtain ⟨a, b, rest, rfl, hrest⟩ := tokens_cons hls
    refine ⟨rest, ?_, hrest⟩
    rw [arms]

/-- A token before the arms that the parser skips. -/
theorem gives_arms_skip {t : Token}
    (hskip : ∀ k a b rest, arms (k + 1) (⟨t, a, b⟩ :: rest) = arms k rest)
    (h : Gives arms 1 us as r) : Gives arms 1 (t :: us) as r where
  le := Nat.le_succ_of_le h.le
  parses {n} hn ls hls := by
    rw [List.length_cons] at hn
    obtain ⟨k, rfl⟩ : ∃ k, n = k + 1 := ⟨n - 1, by omega⟩
    obtain ⟨a, b, rest, rfl, hrest⟩ := tokens_cons hls
    obtain ⟨rs, hrs, htokens⟩ := h.parses (n := k) (by omega) rest hrest
    exact ⟨rs, by rw [hskip, hrs], htokens⟩

/-- The end of an island before the arms. -/
theorem gives_arms_terminator (h : Gives arms 1 us as r) : Gives arms 1 (.terminator :: us) as r :=
  gives_arms_skip (fun k a b rest => by rw [arms]) h

/-- Blank text before the arms. -/
theorem gives_arms_text {s : String} (hs : s.toList.all Text.isBlank = true)
    (h : Gives arms 1 us as r) : Gives arms 1 (.text s :: us) as r :=
  gives_arms_skip (fun k a b rest => by rw [arms, if_pos hs]) h

/-- An arm in front of others: its label, and the statements up to the next one. -/
theorem gives_arm {word : String} (hword : word = "case" ∨ word = "default")
    (hle : us.length ≤ ws.length) (hl : Parses (armLabel word) ws label us)
    (hb : Gives (listUntil .atArm) 2 us B vs) (hm : Gives arms 1 vs as r) :
    Gives arms 1 (.word word :: ws) (.mk label B :: as) r where
  le := by
    have h₁ := hm.le
    have h₂ := hb.le
    rw [List.length_cons]
    omega
  parses {n} hn ls hls := by
    have hle' := hb.le
    rw [List.length_cons] at hn
    obtain ⟨k, rfl⟩ : ∃ k, n = k + 1 := ⟨n - 1, by omega⟩
    obtain ⟨a, b, rest, rfl, hrest⟩ := tokens_cons hls
    obtain ⟨ls₁, h₁, hls₁⟩ := hl rest hrest
    obtain ⟨ls₂, h₂, hls₂⟩ := hb.parses (n := k) (by omega) ls₁ hls₁
    obtain ⟨ls₃, h₃, hls₃⟩ := hm.parses (n := k) (by omega) ls₂ hls₂
    refine ⟨ls₃, ?_, hls₃⟩
    rw [listUntil] at h₂
    rw [arms, if_pos hword, h₁, ok_bind]
    simp only [h₂, h₃, ok_bind]

/-- A switch with its arms. -/
theorem gives_switch (hc : Stands parseExpr extendsExpr ts e) (h : Gives arms 1 us as r) :
    Gives statement 1 (.word "switch" :: .sign .parenOpen ::
      (ts ++ .sign .parenClose :: .sign .braceOpen :: us)) [.switch e as] r where
  le := by
    have h₁ := h.le
    simp only [List.length_cons, List.length_append]
    omega
  parses {n} hn ls hls := by
    simp only [List.length_cons, List.length_append] at hn
    obtain ⟨k, rfl⟩ : ∃ k, n = k + 1 := ⟨n - 1, by omega⟩
    obtain ⟨a, b, rest, rfl, hrest⟩ := tokens_cons hls
    obtain ⟨ls₁, h₁, hls₁⟩ := parses_condition hc rest hrest
    obtain ⟨ls₂, h₂, hls₂⟩ := expect_tokens "`\x7b`" hls₁
    obtain ⟨ls₃, h₃, hls₃⟩ := h.parses (n := k) (by omega) ls₂ hls₂
    refine ⟨ls₃, ?_, hls₃⟩
    have hstep : statement (k + 1) (⟨.word "switch", a, b⟩ :: rest) = (do
        let c ← condition rest
        let ts ← expect (.sign .braceOpen) "`\x7b`" c.2
        let x ← arms k ts
        .ok ([.switch c.1 x.1], x.2)) := by
      rw [statement]
      rfl
    rw [hstep, h₁, ok_bind]
    simp only [h₂, h₃, ok_bind]

end Stencil.Parser
