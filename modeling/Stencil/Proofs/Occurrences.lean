import Mathlib.Data.List.Sort
import Stencil.Diagnostic
import Stencil.Proofs.Scanning.Spans

/-!
# Diagnostics placed by counting

A stage reports offsets in its own input.  A relocation counts how often the text of a diagnostic
stands in front of it there, and takes the occurrence of that number in the source.  Occurrences are
read from left to right and do not overlap, so their offsets grow.  Hence the number of occurrences
in front of an offset grows with the offset, it tells one occurrence from another, and of an
occurrence it is its number.  Everything about relocations follows from these three facts.

## Main definitions

* `countBefore` — the number of occurrences in front of an offset.
* `StandsAt` — a text stands at an offset of another one.
* `Report.Places` — the relocation has a place for a diagnostic.
* `Report.Relocates` — a diagnostic before and after a relocation.

## Main results

* `pairwise_occurrences`, `standsAt_of_mem_occurrences` — the occurrences of a text.
* `countBefore_mono`, `getElem?_countBefore` — counting them.
* `relocate_keeps_occurrences` — **a relocation keeps the order and the difference of occurrences.**
-/

namespace Stencil

open Text

variable {p cs : List Char} {n k : Nat}

/-- The text `p` stands at an offset of another one. -/
def StandsAt (p cs : List Char) (offset : Nat) : Prop :=
  ∃ before after, cs = before ++ (p ++ after) ∧ offset = byteSize before

/-- The number of occurrences in front of an offset. -/
def countBefore (p cs : List Char) (offset : Nat) : Nat := (occurrences p cs).countP (· < offset)

/-! ### Occurrences -/

theorem takesStarts_phrase (hp : p ≠ []) : TakesStarts (phrase p) := by
  intro cs x k h
  obtain ⟨rest, hrest, heq⟩ := Option.map_eq_some_iff.mp h
  cases heq
  exact ⟨p, rest, hp, dropStart?_eq_some_iff.mp hrest, rfl⟩

/-- What is found of a phrase is the phrase. -/
theorem stands_of_mem_findPlaces (hp : p ≠ []) {f : Found Unit}
    (hf : f ∈ findPlaces (phrase p) cs) :
    f.source = p ∧ ∃ before after, f.StandsIn cs before after := by
  obtain ⟨-, before, after, hstands, hmatch⟩ :=
    (cuts_cut (takesStarts_phrase hp) cs).standsIn (a := []) hf
  obtain ⟨rest, hrest, heq⟩ := Option.map_eq_some_iff.mp hmatch
  have hlength : p.length = f.source.length := (Prod.mk.inj heq).2
  exact ⟨(List.append_inj (dropStart?_eq_some_iff.mp hrest) hlength.symm).1, before, after,
    hstands⟩

/-- A text stands at its occurrences. -/
theorem standsAt_of_mem_occurrences (hp : p ≠ []) (hn : n ∈ occurrences p cs) :
    StandsAt p cs n := by
  obtain ⟨f, hf, rfl⟩ := List.mem_map.mp hn
  obtain ⟨hsource, before, after, hstands⟩ := stands_of_mem_findPlaces hp hf
  exact ⟨before, after, hsource ▸ hstands.text, hstands.offset⟩

/-- Occurrences lie one behind the other. -/
theorem pairwise_occurrences (hp : p ≠ []) (cs : List Char) :
    (occurrences p cs).Pairwise (· < ·) := by
  have hstops : (findPlaces (phrase p) cs).Pairwise fun f g => f.stop ≤ g.offset :=
    pairwise_foundFrom 0 _
  refine List.pairwise_map.mpr (hstops.imp_of_mem fun hf _ hle => ?_)
  obtain ⟨hsource, -⟩ := stands_of_mem_findPlaces hp hf
  have hsize := byteSize_pos (hsource ▸ hp)
  rw [Found.stop] at hle
  omega

/-! ### Counting -/

theorem countBefore_mono (h : n ≤ k) : countBefore p cs n ≤ countBefore p cs k := by
  refine List.countP_mono_left fun m _ hm => ?_
  rw [decide_eq_true_eq] at hm ⊢
  exact hm.trans_le h

theorem countP_eq_zero_of_le {ns : List Nat} {m : Nat} (hm : ∀ k ∈ ns, m < k) (h : n ≤ m) :
    ns.countP (· < n) = 0 := by
  refine List.countP_eq_zero.mpr fun k hk => ?_
  have := hm k hk
  rw [decide_eq_true_eq]
  omega

/-- Among growing numbers, those in front of a number are at the start. -/
theorem length_takeWhile_of_pairwise {ns : List Nat} (h : ns.Pairwise (· < ·)) (n : Nat) :
    (ns.takeWhile (· < n)).length = ns.countP (· < n) := by
  induction h with
  | nil => rfl
  | @cons m ns hm _ ih =>
    by_cases hlt : m < n
    · simp [hlt, ih]
    · simp [hlt, countP_eq_zero_of_le hm (Nat.le_of_not_lt hlt)]

/-- Among growing numbers, the position of one is the number of smaller ones. -/
theorem getElem?_countP_of_pairwise {ns : List Nat} (h : ns.Pairwise (· < ·)) (hn : n ∈ ns) :
    ns[ns.countP (· < n)]? = some n := by
  induction h with
  | nil => cases hn
  | @cons m ns hm _ ih =>
    rcases List.mem_cons.mp hn with rfl | hn
    · simp [countP_eq_zero_of_le hm le_rfl]
    · simp [hm n hn, ih hn]

/-- Growing numbers compare as their positions do. -/
theorem le_iff_of_getElem? {ns : List Nat} (h : ns.Pairwise (· < ·)) {i j : Nat}
    (hi : ns[i]? = some n) (hj : ns[j]? = some k) : n ≤ k ↔ i ≤ j := by
  obtain ⟨_, rfl⟩ := List.getElem?_eq_some_iff.mp hi
  obtain ⟨_, rfl⟩ := List.getElem?_eq_some_iff.mp hj
  exact h.sortedLT.getElem_le_getElem_iff

/-- The number of an occurrence is the number of those in front of it. -/
theorem getElem?_countBefore (hp : p ≠ []) (hn : n ∈ occurrences p cs) :
    (occurrences p cs)[countBefore p cs n]? = some n :=
  getElem?_countP_of_pairwise (pairwise_occurrences hp cs) hn

theorem countBefore_inj (hp : p ≠ []) (hn : n ∈ occurrences p cs) (hk : k ∈ occurrences p cs)
    (h : countBefore p cs n = countBefore p cs k) : n = k := by
  have hsome := getElem?_countBefore hp hn
  rw [h, getElem?_countBefore hp hk] at hsome
  exact (Option.some.inj hsome).symm

/-! ### Relocations -/

namespace Report

variable {r : Report} {input source : List Char} {a a' b b' d d' d'' : Diagnostic}

/-- The relocation has a place for the diagnostic: it is of the running stage and has a text, and
the source has this text once more than the input has it in front of the diagnostic. -/
def Places (r : Report) (input source : List Char) (d : Diagnostic) : Prop :=
  d.stage = r.stage ∧ d.text ≠ [] ∧
    countBefore d.text input d.offset < (occurrences d.text source).length

instance : Decidable (r.Places input source d) :=
  inferInstanceAs (Decidable (d.stage = r.stage ∧ d.text ≠ [] ∧
    countBefore d.text input d.offset < (occurrences d.text source).length))

/-- The diagnostics at one position of the report before and after a relocation. -/
def Relocates (r : Report) (input source : List Char) (d d' : Diagnostic) : Prop :=
  ∃ i : Nat, r.items[i]? = some d ∧ (r.relocate input source).items[i]? = some d'

theorem Relocates.eq (h : r.Relocates input source d d') :
    d' = moveItem r.stage input source d := by
  obtain ⟨i, hd, hd'⟩ := h
  rw [relocate, List.getElem?_map, hd] at hd'
  exact (Option.some.inj hd').symm

theorem relocated?_eq {p : List Char} (hp : p ≠ []) (input source : List Char) (offset : Nat) :
    relocated? input source offset p = (occurrences p source)[countBefore p input offset]? := by
  rw [relocated?, length_takeWhile_of_pairwise (pairwise_occurrences hp input), countBefore]

/-- A diagnostic that has a place is moved there, and nothing else of it changes. -/
theorem Relocates.of_places (h : r.Relocates input source d d') (hd : r.Places input source d) :
    d' = { d with offset := d'.offset } ∧
      (occurrences d.text source)[countBefore d.text input d.offset]? = some d'.offset := by
  obtain ⟨hstage, htext, hlt⟩ := hd
  obtain rfl := h.eq
  rw [moveItem, if_pos ⟨hstage, htext⟩, relocated?_eq htext, List.getElem?_eq_getElem hlt]
  exact ⟨rfl, rfl⟩

theorem Relocates.of_not_places (h : r.Relocates input source d d')
    (hd : ¬ r.Places input source d) : d' = d := by
  obtain rfl := h.eq
  rw [moveItem]
  split
  next hs =>
    have hnone : relocated? input source d.offset d.text = none := by
      rw [relocated?_eq hs.2, List.getElem?_eq_none_iff]
      exact Nat.le_of_not_lt fun hlt => hd ⟨hs.1, hs.2, hlt⟩
    rw [hnone]
  next => rfl

/-- An occurrence of the source has a place in it, and it is its own. -/
theorem Relocates.of_mem_occurrences (h : r.Relocates source source d d')
    (hd : d.offset ∈ occurrences d.text source) : d' = d := by
  by_cases hp : r.Places source source d
  · obtain ⟨heq, hplace⟩ := h.of_places hp
    rw [getElem?_countBefore hp.2.1 hd] at hplace
    rw [heq, ← Option.some.inj hplace]
  · exact h.of_not_places hp

/-- The place of a diagnostic is an occurrence of its text. -/
theorem Relocates.mem_occurrences (h : r.Relocates input source d d')
    (hd : r.Places input source d) : d'.text = d.text ∧ d'.offset ∈ occurrences d.text source := by
  obtain ⟨heq, hplace⟩ := h.of_places hd
  exact ⟨by rw [heq], List.mem_of_getElem? hplace⟩

/-- **The places of two constructs of one text compare as the numbers of occurrences in front of
them do.** -/
theorem Relocates.offset_le_iff (ha : r.Relocates input source a a')
    (hb : r.Relocates input source b b') (hpa : r.Places input source a)
    (hpb : r.Places input source b) (htext : a.text = b.text) :
    a'.offset ≤ b'.offset ↔
      countBefore a.text input a.offset ≤ countBefore a.text input b.offset := by
  obtain ⟨-, hplace⟩ := ha.of_places hpa
  obtain ⟨-, hplace'⟩ := hb.of_places hpb
  rw [← htext] at hplace'
  exact le_iff_of_getElem? (pairwise_occurrences hpa.2.1 source) hplace hplace'

end Report

open Report in
/-- **A relocation keeps the order and the difference of occurrences.**  It changes the offsets of
the diagnostics that have a place, and nothing else; a diagnostic with a place is moved to where the
source has its text.  Two of one text do not change their order, and when they stood at different
occurrences in the input, they do in the source.  Relocating from the source to itself moves none
of those that have been placed, and none that stands at an occurrence of its text. -/
theorem relocate_keeps_occurrences (r : Report) (input source : List Char) :
    (r.relocate input source).file = r.file ∧ (r.relocate input source).stage = r.stage ∧
    (r.relocate input source).items.length = r.items.length ∧
    (∀ d d', r.Relocates input source d d' → d' = { d with offset := d'.offset } ∧
      (r.Places input source d → StandsAt d.text source d'.offset) ∧
      (¬ r.Places input source d → d' = d)) ∧
    (∀ a a' b b', r.Relocates input source a a' → r.Relocates input source b b' →
      r.Places input source a → r.Places input source b → a.text = b.text →
      (a.offset ≤ b.offset → a'.offset ≤ b'.offset) ∧
      (a.offset ∈ occurrences a.text input → b.offset ∈ occurrences b.text input →
        a.offset ≠ b.offset → a'.offset ≠ b'.offset)) ∧
    (∀ d d' d'', r.Relocates input source d d' → r.Places input source d →
      (r.relocate input source).Relocates source source d' d'' → d'' = d') ∧
    (∀ d d', r.Relocates source source d d' → d.offset ∈ occurrences d.text source → d' = d) := by
  refine ⟨rfl, rfl, List.length_map _, ?change, ?pair, ?again,
    fun _ _ h => h.of_mem_occurrences⟩
  case change =>
    intro d d' h
    by_cases hp : r.Places input source d
    · have hmem := (h.mem_occurrences hp).2
      exact ⟨(h.of_places hp).1, fun _ => standsAt_of_mem_occurrences hp.2.1 hmem,
        fun hnot => absurd hp hnot⟩
    · obtain rfl := h.of_not_places hp
      exact ⟨rfl, fun hplaces => absurd hplaces hp, fun _ => rfl⟩
  case pair =>
    intro a a' b b' ha hb hpa hpb htext
    have hle := ha.offset_le_iff hb hpa hpb htext
    have hge := hb.offset_le_iff ha hpb hpa htext.symm
    rw [← htext] at hge
    refine ⟨fun hoffset => hle.mpr (countBefore_mono hoffset), fun hma hmb hne heq => hne ?_⟩
    rw [← htext] at hmb
    exact countBefore_inj hpa.2.1 hma hmb (le_antisymm (hle.mp heq.le) (hge.mp heq.ge))
  case again =>
    intro d d' d'' h hp h'
    obtain ⟨htext, hmem⟩ := h.mem_occurrences hp
    exact h'.of_mem_occurrences (htext ▸ hmem)

/-- A closing mark that is reported at an offset. -/
def strayEnd (offset : Nat) : Diagnostic :=
  { defect := .unbalancedTag, offset, text := "<!--@end-->".toList, help := none,
    stage := .directives, file := "a.html".toList }

/-- Two marks of one text are placed behind a note that their stage did not read. -/
theorem stray_ends_behind_note :
    let r : Report := ⟨"a.html".toList, .directives, [strayEnd 0, strayEnd 12]⟩
    let input := "<!--@end-->,<!--@end-->".toList
    let source := "<!--// é -->".toList ++ input
    (r.relocate input source).items = [strayEnd 13, strayEnd 25] ∧
      StandsAt "<!--@end-->".toList source 13 ∧ StandsAt "<!--@end-->".toList source 25 ∧
      ∀ d, (r.relocate input source).Relocates source source (strayEnd 25) d →
        d = strayEnd 25 := by
  intro r input source
  obtain ⟨-, -, -, hchange, -, hagain, -⟩ := relocate_keeps_occurrences r input source
  have hitems : (r.relocate input source).items = [strayEnd 13, strayEnd 25] := by decide +kernel
  have hfirst : r.Relocates input source (strayEnd 0) (strayEnd 13) := ⟨0, rfl, by rw [hitems]; rfl⟩
  have hsecond : r.Relocates input source (strayEnd 12) (strayEnd 25) :=
    ⟨1, rfl, by rw [hitems]; rfl⟩
  have hp₁ : r.Places input source (strayEnd 0) := by decide +kernel
  have hp₂ : r.Places input source (strayEnd 12) := by decide +kernel
  exact ⟨hitems, (hchange _ _ hfirst).2.1 hp₁, (hchange _ _ hsecond).2.1 hp₂,
    fun d => hagain _ _ d hsecond hp₂⟩

end Stencil
