import ExactCalc.Proofs.Acceptance
/-!
# The states of a scan

The states that the scan of a text goes through, one before each character (`Scan.Reaches`); a scan ends in the last of
them or at a problem of a step from one of them (`Scan.exists_reaches_of_error`).  Each is the state that the visible
characters so far are fed into (`Scan.Reaches.feed`), so it is that of a draft which has been read from them
(`Scan.exists_read_of_feed`).
-/
namespace ExactCalc
namespace Scan

/-- The scan of a text is in this state before the character at position `i`. -/
inductive Reaches (cs : List Char) : Nat → Scan → Prop
  | start : Reaches cs 0 {}
  | step {i : Nat} {s s' : Scan} {c : Char} : Reaches cs i s → cs[i]? = some c →
      s.step i c (decide (i + 1 = cs.length)) = .ok s' → Reaches cs (i + 1) s'

theorem Reaches.run {cs : List Char} : ∀ {rest : List Char} {i : Nat} {s : Scan}, Reaches cs i s → cs.drop i = rest →
    match s.run i rest with
    | .ok s'   => Reaches cs cs.length s'
    | .error p => ∃ j t c, Reaches cs j t ∧ cs[j]? = some c ∧ t.step j c (decide (j + 1 = cs.length)) = .error p
  | [], i, s, h, hr => by
    have hle : cs.length ≤ i := List.drop_eq_nil_iff.1 hr
    have hge : i ≤ cs.length := by
      cases h with
      | start => exact Nat.zero_le _
      | step _ hc _ => exact (List.getElem?_eq_some_iff.1 hc).1
    rw [Scan.run, Nat.le_antisymm hle hge]
    exact h
  | c :: rest, i, s, h, hr => by
    have hc : cs[i]? = some c := by
      rw [← List.head?_drop, hr]
      rfl
    have hrest : cs.drop (i + 1) = rest := by rw [← List.tail_drop, hr, List.tail_cons]
    have hfinal : rest.isEmpty = decide (i + 1 = cs.length) := by
      have hl := congrArg List.length hrest
      have hi := (List.getElem?_eq_some_iff.1 hc).1
      rw [List.length_drop] at hl
      cases rest with
      | nil       => simp only [List.isEmpty_nil, List.length_nil] at hl ⊢; simp; omega
      | cons d ds => simp only [List.isEmpty_cons, List.length_cons] at hl ⊢; simp; omega
    rw [Scan.run, hfinal]
    cases hs : s.step i c (decide (i + 1 = cs.length)) with
    | error p => exact ⟨i, s, c, h, hc, hs⟩
    | ok s'   => exact (h.step hc hs).run hrest

/-- The problem of a text is that of a step from a state that is reached, or that of the end. -/
theorem exists_reaches_of_error {cs : List Char} {p : Problem} (h : Reading.ofChars cs = .error p) :
    (∃ i s c, Reaches cs i s ∧ cs[i]? = some c ∧ s.step i c (decide (i + 1 = cs.length)) = .error p) ∨
      ∃ s, Reaches cs cs.length s ∧ s.finish = .error p := by
  have hr := (@Reaches.start cs).run List.drop_zero
  unfold Reading.ofChars at h
  cases hs : Scan.run {} 0 cs with
  | error q =>
    rw [hs] at h hr
    cases h
    exact .inl hr
  | ok s =>
    rw [hs] at h hr
    exact .inr ⟨s, hr, h⟩

/-! ## Reached states and drafts -/

theorem placed_take_succ {cs : List Char} {i : Nat} {c : Char} (h : cs[i]? = some c) :
    placed (cs.take (i + 1)) = placed (cs.take i) ++ if isBlank c then [] else [(c, i)] := by
  have hi := (List.getElem?_eq_some_iff.1 h).1
  rw [List.take_add_one, h, placed_append, List.length_take_of_le (Nat.le_of_lt hi), Option.toList_some,
    placedFrom_cons, placedFrom_nil]

/-- The visible characters up to one more, fed to a scan that has read those before it. -/
theorem feed_take_succ {cs : List Char} {i : Nat} {c : Char} {s : Scan} (hf : feed {} (placed (cs.take i)) = .ok s)
    (hc : cs[i]? = some c) : feed {} (placed (cs.take (i + 1))) = s.step i c false := by
  rw [placed_take_succ hc, feed_append, hf]
  by_cases hb : isBlank c = true
  · rw [if_pos hb, step_of_isBlank hb]
    rfl
  · rw [if_neg hb]
    dsimp only [feed]
    cases s.step i c false <;> rfl

/-- **A reached state is that of a feed** of the visible characters before it. -/
theorem Reaches.feed {cs : List Char} {i : Nat} {s : Scan} (h : Reaches cs i s) :
    feed {} (placed (cs.take i)) = .ok s := by
  induction h with
  | start => rfl
  | step _ hc hs ih => rw [feed_take_succ ih hc, step_ok_of_final hs]

/-- **The state that a feed ends in is that of the draft** that is read from what was fed. -/
theorem exists_read_of_feed {cs : List Char} {s : Scan} (h : feed {} (placed cs) = .ok s) :
    ∃ d : Draft, Draft.read {} (placed cs) = some d ∧ d.scan = s := by
  have hb : ∀ p ∈ placed cs, isBlank p.1 = false := fun _ => not_isBlank_of_mem_placed
  have hf := Draft.feed_scan Draft.wellFormed_empty hb
  have h₀ : Draft.scan {} = {} := rfl
  rw [h₀, h] at hf
  cases hd : Draft.read {} (placed cs) with
  | none =>
    rw [hd] at hf
    obtain ⟨p, hf⟩ := hf
    cases hf
  | some d =>
    rw [hd] at hf
    cases hf
    exact ⟨d, rfl, rfl⟩

theorem Reaches.exists_draft {cs : List Char} {i : Nat} {s : Scan} (h : Reaches cs i s) :
    ∃ d : Draft, d.WellFormed ∧ d.scan = s ∧ d.write = placed (cs.take i) := by
  obtain ⟨d, hd, hs⟩ := exists_read_of_feed h.feed
  exact ⟨d, Draft.wellFormed_read Draft.wellFormed_empty hd, hs, Draft.write_read hd⟩

end Scan

end ExactCalc
