import ExactCalc.Proofs.Localisation
/-!
# Viable texts

A text is **viable** if some continuation of it is read.  That is so exactly if none of its characters has been refused
so far (`viable_iff_feed`): whatever is open can still be closed, and a missing operand can still be given.  So a problem
is noticed at the earliest character that leaves no hope, and no continuation changes it
(`ofString_fails_at_earliest`); what is noticed only at the end of a text can always be put right.
-/
namespace ExactCalc

/-- Some continuation of a text is read. -/
def Viable (cs : List Char) : Prop :=
  ∃ ds r, Reading.ofChars (cs ++ ds) = .ok r

/-! ## Every draft can be completed -/

theorem Lead.refuses_one (l : Lead) : l.refuses 1 = false := by
  unfold refuses
  split <;> rfl

namespace Draft

/-- What completes a draft: a number if an operand is missing, and the parentheses that are to be closed. -/
def completion (d : Draft) : List Char :=
  (if d.last.isSome then [] else ['1']) ++ List.replicate d.outer.length ')'

theorem read_closings : ∀ (fs : List (Lead × Nat)) (l : Lead) (x : Operand) (i : Nat),
    ∃ l' x', read ⟨fs, l, some x⟩ (placedFrom i (List.replicate fs.length ')')) = some ⟨[], l', some x'⟩
  | [],           l, x, _ => ⟨l, x, rfl⟩
  | (l', j) :: fs, l, x, i => by
    have hb : isBlank ')' = false := Symbol.closing.isBlank_char
    have h : read ⟨(l', j) :: fs, l, some x⟩ ((')', i) :: placedFrom (i + 1) (List.replicate fs.length ')')) =
        read ⟨fs, l', some (.group j (l.plug x .nil) i)⟩ (placedFrom (i + 1) (List.replicate fs.length ')')) :=
      read_cons _ .closing i _
    rw [List.length_cons, List.replicate_succ, placedFrom_cons, hb, if_neg Bool.false_ne_true, h]
    exact read_closings fs l' _ (i + 1)

theorem read_completion (d : Draft) (i : Nat) :
    ∃ l x, d.read (placedFrom i d.completion) = some ⟨[], l, some x⟩ := by
  obtain ⟨fs, l, last⟩ := d
  cases last with
  | some x => exact read_closings fs l x i
  | none =>
    have hb : isBlank '1' = false := (Symbol.digit 1).isBlank_char
    have h : read ⟨fs, l, none⟩ (('1', i) :: placedFrom (i + 1) (List.replicate fs.length ')')) =
        read ⟨fs, l, some (.number [(1, i)])⟩ (placedFrom (i + 1) (List.replicate fs.length ')')) := by
      rw [show '1' = (Symbol.digit 1).char from rfl, read_cons]
      simp only [put, l.refuses_one, Bool.false_eq_true, ↓reduceIte, Option.bind_some]
    have hc : completion ⟨fs, l, none⟩ = '1' :: List.replicate fs.length ')' := rfl
    rw [hc, placedFrom_cons, hb, if_neg Bool.false_ne_true, h]
    exact read_closings fs l _ (i + 1)

end Draft

/-- **A text is viable exactly if none of its visible characters is refused.** -/
theorem viable_iff_feed {cs : List Char} : Viable cs ↔ ∃ s, Scan.feed {} (placed cs) = .ok s := by
  constructor
  · rintro ⟨ds, r, h⟩
    obtain ⟨s, hs, -⟩ := ofChars_eq_ok_iff.1 h
    rw [placed_append, Scan.feed_append] at hs
    cases hf : Scan.feed {} (placed cs) with
    | ok s'   => exact ⟨s', rfl⟩
    | error p => simp [hf] at hs
  · rintro ⟨s, hs⟩
    obtain ⟨d, hd, -⟩ := Scan.exists_read_of_feed hs
    obtain ⟨l, x, hc⟩ := d.read_completion cs.length
    have hr : Draft.read {} (placed (cs ++ d.completion)) = some ⟨[], l, some x⟩ := by
      rw [placed_append, Draft.read_append, hd, Option.bind_some, hc]
    exact ⟨d.completion, _, ofChars_eq_ok_iff_spells.2 ⟨_, spells_iff_read.2 ⟨l, x, rfl, hr⟩, rfl⟩⟩

/-- Once a character is refused, what follows it does not matter. -/
theorem ofChars_of_feed_eq_error {cs : List Char} {p : Problem} (h : Scan.feed {} (placed cs) = .error p)
    (ds : List Char) : Reading.ofChars (cs ++ ds) = .error p := by
  have hf : Scan.feed {} (placedFrom 0 (cs ++ ds)) = .error p := by
    rw [placedFrom_zero, placed_append, Scan.feed_append, h]
  unfold Reading.ofChars
  rcases Scan.run_eq_feed (cs ++ ds) {} 0 with e | ⟨bs, o, s, -, e, -⟩
  · rw [e, hf]
  · rw [hf] at e
    cases e

/-! ## Where a problem is noticed -/

/-- A problem that is noticed only because the text ends. -/
def Problem.AtEnd (cs : List Char) : Problem → Prop
  | emptyExpression        => True
  | unmatchedParenthesis i => cs[i]? = some '('
  | trailingOperator i     => ∃ o : Op, cs[i]? = some o.symbol
  | _                      => False

/-- The character that a problem is noticed at: the one that it names, but a division by zero is named by the `/` and
noticed at the `0` after it. -/
def Problem.NoticedAt (cs : List Char) (k : Nat) : Problem → Prop
  | divisionByZero i =>
    i < k ∧ cs[i]? = some '/' ∧ cs[k]? = some '0' ∧ ∀ c ∈ (cs.take k).drop (i + 1), isBlank c = true
  | p => p.position? = some k

namespace Scan
variable {cs : List Char} {s : Scan} {p : Problem}

/-- **A character that is refused, wherever the text may end,** is the one at which the problem is noticed. -/
theorem Reaches.noticedAt {i : Nat} {c : Char} (h : Reaches cs i s) (hc : cs[i]? = some c)
    (hs : s.step i c false = .error p) : p.NoticedAt cs i ∧ ¬p.AtEnd cs := by
  by_cases hb : isBlank c = true
  · rw [step_of_isBlank hb] at hs
    cases hs
  cases hx : Symbol.ofChar? c with
  | none =>
    simp only [Scan.step, hb, hx, Bool.false_eq_true, ↓reduceIte] at hs
    cases hs
    exact ⟨rfl, id⟩
  | some x =>
    obtain rfl := Symbol.ofChar?_eq_some_iff.1 hx
    rw [step_char] at hs
    cases x with
    | digit d =>
      obtain ⟨q, ls, hl, hd, rfl⟩ := digit_eq_error hs
      obtain rfl : d = 0 := Fin.ext hd
      have hlast := (h.previous_eq hl rfl).2
      have hq := List.mem_of_getLast? hlast
      refine ⟨⟨?_, getElem?_of_mem_placed_take hq, hc, isBlank_after_last hlast⟩, id⟩
      have hlt := (List.getElem?_eq_some_iff.1 (mem_placed_iff.1 hq).1).1
      exact Nat.lt_of_lt_of_le hlt (List.length_take_le i cs)
    | opening => cases hs
    | op o =>
      rcases operator_eq_error hs with ⟨-, -, -, -, rfl⟩ | ⟨-, -, rfl⟩ | ⟨hf, -⟩
      · exact ⟨rfl, id⟩
      · exact ⟨rfl, id⟩
      · cases hf
    | closing =>
      rcases closing_eq_error hs with ⟨-, rfl⟩ | ⟨-, -, -, rfl⟩ | ⟨-, -, -, -, rfl⟩
      · refine ⟨rfl, fun he => ?_⟩
        rw [Problem.AtEnd, hc] at he
        cases he
      · exact ⟨rfl, id⟩
      · refine ⟨rfl, ?_⟩
        rintro ⟨o, ho⟩
        rw [hc] at ho
        cases o <;> cases ho

theorem Reaches.atEnd (h : Reaches cs cs.length s) (hs : s.finish = .error p) : p.AtEnd cs := by
  rcases finish_eq_error hs with ⟨-, rfl⟩ | ⟨o, os, hp, rfl⟩ | ⟨x, q, ls, hl, rfl⟩
  · trivial
  · refine h.getElem?_pending ?_
    rw [hp]
    exact List.mem_cons_self
  · exact ⟨x, getElem?_of_mem_placed_take (List.mem_of_getLast? (h.previous_eq hl rfl).2)⟩

end Scan

/-- **A text is refused at the earliest possible character.**  A problem that is noticed only because the text ends
leaves the text viable.  Any other is noticed at a character up to which the text is viable and with which it is not,
and it stays the same whatever follows that character. -/
theorem ofString_fails_at_earliest {text : String} {p : Problem} (h : Reading.ofString text = .error p) :
    (p.AtEnd text.toList → Viable text.toList) ∧
      (¬p.AtEnd text.toList → ∃ k, p.NoticedAt text.toList k ∧ Viable (text.toList.take k) ∧
        ¬Viable (text.toList.take (k + 1)) ∧
        ∀ ds, Reading.ofChars (text.toList.take (k + 1) ++ ds) = .error p) := by
  rcases Scan.exists_reaches_of_error h with ⟨i, s, c, hr, hc, hs⟩ | ⟨s, hr, hs⟩
  · have hfeed := Scan.feed_take_succ hr.feed hc
    by_cases hf : s.step i c false = .error p
    · obtain ⟨hn, he⟩ := hr.noticedAt hc hf
      rw [hf] at hfeed
      refine ⟨fun ha => absurd ha he, fun _ => ⟨i, hn, viable_iff_feed.2 ⟨s, hr.feed⟩, fun hv => ?_,
        ofChars_of_feed_eq_error hfeed⟩⟩
      obtain ⟨t, ht⟩ := viable_iff_feed.1 hv
      rw [hfeed] at ht
      cases ht
    · -- only an operator is refused for being the last character
      have hlast : i + 1 = text.toList.length := by
        refine Classical.byContradiction fun hne => hf ?_
        rwa [decide_eq_false hne] at hs
      rw [decide_eq_true hlast] at hs
      have hne : s.step i c true ≠ s.step i c false := fun e => hf (e ▸ hs)
      obtain ⟨o, rfl, hok, he⟩ := (s.step_final i c).resolve_left hne
      rw [he] at hs
      cases hs
      rw [hok, hlast, List.take_length] at hfeed
      exact ⟨fun _ => viable_iff_feed.2 ⟨_, hfeed⟩, fun hn => absurd ⟨o, hc⟩ hn⟩
  · have hfeed := hr.feed
    rw [List.take_length] at hfeed
    exact ⟨fun _ => viable_iff_feed.2 ⟨s, hfeed⟩, fun hn => absurd (hr.atEnd hs) hn⟩

theorem ofString_fails_at_zero :
    Reading.ofString "2(5/ 07" = .error (.divisionByZero 3) ∧ ¬(Problem.divisionByZero 3).AtEnd "2(5/ 07".toList ∧
      ∃ k, (Problem.divisionByZero 3).NoticedAt "2(5/ 07".toList k ∧ Viable ("2(5/ 07".toList.take k) ∧
        ¬Viable ("2(5/ 07".toList.take (k + 1)) ∧
        ∀ ds, Reading.ofChars ("2(5/ 07".toList.take (k + 1) ++ ds) = .error (.divisionByZero 3) := by
  have h : Reading.ofString "2(5/ 07" = .error (.divisionByZero 3) := by cbv
  exact ⟨h, id, (ofString_fails_at_earliest h).2 id⟩

end ExactCalc
