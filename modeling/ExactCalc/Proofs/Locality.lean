import ExactCalc.Proofs.FirstZero
import ExactCalc.Proofs.Stretch
/-!
# The fold of a span is local

When the turn of a span comes, each group inside it has come to a single number, so there is no parenthesis left between
its own.  The cells from its first slot to its last are then all that its fold needs and all that it changes, and they
come to the value of its group (`foldSpan_local`).
-/
namespace ExactCalc

section
variable {positions : List Nat} {done : List Span} {t : Token}

/-! ## No parenthesis is left -/

theorem HoldsNumber.notMem_parenthesis (ht : t = .opening ∨ t = .closing) {v : Rat} {cells : List Cell}
    (h : HoldsNumber v cells) : some t ∉ cells := by
  obtain ⟨k, m, rfl⟩ := h
  rcases ht with rfl | rfl <;> simp

theorem HoldsLinks.notMem_parenthesis (ht : t = .opening ∨ t = .closing) {slot : Nat} {links : List Link}
    {cells : List Cell} (h : HoldsLinks positions slot links cells) : some t ∉ cells := by
  induction h with
  | spent => simp
  | link _ _ ih => rcases ht with rfl | rfl <;> simpa using ih

theorem Sign.notMem_parenthesis (ht : t = .opening ∨ t = .closing) (sign : Option Sign) :
    some t ∉ Sign.cells sign := by
  rcases ht with rfl | rfl <;> cases sign <;> simp [Sign.cells]

theorem Expr.Row.notMem_parenthesis (ht : t = .opening ∨ t = .closing) {e : Expr} {depth slot : Nat}
    {cells : List Cell} (h : e.Row positions done depth slot cells) (hd : ∀ b ∈ e.inner depth slot, b.1 ∈ done) :
    some t ∉ cells := by
  obtain ⟨sign, first, rest⟩ := e
  obtain ⟨a, b, rfl, h₁, h₂⟩ := h
  obtain ⟨v, -, hn⟩ := h₁.holdsNumber fun b hb => hd b (List.mem_append_left _ hb)
  obtain ⟨links, -, hh⟩ := h₂.holdsLinks fun b hb => hd b (List.mem_append_right _ hb)
  rw [List.mem_append, List.mem_append]
  rintro ((h | h) | h)
  · exact Sign.notMem_parenthesis ht sign h
  · exact hn.notMem_parenthesis ht h
  · exact hh.notMem_parenthesis ht h

/-! ## Where a block stands -/

/-- The cells of a block that is next to be folded, from its first slot to its last, and how they fold: to the value of
the block, whatever cells stand around them. -/
structure Stands (positions : List Nat) (b : Span × Expr) (row pre cells post : List Cell) : Prop where
  eq    : row = pre ++ (cells ++ post)
  first : pre.length = b.1.first
  last  : pre.length + cells.length = b.1.last + 1
  flat  : ∀ t : Token, t = .opening ∨ t = .closing → some t ∉ (row.drop b.1.start).take (b.1.stop + 1 - b.1.start)
  folds : ∀ pre' post' : List Cell, pre'.length = b.1.first → FoldsIn positions b pre' cells post' fun folded =>
    ∃ v, b.2.value = some v ∧ HoldsNumber v folded

theorem drop_take_group (left body right : List Cell) (x y : Cell) :
    ((left ++ (x :: (body ++ [y]) ++ right)).drop (left.length + 1)).take
      (left.length + body.length + 1 - (left.length + 1)) = body := by
  rw [← List.drop_drop, List.drop_left]
  simp

theorem Focus.stands {b : Span × Expr} {row : List Cell} {after : List Cell → Prop}
    (h : Focus positions done 0 b row after) (hn : IsNext done b) :
    ∃ pre cells post, Stands positions b row pre cells post := by
  obtain ⟨depth, left, body, right, hspan, rfl, hrow, -⟩ := h
  obtain ⟨s, e⟩ := b
  dsimp only at hspan hrow
  subst hspan
  rw [Nat.zero_add] at hrow hn ⊢
  have hlen := hrow.length
  have hpos := e.length_lexemes_pos
  have hstop : (e.span (depth + 1) (left.length + 1)).stop = left.length + body.length := by
    rw [hlen, Expr.span]
    dsimp only
    omega
  refine ⟨left, some .opening :: (body ++ [some .closing]), right, rfl, rfl, ?_, fun t ht => ?_, ?_⟩
  · rw [Span.last, if_neg (by simp [Span.isRoot, Expr.span]), hstop]
    simp only [List.length_cons, List.length_append, List.length_nil]
    omega
  · rw [hstop, Expr.span]
    dsimp only
    rw [drop_take_group]
    exact hrow.notMem_parenthesis ht hn.2
  · intro pre' post' hpre
    obtain ⟨c, folded, hf, hv⟩ := hrow.foldsIn_group hn.2 pre' post' hpre (some .opening) (some .closing)
    exact ⟨c, folded, hf, fun hz => (hv hz).2⟩

theorem Expr.Row.stands {e : Expr} {row : List Cell} (h : e.Row positions done 0 0 row)
    (hn : IsNext done (e.span 0 0, e)) : ∃ pre cells post, Stands positions (e.span 0 0, e) row pre cells post := by
  have hpos := e.length_lexemes_pos
  have hlast : (e.span 0 0).last + 1 = row.length := by
    rw [Span.last, if_pos (by simp [Span.isRoot, Expr.span]), h.length, Expr.span]
    dsimp only
    omega
  refine ⟨[], row, [], by simp, rfl, ?_, fun t ht hm => ?_, fun pre' post' hpre => ?_⟩
  · rw [List.length_nil, Nat.zero_add]
    exact hlast.symm
  · exact h.notMem_parenthesis ht hn.2 (List.mem_of_mem_drop (List.mem_of_mem_take hm))
  · obtain rfl := List.eq_nil_of_length_eq_zero hpre
    exact h.foldsIn_root hn.2 post'

theorem Expr.Whole.stands {e : Expr} {row : List Cell} (h : e.Whole positions done row) {b : Span × Expr}
    (hb : b ∈ e.blocks 0 0) (hn : IsNext done b) : ∃ pre cells post, Stands positions b row pre cells post := by
  unfold Whole at h
  by_cases hd : e.span 0 0 ∈ done
  · rw [if_pos hd] at h
    rcases List.mem_append.1 hb with hb | hb
    · exact absurd (h.1 b hb) hn.1
    · rw [List.mem_singleton.1 hb] at hn
      exact absurd hd hn.1
  · rw [if_neg hd] at h
    rcases List.mem_append.1 hb with hb | hb
    · exact (h.focus b hb hn).stands hn
    · rw [List.mem_singleton.1 hb] at hn ⊢
      exact h.stands hn

/-! ## The fold -/

theorem FoldsAs.not_inconsistent {b : Span × Expr} {c : Chain} {row row' : List Cell}
    (h : FoldsAs positions b c row row') (i : Nat) (cause : Inconsistency) :
    (foldSpan positions b.1 row).problem ≠ some (.inconsistent i cause) := by
  rw [h.problem]
  cases c.zeroDivision? <;> simp

/-- **The fold of a block where it stands** is a run within its cells; it ends in a division by zero or with the value
of the block. -/
theorem Stands.foldsWithin {b : Span × Expr} {row pre cells post : List Cell}
    (h : Stands positions b row pre cells post) (events : List Event) (ts : List Slots.Task) :
    ∃ folded, (foldSpan positions b.1 row).cells = pre ++ (folded ++ post) ∧
      Slots.CompletesWithin positions b.1.first ⟨cells, events, .enter b.1 :: ts⟩
        { foldSpan positions b.1 row with cells := folded } ts ∧
      ((∃ i, (foldSpan positions b.1 row).problem = some (.divisionByZero i)) ∨
        (foldSpan positions b.1 row).problem = none ∧ ∃ v, b.2.value = some v ∧ HoldsNumber v folded) := by
  obtain ⟨rfl, hfirst, -, -, hfolds⟩ := h
  -- among spent cells and here, the fold does what one chain does
  obtain ⟨c, folded, hbare, hv⟩ := hfolds (List.replicate b.1.first none) [] List.length_replicate
  obtain ⟨c', _, hhere, -⟩ := hfolds pre post hfirst
  obtain rfl : c = c' := Option.some.inj (hbare.chain.symm.trans hhere.chain)
  have hwithin (ts : List Slots.Task) : Slots.CompletesWithin positions b.1.first ⟨cells, events, .enter b.1 :: ts⟩
      { foldSpan positions b.1 (List.replicate b.1.first none ++ (cells ++ [])) with cells := folded } ts := by
    obtain ⟨folded', hcells, hwithin⟩ :=
      Slots.completesWithin_of_bare (Nat.le_refl _) rfl hbare.not_inconsistent events ts
    rw [hbare.cells] at hcells
    rwa [List.append_cancel_right (List.append_cancel_left hcells)]
  obtain ⟨hcells, hevents⟩ := ((hwithin []).completes hfirst post).unique (Slots.completes_foldSpan b.1)
  refine ⟨folded, hcells.symm, ?_, ?_⟩
  · have h := hwithin ts
    dsimp only at hevents h
    rw [hevents, hbare.problem, ← hhere.problem] at h
    exact h
  · rw [hhere.problem]
    cases hz : c.zeroDivision? with
    | some i => exact .inl ⟨i, rfl⟩
    | none => exact .inr ⟨rfl, hv hz⟩

/-- The row before a block is folded, if the blocks before it are folded without a problem. -/
theorem Expr.exists_stands {e : Expr} {before after : List Span} {s : Span}
    (hs : e.reading.spans.deepestFirst = before ++ s :: after) {row : List Cell} {events : List Event}
    (hrow : foldSpans e.reading.positions before (e.reading.tokens.map some) = { cells := row, events := events }) :
    ∃ g pre cells post, (s, g) ∈ e.blocks 0 0 ∧ Stands e.reading.positions (s, g) row pre cells post := by
  rw [← e.map_fst_schedule] at hs
  obtain ⟨bs, bs', hsplit, rfl, hs'⟩ := List.map_eq_append_iff.1 hs
  obtain ⟨b, rest, rfl, rfl, -⟩ := List.map_eq_cons_iff.1 hs'
  have hmem (a : Span × Expr) (ha : a ∈ bs ++ b :: rest) : a ∈ e.blocks 0 0 :=
    (List.mergeSort_perm _ _).mem_iff.1 (hsplit ▸ ha)
  have hready : Ready [] e.schedule := Expr.ready_mergeSort (.refl _)
  rw [hsplit] at hready
  obtain ⟨hready, hnext, -⟩ := ready_append.1 hready
  obtain ⟨-, hproblem, hwhole⟩ := e.whole_fresh.foldSpans (fun a ha => hmem a (List.mem_append_left _ ha)) hready
  rw [hrow] at hproblem hwhole
  have hb : b ∈ e.blocks 0 0 := hmem b (List.mem_append_right _ List.mem_cons_self)
  obtain ⟨pre, cells, post, h⟩ := (hwhole (Option.map_eq_none_iff.1 hproblem.symm)).stands hb hnext
  exact ⟨b.2, pre, cells, post, hb, h⟩

end

/-- **The fold of a span is local.**  When the turn of a span comes, and the spans before it were folded without a
problem, no parenthesis is left in its slots.  Every step of its fold is the same whatever stands before its first slot,
from its opening parenthesis on if it has one, and after its last; those cells are not looked at and not changed.  The
fold ends in a division by zero, or else the slots of the span come to the value of its group, in one live cell. -/
theorem foldSpan_local {text : String} {r : Reading} (h : Reading.ofString text = .ok r) {before after : List Span}
    {s : Span} (hs : r.spans.deepestFirst = before ++ s :: after) {row : List Cell} {events : List Event}
    (hrow : foldSpans r.positions before (r.tokens.map some) = { cells := row, events := events }) :
    Slots.Reaches r.positions (.start r.spans (r.tokens.map some)) ⟨row, events, .enter s :: after.map .enter⟩ ∧
      some .opening ∉ (row.drop s.start).take (s.stop + 1 - s.start) ∧
      some .closing ∉ (row.drop s.start).take (s.stop + 1 - s.start) ∧
      ∃ (e g : Expr) (pre cells post folded : List Cell),
        e.Spells text.toList ∧ (s, g) ∈ e.blocks 0 0 ∧
        g.lexemes = (r.lexemes.drop s.start).take (s.stop + 1 - s.start) ∧
        row = pre ++ (cells ++ post) ∧ pre.length = s.first ∧ pre.length + cells.length = s.last + 1 ∧
        (foldSpan r.positions s row).cells = pre ++ (folded ++ post) ∧ folded.length = cells.length ∧
        Slots.CompletesWithin r.positions s.first ⟨cells, events, .enter s :: after.map .enter⟩
          { foldSpan r.positions s row with cells := folded } (after.map .enter) ∧
        ((∃ i, (foldSpan r.positions s row).problem = some (.divisionByZero i)) ∨
          (foldSpan r.positions s row).problem = none ∧ ∃ v, g.value = some v ∧ HoldsNumber v folded) := by
  obtain ⟨e, he, rfl⟩ := ofChars_eq_ok_iff_spells.1 h
  obtain ⟨g, pre, cells, post, hg, hstands⟩ := e.exists_stands hs hrow
  obtain ⟨folded, hcells, hwithin, hends⟩ := hstands.foldsWithin events (after.map .enter)
  refine ⟨?_, hstands.flat _ (.inl rfl), hstands.flat _ (.inr rfl), e, g, pre, cells, post, folded, he, hg,
    (Expr.lexemes_of_mem_blocks hg).symm, hstands.eq, hstands.first, hstands.last, hcells, ?_, hwithin, hends⟩
  · have hbefore := @Slots.completes_foldSpans e.reading.positions (e.reading.tokens.map some) []
      ((s :: after).map .enter) before
    rw [← List.map_append, ← hs, hrow] at hbefore
    obtain ⟨_, hreaches, rfl⟩ := hbefore
    exact hreaches
  · have hlen := length_foldSpan e.reading.positions s row
    dsimp only at hcells
    rw [hcells, hstands.eq] at hlen
    simpa using hlen

theorem foldSpan_local_signed_group : ∃ r row events, Reading.ofString "8/(-(3)2+1)5" = .ok r ∧
    r.spans.deepestFirst = [⟨2, 5, 5⟩] ++ ⟨1, 3, 10⟩ :: [⟨0, 0, 13⟩] ∧
    foldSpans r.positions [⟨2, 5, 5⟩] (r.tokens.map some) = { cells := row, events := events } ∧
    Slots.Reaches r.positions (.start r.spans (r.tokens.map some))
      ⟨row, events, [.enter ⟨1, 3, 10⟩, .enter ⟨0, 0, 13⟩]⟩ ∧
    ∃ (g : Expr) (pre cells post folded : List Cell), row = pre ++ (cells ++ post) ∧ pre.length = 2 ∧
      pre.length + cells.length = 12 ∧ (foldSpan r.positions ⟨1, 3, 10⟩ row).cells = pre ++ (folded ++ post) ∧
      Slots.CompletesWithin r.positions 2 ⟨cells, events, [.enter ⟨1, 3, 10⟩, .enter ⟨0, 0, 13⟩]⟩
        { foldSpan r.positions ⟨1, 3, 10⟩ row with cells := folded } [.enter ⟨0, 0, 13⟩] ∧
      (foldSpan r.positions ⟨1, 3, 10⟩ row).problem = none ∧ ∃ v, g.value = some v ∧ HoldsNumber v folded := by
  obtain ⟨r, row, events, h, hs, hrow, hproblem⟩ : ∃ r row events, Reading.ofString "8/(-(3)2+1)5" = .ok r ∧
      r.spans.deepestFirst = [⟨2, 5, 5⟩] ++ ⟨1, 3, 10⟩ :: [⟨0, 0, 13⟩] ∧
      foldSpans r.positions [⟨2, 5, 5⟩] (r.tokens.map some) = { cells := row, events := events } ∧
      (foldSpan r.positions ⟨1, 3, 10⟩ row).problem = none := ⟨_, _, _, rfl, by decide +kernel, rfl, by decide +kernel⟩
  obtain ⟨hreaches, -, -, e, g, pre, cells, post, folded, -, -, -, heq, hfirst, hlast, hcells, -, hwithin, hends⟩ :=
    foldSpan_local h hs hrow
  refine ⟨r, row, events, h, hs, hrow, hreaches, g, pre, cells, post, folded, heq, hfirst, hlast, hcells, hwithin, ?_⟩
  rcases hends with ⟨i, hi⟩ | hends
  · rw [hproblem] at hi
    cases hi
  · exact hends

end ExactCalc
