import ExactCalc.Proofs.Evaluation
/-!
# Spent cells are transparent

A flat expression is folded alike wherever the cells stand that are spent already: in the row, and in the row without
them (`foldTable_filter`).  Both rows hold the same links, so both folds do what one chain does.
-/
namespace ExactCalc

/-! ## Flat expressions -/

def linkCells (links : List (Op × Rat)) : List Cell :=
  links.flatMap fun l => [some (.op l.1), some (.num l.2)]

/-- **A row that holds a flat expression**: a number, perhaps after a sign, and any further numbers, each after an
operator.  Spent cells may stand anywhere but before the sign. -/
structure HoldsFlat (sign : Option Sign) (a : Rat) (links : List (Op × Rat)) (cells : List Cell) : Prop where
  live    : cells.filter Option.isSome = Sign.cells sign ++ some (.num a) :: linkCells links
  leading : ∀ s ∈ sign, cells.head? = some (some (.op s.op))

def flatTree (sign : Option Sign) (a : Rat) (links : List (Op × Rat)) : Tree :=
  Tree.group none (Sign.apply sign (.number a)) (links.map fun l => (l.1, .number l.2))

/-- A slot holds a `/`, and the next live cell after it the number 0. -/
def DividesByZeroAt (cells : List Cell) (slot : Nat) : Prop :=
  cells[slot]? = some (some (.op .div)) ∧ (cells.drop (slot + 1)).find? Option.isSome = some (some (.num 0))

/-- The leftmost `/` before the number 0; the first cell is in `slot`. -/
def leftmostZero? : Nat → List Cell → Option Nat
  | _,    []         => none
  | slot, c :: cells =>
    if c = some (.op .div) ∧ cells.find? Option.isSome = some (some (.num 0)) then some slot
    else leftmostZero? (slot + 1) cells

theorem leftmostZero?_eq_some {slot j : Nat} {cells : List Cell} (h : leftmostZero? slot cells = some j) :
    ∃ k, j = slot + k ∧ DividesByZeroAt cells k ∧ ∀ i < k, ¬DividesByZeroAt cells i := by
  induction cells generalizing slot with
  | nil => cases h
  | cons c cells ih =>
    unfold leftmostZero? at h
    split at h
    · rename_i hc
      cases h
      exact ⟨0, rfl, ⟨congrArg some hc.1, hc.2⟩, fun i hi => absurd hi (Nat.not_lt_zero i)⟩
    · rename_i hc
      obtain ⟨k, rfl, hk, hleft⟩ := ih h
      refine ⟨k + 1, by omega, hk, fun i hi hz => ?_⟩
      cases i with
      | zero   => exact hc ⟨Option.some.inj hz.1, hz.2⟩
      | succ i => exact hleft i (by omega) hz

theorem leftmostZero?_eq_none {slot : Nat} {cells : List Cell} (h : leftmostZero? slot cells = none) :
    ∀ k, ¬DividesByZeroAt cells k := by
  induction cells generalizing slot with
  | nil => exact fun k hz => by cases hz.1
  | cons c cells ih =>
    unfold leftmostZero? at h
    split at h
    · cases h
    · rename_i hc
      intro k hz
      cases k with
      | zero   => exact hc ⟨Option.some.inj hz.1, hz.2⟩
      | succ k => exact ih h k hz

section
variable {positions : List Nat}

/-! ## The links of a row -/

theorem leftmostZero?_append : ∀ (slot : Nat) {u : List Cell} (cells : List Cell), (∀ c ∈ u, c ≠ some (.op .div)) →
    leftmostZero? slot (u ++ cells) = leftmostZero? (slot + u.length) cells
  | _,    [],     _,     _ => rfl
  | slot, c :: u, cells, h => by
    rw [List.cons_append, leftmostZero?, if_neg fun hz => h c List.mem_cons_self hz.1,
      leftmostZero?_append (slot + 1) cells fun d hd => h d (List.mem_cons_of_mem c hd), List.length_cons,
      Nat.add_right_comm, Nat.add_assoc]

theorem ne_div_of_mem_replicate {k : Nat} {c : Cell} (hc : c ∈ List.replicate k none) : c ≠ some (.op .div) := by
  rw [List.eq_of_mem_replicate hc]
  simp

theorem leftmostZero?_replicate (slot k : Nat) (cells : List Cell) :
    leftmostZero? slot (List.replicate k none ++ cells) = leftmostZero? (slot + k) cells := by
  rw [leftmostZero?_append slot cells fun _ => ne_div_of_mem_replicate, List.length_replicate]

theorem find?_replicate_none (k : Nat) (t : Token) (cells : List Cell) :
    (List.replicate k none ++ some t :: cells).find? Option.isSome = some (some t) := by
  rw [List.find?_append]
  simp

/-- **The leftmost division by zero of a chain is the leftmost one of its row.** -/
theorem HoldsLinks.zeroDivision? (a : Rat) {slot : Nat} {ls : List Link} {cells : List Cell}
    (h : HoldsLinks positions slot ls cells) :
    (Chain.mk a ls).zeroDivision? = (leftmostZero? slot cells).map (positionAt positions) := by
  induction h with
  | spent slot n =>
    have hn := leftmostZero?_replicate slot n []
    rw [List.append_nil] at hn
    rw [hn]
    rfl
  | @link slot k m l ls cells hp h ih =>
    rw [Chain.zeroDivision?_cons a a, leftmostZero?_replicate, leftmostZero?, find?_replicate_none]
    by_cases hz : l.op = .div ∧ l.operand = 0
    · rw [if_pos hz, if_pos ⟨by rw [hz.1], by rw [hz.2]⟩, Option.map_some, hp hz.1]
    · have hz' : ¬(some (Token.op l.op) = some (.op .div) ∧
          some (some (Token.num l.operand)) = some (some (.num 0))) := by
        simpa using hz
      rw [if_neg hz, if_neg hz', leftmostZero?_replicate, leftmostZero?, if_neg fun h => by cases h.1]
      exact ih

/-- The first live cell, and the spent ones before it. -/
theorem exists_of_filter_eq_cons {cells rest : List Cell} {t : Token}
    (h : cells.filter Option.isSome = some t :: rest) :
    ∃ k far, cells = List.replicate k none ++ some t :: far ∧ far.filter Option.isSome = rest := by
  obtain ⟨before, far, rfl, hbefore, -, hfar⟩ := List.filter_eq_cons_iff.1 h
  have hspent : before = List.replicate before.length none :=
    List.eq_replicate_iff.2 ⟨rfl, fun c hc => by simpa using hbefore c hc⟩
  exact ⟨before.length, far, by rw [← hspent], hfar⟩

theorem exists_holdsLinks (positions : List Nat) : ∀ {links : List (Op × Rat)} {cells : List Cell} (slot : Nat),
    cells.filter Option.isSome = linkCells links →
      ∃ ls, ls.map (fun l : Link => (l.op, l.operand)) = links ∧ HoldsLinks positions slot ls cells
  | [],               cells, slot, h => by
    have hspent : cells = List.replicate cells.length none :=
      List.eq_replicate_iff.2 ⟨rfl, fun c hc => by simpa using List.filter_eq_nil_iff.1 h c hc⟩
    rw [hspent]
    exact ⟨[], rfl, .spent slot _⟩
  | (op, b) :: links, cells, slot, h => by
    obtain ⟨k, far, rfl, hfar⟩ := exists_of_filter_eq_cons h
    obtain ⟨m, rest, rfl, hrest⟩ := exists_of_filter_eq_cons hfar
    obtain ⟨ls, rfl, hls⟩ := exists_holdsLinks positions (slot + k + 1 + m + 1) hrest
    exact ⟨⟨op, positionAt positions (slot + k), b⟩ :: ls, rfl, .link (fun _ => rfl) hls⟩

theorem liveTokens_append : ∀ (slot : Nat) (a b : List Cell),
    liveTokens slot (a ++ b) = liveTokens slot a ++ liveTokens (slot + a.length) b
  | _,    [],          _ => rfl
  | slot, none :: a,   b => by
    rw [List.cons_append, liveTokens, liveTokens, liveTokens_append, List.length_cons, Nat.add_right_comm, Nat.add_assoc]
  | slot, some t :: a, b => by
    rw [List.cons_append, liveTokens, liveTokens, liveTokens_append, List.length_cons, Nat.add_right_comm, Nat.add_assoc,
      List.cons_append]

/-- The positions of the live cells. -/
def livePositions (positions : List Nat) (slot : Nat) (cells : List Cell) : List Nat :=
  (liveTokens slot cells).map fun x => positionAt positions x.1

theorem livePositions_append (slot : Nat) (a b : List Cell) :
    livePositions positions slot (a ++ b) =
      livePositions positions slot a ++ livePositions positions (slot + a.length) b := by
  rw [livePositions, liveTokens_append, List.map_append]
  rfl

/-- **A row without its spent cells holds the same links**; the positions are carried along. -/
theorem HoldsLinks.filter {slot : Nat} {ls : List Link} {cells : List Cell} (h : HoldsLinks positions slot ls cells) :
    ∀ before : List Nat, HoldsLinks (before ++ livePositions positions slot cells) before.length ls
      (cells.filter Option.isSome) := by
  induction h with
  | spent slot n =>
    intro before
    have hnone : (List.replicate n (none : Cell)).filter Option.isSome = List.replicate 0 none := by simp
    rw [hnone]
    exact .spent _ 0
  | @link slot k m l ls cells hp h ih =>
    intro before
    have hlive : livePositions positions slot (List.replicate k none ++ some (.op l.op) ::
        (List.replicate m none ++ some (.num l.operand) :: cells)) = positionAt positions (slot + k) ::
          positionAt positions (slot + k + 1 + m) :: livePositions positions (slot + k + 1 + m + 1) cells := by
      rw [livePositions, liveTokens_replicate, liveTokens, liveTokens_replicate, liveTokens]
      rfl
    have hfilter : (List.replicate k none ++ some (Token.op l.op) ::
        (List.replicate m none ++ some (Token.num l.operand) :: cells)).filter Option.isSome =
          List.replicate 0 none ++ some (.op l.op) ::
            (List.replicate 0 none ++ some (.num l.operand) :: cells.filter Option.isSome) := by
      simp
    rw [hlive, hfilter]
    refine .link (fun ho => ?_) ?_
    · rw [← hp ho]
      simp [positionAt]
    · -- the two positions of the link now stand before those of the rest
      have h := ih (before ++ [positionAt positions (slot + k), positionAt positions (slot + k + 1 + m)])
      simpa using h

/-- The same links after a sign and a number, of which all spent cells are dropped as well. -/
theorem HoldsLinks.filter_row {sign : Option Sign} {ls : List Link} {rest : List Cell} (a : Rat) (k : Nat)
    (h : HoldsLinks positions ((Sign.cells sign).length + (k + 1)) ls rest) :
    HoldsLinks (livePositions positions 0 (Sign.cells sign ++ (List.replicate k none ++ some (.num a) :: rest)))
      ((Sign.cells sign).length + (0 + 1)) ls (rest.filter Option.isSome) := by
  have hrow : Sign.cells sign ++ (List.replicate k none ++ some (Token.num a) :: rest) =
      Sign.cells sign ++ (List.replicate k none ++ [some (.num a)]) ++ rest := by simp
  have hlen : (Sign.cells sign ++ (List.replicate k none ++ [some (Token.num a)])).length =
      (Sign.cells sign).length + (k + 1) := by simp
  have hlive : (livePositions positions 0 (Sign.cells sign ++ (List.replicate k none ++ [some (.num a)]))).length =
      (Sign.cells sign).length + (0 + 1) := by
    rw [livePositions, List.length_map, liveTokens_append, liveTokens_replicate]
    cases sign <;> rfl
  have hp := h.filter (livePositions positions 0 (Sign.cells sign ++ (List.replicate k none ++ [some (.num a)])))
  rwa [hlive, ← hlen, ← Nat.zero_add (List.length _), ← livePositions_append, ← hrow] at hp

/-! ## Folding the row -/

/-- A table of the root alone: what the fold of the row does is all that is done. -/
theorem foldTable_root {cells cells' : List Cell} {c : Chain} (hcells : cells ≠ [])
    (h : foldSigned positions 0 (cells.length - 1) cells = c.folding cells') {f : Folded}
    (hf : foldTable positions (SpanTable.ofList [⟨0, 0, cells.length - 1⟩]) cells = f) :
    f.cells = cells' ∧ f.steps = c.steps ∧ f.answer = match c.zeroDivision? with
      | some i => .error (.divisionByZero i)
      | none   => soleNumber positions cells' := by
  have hlen := List.length_pos_iff.2 hcells
  have hfits : (Span.mk 0 0 (cells.length - 1)).fits cells.length = true := by
    simp only [Span.fits, Span.isRoot, beq_self_eq_true, ↓reduceIte, Bool.and_eq_true, decide_eq_true_eq]
    omega
  have hspan : foldSpan positions ⟨0, 0, cells.length - 1⟩ cells = { c.folding cells' with
      events := .entered ⟨0, 0, cells.length - 1⟩ (cells.take (cells.length - 1 + 1)) :: c.steps.map .folded } := by
    rw [foldSpan, if_pos hfits, show spendParentheses ⟨0, 0, cells.length - 1⟩ cells = cells from rfl, h]
    rfl
  have hsteps : (Event.entered ⟨0, 0, cells.length - 1⟩ (cells.take (cells.length - 1 + 1)) ::
      c.steps.map .folded).filterMap Event.step? = c.steps := filterMap_step?_folded c.steps
  have hspans : (SpanTable.ofList [⟨0, 0, cells.length - 1⟩]).deepestFirst = [⟨0, 0, cells.length - 1⟩] := rfl
  rw [foldTable, hspans, foldSpans, hspan, Folding.andThen] at hf
  subst hf
  cases hz : c.zeroDivision? with
  | some i => simp [Chain.folding, hz, Folded.steps, hsteps]
  | none   => simp [Chain.folding, hz, Folded.steps, foldSpans, hsteps]

/-- **A row of a sign, a number and links, wherever its spent cells are, does what its chain does.** -/
theorem foldTable_chain {sign : Option Sign} {a : Rat} {k : Nat} {ls : List Link} {rest cells : List Cell}
    (hls : HoldsLinks positions ((Sign.cells sign).length + (k + 1)) ls rest)
    (hcells : cells = Sign.cells sign ++ (List.replicate k none ++ some (.num a) :: rest)) {f : Folded}
    (hf : foldTable positions (SpanTable.ofList [⟨0, 0, cells.length - 1⟩]) cells = f) :
    let c := Chain.mk (Sign.number sign a) ls
    f.steps = c.steps ∧ (∀ i, c.zeroDivision? = some i → f.answer = .error (.divisionByZero i)) ∧
      ∀ v, c.value = some v → f.answer = .ok v ∧ HoldsNumber v f.cells := by
  intro c
  have hrow : cells = Sign.cells sign ++ (List.replicate k none ++ [some (.num a)]) ++ rest := by simp [hcells]
  have hne : cells ≠ [] := by simp [hcells]
  have hlen := List.length_pos_iff.2 hne
  have hnum : HoldsNumber a (List.replicate k none ++ [some (.num a)]) := ⟨k, 0, rfl⟩
  have hstop : cells.length - 1 + 1 = ([] : List Cell).length +
      (Sign.cells sign ++ (List.replicate k none ++ [some (Token.num a)]) ++ rest).length := by
    rw [← hrow, List.length_nil]
    omega
  obtain ⟨cells', -, hfold, hv⟩ := foldSigned_chain [] [] hnum (by simpa using hls) hstop
  rw [← hrow, List.nil_append, List.nil_append, List.append_nil, List.append_nil] at hfold
  obtain ⟨hc, hsteps, hanswer⟩ := foldTable_root hne hfold hf
  refine ⟨hsteps, fun i hi => ?_, fun v hcv => ?_⟩
  · rw [hanswer, hi]
  · have hz : c.zeroDivision? = none := by
      unfold Chain.value at hcv
      split at hcv
      · cases hcv
      · rename_i hz
        simpa using hz
    rw [hanswer, hz, hc]
    exact ⟨soleNumber_of_holdsNumber (hv v hcv), hv v hcv⟩

end

theorem HoldsFlat.exists_split {sign : Option Sign} {a : Rat} {links : List (Op × Rat)} {cells : List Cell}
    (h : HoldsFlat sign a links cells) :
    ∃ k rest, cells = Sign.cells sign ++ (List.replicate k none ++ some (.num a) :: rest) ∧
      rest.filter Option.isSome = linkCells links := by
  cases sign with
  | none => exact exists_of_filter_eq_cons h.live
  | some s =>
    obtain ⟨cells', rfl⟩ : ∃ cells', cells = some (.op s.op) :: cells' := List.head?_eq_some_iff.1 (h.leading s rfl)
    obtain ⟨k, rest, rfl, hrest⟩ := exists_of_filter_eq_cons (List.cons.inj h.live).2
    exact ⟨k, rest, rfl, hrest⟩

/-- The value of a flat expression is that of its chain. -/
theorem value_flatTree (sign : Option Sign) (a : Rat) (ls : List Link) :
    (flatTree sign a (ls.map fun l => (l.op, l.operand))).value = (Chain.mk (Sign.number sign a) ls).value := by
  have hts : ((ls.map fun l => (l.op, l.operand)).map fun l => (l.1, Tree.number l.2)).map (fun t => (t.1, t.2.value)) =
      ls.map fun l => (l.op, some l.operand) := by
    rw [List.map_map, List.map_map]
    rfl
  have hw : ∀ p ∈ (none : Option (Rat × Op)), p.2.isMultiplicative = false := fun _ hp => by cases hp
  exact Chain.value_group hts rfl hw (by rw [Sign.value_apply]; rfl)

/-- Before the first link there is no `/`. -/
theorem leftmostZero?_links (sign : Option Sign) (a : Rat) (k : Nat) (rest : List Cell) :
    leftmostZero? 0 (Sign.cells sign ++ (List.replicate k none ++ some (.num a) :: rest)) =
      leftmostZero? ((Sign.cells sign).length + (k + 1)) rest := by
  have hsign : ∀ c ∈ Sign.cells sign, c ≠ some (.op .div) := by
    match sign with
    | none            => simp [Sign.cells]
    | some ⟨true, _⟩  => simp [Sign.cells, Sign.op]
    | some ⟨false, _⟩ => simp [Sign.cells, Sign.op]
  rw [leftmostZero?_append 0 _ hsign, leftmostZero?_replicate, leftmostZero?, if_neg (by simp), Nat.zero_add,
    Nat.add_assoc]

/-- **Spent cells are transparent.**  A row that holds a flat expression is folded as the row without its spent cells:
with the same answer, and with the same lines in every trace.  The answer is a division by zero, at the position of the
leftmost `/` before the number 0, if there is one; and else the exact value, which is then the only live cell. -/
theorem foldTable_filter {sign : Option Sign} {a : Rat} {links : List (Op × Rat)} {cells : List Cell}
    (h : HoldsFlat sign a links cells) (positions : List Nat) (before : String) :
    let live := cells.filter Option.isSome
    let f := foldTable positions (SpanTable.ofList [⟨0, 0, cells.length - 1⟩]) cells
    let g := foldTable (livePositions positions 0 cells) (SpanTable.ofList [⟨0, 0, live.length - 1⟩]) live
    f.answer = g.answer ∧ f.steps = g.steps ∧ f.trace before = g.trace before ∧
      ((∃ slot, DividesByZeroAt cells slot ∧ (∀ k < slot, ¬DividesByZeroAt cells k) ∧
          f.answer = .error (.divisionByZero (positionAt positions slot))) ∨
        (∀ slot, ¬DividesByZeroAt cells slot) ∧ ∃ v, (flatTree sign a links).value = some v ∧
          f.answer = .ok v ∧ HoldsNumber v f.cells ∧ HoldsNumber v g.cells) := by
  intro live f g
  obtain ⟨k, rest, hcells, hrest⟩ := h.exists_split
  obtain ⟨ls, rfl, hls⟩ := exists_holdsLinks positions ((Sign.cells sign).length + (k + 1)) hrest
  obtain ⟨hsteps, herror, hok⟩ := foldTable_chain (f := f) hls hcells rfl
  have hlive : live = Sign.cells sign ++ (List.replicate 0 none ++ some (.num a) :: rest.filter Option.isSome) := by
    rw [hrest]
    exact h.live
  have hls' := hls.filter_row a k
  rw [← hcells] at hls'
  obtain ⟨hsteps', herror', hok'⟩ := foldTable_chain (f := g) hls' hlive rfl
  have hs : f.steps = g.steps := hsteps.trans hsteps'.symm
  have ht : f.trace before = g.trace before := by rw [Folded.trace, hs, Folded.trace]
  -- both folds do the same chain; what it comes to is read off the row
  have hzero := hls.zeroDivision? (Sign.number sign a)
  rw [← leftmostZero?_links, ← hcells] at hzero
  cases hz : leftmostZero? 0 cells with
  | some j =>
    rw [hz, Option.map_some] at hzero
    obtain ⟨slot, hj, hslot, hleft⟩ := leftmostZero?_eq_some hz
    rw [Nat.zero_add] at hj
    subst hj
    have hf := herror _ hzero
    exact ⟨hf.trans (herror' _ hzero).symm, hs, ht, .inl ⟨j, hslot, hleft, hf⟩⟩
  | none =>
    rw [hz, Option.map_none] at hzero
    obtain ⟨v, hv⟩ : ∃ v, (Chain.mk (Sign.number sign a) ls).value = some v := by
      rw [Chain.value, hzero]
      exact ⟨_, rfl⟩
    obtain ⟨hf, hnum⟩ := hok v hv
    obtain ⟨hg, hnum'⟩ := hok' v hv
    exact ⟨hf.trans hg.symm, hs, ht, .inr ⟨leftmostZero?_eq_none hz, v, (value_flatTree sign a ls).trans hv, hf, hnum,
      hnum'⟩⟩

theorem foldTable_filter_signed_quotient :
    let cells : List Cell := [some (.op .sub), none, some (.num (1 / 2)), none, none, some (.op .div), none,
      some (.num 3), some (.op .add), some (.num 4), none]
    let live := cells.filter Option.isSome
    let f := foldTable [7, 8] (SpanTable.ofList [⟨0, 0, cells.length - 1⟩]) cells
    let g := foldTable (livePositions [7, 8] 0 cells) (SpanTable.ofList [⟨0, 0, live.length - 1⟩]) live
    HoldsFlat (some ⟨true, 0⟩) (1 / 2) [(.div, 3), (.add, 4)] cells ∧ f.answer = .ok (23 / 6) ∧
      f.answer = g.answer ∧ f.steps = g.steps ∧ f.trace "1 + 1 = 2" = g.trace "1 + 1 = 2" ∧
      ((∃ slot, DividesByZeroAt cells slot ∧ (∀ k < slot, ¬DividesByZeroAt cells k) ∧
          f.answer = .error (.divisionByZero (positionAt [7, 8] slot))) ∨
        (∀ slot, ¬DividesByZeroAt cells slot) ∧ ∃ v,
          (flatTree (some ⟨true, 0⟩) (1 / 2) [(.div, 3), (.add, 4)]).value = some v ∧
            f.answer = .ok v ∧ HoldsNumber v f.cells ∧ HoldsNumber v g.cells) := by
  intro cells live f g
  have h : HoldsFlat (some ⟨true, 0⟩) (1 / 2) [(.div, 3), (.add, 4)] cells := by
    constructor
    · rfl
    · rintro s ⟨⟩
      rfl
  exact ⟨h, by decide +kernel, foldTable_filter h [7, 8] "1 + 1 = 2"⟩

example : (foldTable [9, 8, 7, 6, 5] (SpanTable.ofList [⟨0, 0, 6⟩])
    [some (.num 1), none, some (.op .sub), some (.num 4), some (.op .div), none, some (.num 0)]).answer =
      .error (.divisionByZero 5) := by
  decide +kernel

end ExactCalc
