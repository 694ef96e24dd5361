import ExactCalc.Proofs.Blocks
import ExactCalc.Proofs.FlatRow
/-!
# Folding a nested row

The row of an expression of which some groups are folded already: a folded group is a single number among spent cells,
the others still stand as they were read (`Expr.Row`).  Once the groups inside it are folded, a group is a flat row, and
folding its span does what its chain does (`Expr.Row.foldSigned`).  No other cell changes, so groups can be folded in
any order that takes inner groups first.
-/
namespace ExactCalc

section
variable (positions : List Nat) (done : List Span)

/-! ## Rows -/

mutual
/-- The cells of an operand whose first token is in `slot`; the groups with a span in `done` are folded. -/
def Operand.Row (depth slot : Nat) : Operand → List Cell → Prop
  | .number ds,   cells => cells = [some (.num (numeral ds : Rat))]
  | .group _ e _, cells =>
    if e.span (depth + 1) (slot + 1) ∈ done then
      (∀ b ∈ e.inner (depth + 1) (slot + 1), b.1 ∈ done) ∧ cells.length = e.lexemes.length + 2 ∧
        ∃ v, e.value = some v ∧ HoldsNumber v cells
    else ∃ body, cells = some .opening :: (body ++ [some .closing]) ∧ e.Row (depth + 1) (slot + 1) body

def Expr.Row (depth slot : Nat) : Expr → List Cell → Prop
  | .mk sign first rest, cells =>
    ∃ a b, cells = Sign.cells sign ++ a ++ b ∧ first.Row depth (slot + (Sign.lexemes sign).length) a ∧
      rest.Row depth (slot + (Sign.lexemes sign).length + first.lexemes.length) b

def Links.Row (depth slot : Nat) : Links → List Cell → Prop
  | .nil,         cells => cells = []
  | .cons j o ls, cells =>
    ∃ a b, cells = some (.op j.op) :: (a ++ b) ∧ (j.op = .div → positionAt positions slot = j.pos) ∧
      o.Row depth (slot + 1) a ∧ ls.Row depth (slot + 1 + o.lexemes.length) b
end

end

section
variable {positions : List Nat} {done done' : List Span}

theorem Sign.length_cells (sign : Option Sign) : (Sign.cells sign).length = (Sign.lexemes sign).length := by
  cases sign <;> rfl

mutual
theorem Operand.Row.length : ∀ {o : Operand} {depth slot : Nat} {cells : List Cell},
    o.Row positions done depth slot cells → cells.length = o.lexemes.length
  | .number _,    _, _, _, h => by
    rw [h]
    rfl
  | .group i e j, depth, slot, cells, h => by
    rw [Operand.lexemes, List.length_cons, List.length_append, List.length_singleton]
    unfold Operand.Row at h
    split at h
    · exact h.2.1
    · obtain ⟨body, rfl, h⟩ := h
      rw [List.length_cons, List.length_append, List.length_singleton, h.length]

theorem Expr.Row.length : ∀ {e : Expr} {depth slot : Nat} {cells : List Cell},
    e.Row positions done depth slot cells → cells.length = e.lexemes.length
  | .mk sign first rest, _, _, _, h => by
    obtain ⟨a, b, rfl, h₁, h₂⟩ := h
    simp only [Expr.lexemes, List.length_append, h₁.length, h₂.length, Sign.length_cells]

theorem Links.Row.length : ∀ {ls : Links} {depth slot : Nat} {cells : List Cell},
    ls.Row positions done depth slot cells → cells.length = ls.lexemes.length
  | .nil,         _, _, _, h => by
    rw [h]
    rfl
  | .cons j o ls, _, _, _, h => by
    obtain ⟨a, b, rfl, -, h₁, h₂⟩ := h
    simp only [Links.lexemes, List.length_cons, List.length_append, h₁.length, h₂.length]
end

/-! A row looks only at the spans of its own groups. -/

mutual
theorem Operand.Row.congr : ∀ {o : Operand} {depth slot : Nat} {cells : List Cell},
    (∀ b ∈ o.blocks depth slot, b.1 ∈ done ↔ b.1 ∈ done') → o.Row positions done depth slot cells →
    o.Row positions done' depth slot cells
  | .number _,    _, _, _, _, h => h
  | .group i e j, depth, slot, cells, hb, h => by
    have hin : ∀ b ∈ e.inner (depth + 1) (slot + 1), b.1 ∈ done ↔ b.1 ∈ done' :=
      fun b hm => hb b (List.mem_append_left _ hm)
    have hown : e.span (depth + 1) (slot + 1) ∈ done ↔ e.span (depth + 1) (slot + 1) ∈ done' :=
      hb (_, e) (List.mem_append_right _ List.mem_cons_self)
    unfold Operand.Row at h ⊢
    by_cases hd : e.span (depth + 1) (slot + 1) ∈ done
    · rw [if_pos hd] at h
      rw [if_pos (hown.1 hd)]
      exact ⟨fun b hm => (hin b hm).1 (h.1 b hm), h.2⟩
    · rw [if_neg hd] at h
      rw [if_neg fun hd' => hd (hown.2 hd')]
      obtain ⟨body, rfl, h⟩ := h
      exact ⟨body, rfl, h.congr hin⟩

theorem Expr.Row.congr : ∀ {e : Expr} {depth slot : Nat} {cells : List Cell},
    (∀ b ∈ e.inner depth slot, b.1 ∈ done ↔ b.1 ∈ done') → e.Row positions done depth slot cells →
    e.Row positions done' depth slot cells
  | .mk sign first rest, _, _, _, hb, h => by
    obtain ⟨a, b, rfl, h₁, h₂⟩ := h
    exact ⟨a, b, rfl, h₁.congr fun b hm => hb b (List.mem_append_left _ hm),
      h₂.congr fun b hm => hb b (List.mem_append_right _ hm)⟩

theorem Links.Row.congr : ∀ {ls : Links} {depth slot : Nat} {cells : List Cell},
    (∀ b ∈ ls.blocks depth slot, b.1 ∈ done ↔ b.1 ∈ done') → ls.Row positions done depth slot cells →
    ls.Row positions done' depth slot cells
  | .nil,         _, _, _, _, h => h
  | .cons j o ls, _, _, _, hb, h => by
    obtain ⟨a, b, rfl, hp, h₁, h₂⟩ := h
    exact ⟨a, b, rfl, hp, h₁.congr fun b hm => hb b (List.mem_append_left _ hm),
      h₂.congr fun b hm => hb b (List.mem_append_right _ hm)⟩
end

/-! ## The row as it was read -/

def PlacedAt (positions : List Nat) : Nat → List Lexeme → Prop
  | _,    []      => True
  | slot, x :: xs => positionAt positions slot = x.pos ∧ PlacedAt positions (slot + 1) xs

theorem placedAt_append : ∀ {xs ys : List Lexeme} {slot : Nat},
    PlacedAt positions slot (xs ++ ys) ↔ PlacedAt positions slot xs ∧ PlacedAt positions (slot + xs.length) ys
  | [],      ys, slot => by simp [PlacedAt]
  | x :: xs, ys, slot => by
    rw [List.cons_append, PlacedAt, PlacedAt, placedAt_append, List.length_cons, and_assoc,
      show slot + 1 + xs.length = slot + (xs.length + 1) by omega]

theorem placedAt_map_pos (before : List Nat) : ∀ xs : List Lexeme,
    PlacedAt (before ++ xs.map Lexeme.pos) before.length xs
  | []      => trivial
  | x :: xs => by
    refine ⟨by simp [positionAt], ?_⟩
    have h := placedAt_map_pos (before ++ [x.pos]) xs
    rwa [List.append_assoc, List.length_append, List.length_singleton] at h

def freshCells (ls : List Lexeme) : List Cell :=
  ls.map fun l => some l.token

theorem freshCells_append (xs ys : List Lexeme) : freshCells (xs ++ ys) = freshCells xs ++ freshCells ys :=
  List.map_append

theorem Sign.freshCells_lexemes (sign : Option Sign) : freshCells (Sign.lexemes sign) = Sign.cells sign := by
  cases sign <;> rfl

mutual
theorem Operand.row_fresh : ∀ (o : Operand) {depth slot : Nat}, PlacedAt positions slot o.lexemes →
    o.Row positions [] depth slot (freshCells o.lexemes)
  | .number _,    _,     _,    _ => rfl
  | .group i e j, depth, slot, h => by
    obtain ⟨-, h⟩ := h
    unfold Operand.Row
    rw [if_neg List.not_mem_nil]
    refine ⟨freshCells e.lexemes, ?_, e.row_fresh (placedAt_append.1 h).1⟩
    rw [Operand.lexemes, freshCells, List.map_cons, List.map_append]
    rfl

theorem Expr.row_fresh : ∀ (e : Expr) {depth slot : Nat}, PlacedAt positions slot e.lexemes →
    e.Row positions [] depth slot (freshCells e.lexemes)
  | .mk sign first rest, _, _, h => by
    obtain ⟨h, h₂⟩ := placedAt_append.1 h
    obtain ⟨-, h₁⟩ := placedAt_append.1 h
    rw [List.length_append, ← Nat.add_assoc] at h₂
    refine ⟨freshCells first.lexemes, freshCells rest.lexemes, ?_, first.row_fresh h₁, rest.row_fresh h₂⟩
    rw [Expr.lexemes, freshCells_append, freshCells_append, Sign.freshCells_lexemes]

theorem Links.row_fresh : ∀ (ls : Links) {depth slot : Nat}, PlacedAt positions slot ls.lexemes →
    ls.Row positions [] depth slot (freshCells ls.lexemes)
  | .nil,         _, _, _ => rfl
  | .cons j o ls, _, _, h => by
    obtain ⟨hp, h⟩ := h
    obtain ⟨h₁, h₂⟩ := placedAt_append.1 h
    refine ⟨freshCells o.lexemes, freshCells ls.lexemes, ?_, ?_, o.row_fresh h₁, ls.row_fresh h₂⟩
    · rw [Links.lexemes, freshCells, List.map_cons, List.map_append, j.token_lexeme]
      rfl
    · intro hj
      cases j with
      | written o i => exact hp
      | implied     => cases hj
end

/-! ## A group of which the operands are folded -/

theorem Operand.Row.holdsNumber {o : Operand} {depth slot : Nat} {cells : List Cell}
    (h : o.Row positions done depth slot cells) (hd : ∀ b ∈ o.blocks depth slot, b.1 ∈ done) :
    ∃ v, o.tree.value = some v ∧ HoldsNumber v cells := by
  cases o with
  | number ds => exact ⟨numeral ds, rfl, 0, 0, h⟩
  | group i e j =>
    unfold Operand.Row at h
    rw [if_pos (hd (_, e) (List.mem_append_right _ List.mem_cons_self))] at h
    exact h.2.2

theorem Links.Row.holdsLinks : ∀ {ls : Links} {depth slot : Nat} {cells : List Cell},
    ls.Row positions done depth slot cells → (∀ b ∈ ls.blocks depth slot, b.1 ∈ done) →
    ∃ links, ls.links = some links ∧ HoldsLinks positions slot links cells
  | .nil,         _, slot, _, h, _ => ⟨[], rfl, h ▸ .spent slot 0⟩
  | .cons j o ls, _, slot, _, h, hd => by
    obtain ⟨a, b, rfl, hp, h₁, h₂⟩ := h
    obtain ⟨v, hv, hn⟩ := h₁.holdsNumber fun b hb => hd b (List.mem_append_left _ hb)
    obtain ⟨links, hl, hh⟩ := h₂.holdsLinks fun b hb => hd b (List.mem_append_right _ hb)
    rw [← h₁.length] at hh
    refine ⟨⟨j.op, j.pos, v⟩ :: links, ?_, .cons hp hn hh⟩
    simp only [Links.links, hv, hl]

theorem Expr.Row.foldSigned {e : Expr} {depth slot : Nat} {body : List Cell} (h : e.Row positions done depth slot body)
    (hd : ∀ b ∈ e.inner depth slot, b.1 ∈ done) (pre post : List Cell) (hpre : pre.length = slot) :
    ∃ c cells, e.chain = some c ∧ cells.length = body.length ∧
      ExactCalc.foldSigned positions slot (e.span depth slot).stop (pre ++ (body ++ post)) =
        c.folding (pre ++ (cells ++ post)) ∧
      (c.zeroDivision? = none → ∃ v, e.value = some v ∧ HoldsNumber v cells) := by
  subst hpre
  have hlen := h.length
  obtain ⟨sign, first, rest⟩ := e
  obtain ⟨a, b, rfl, h₁, h₂⟩ := h
  obtain ⟨v, hv, hn⟩ := h₁.holdsNumber fun b hb => hd b (List.mem_append_left _ hb)
  obtain ⟨links, hl, hh⟩ := h₂.holdsLinks fun b hb => hd b (List.mem_append_right _ hb)
  have hc : (Expr.mk sign first rest).chain = some ⟨Sign.number sign v, links⟩ := by
    simp only [Expr.chain, Sign.value_apply, hv, hl, Option.map_some]
  rw [← h₁.length, ← Sign.length_cells] at hh
  have hstop : ((Expr.mk sign first rest).span depth pre.length).stop + 1 =
      pre.length + (Sign.cells sign ++ a ++ b).length := by
    have := (Expr.mk sign first rest).length_lexemes_pos
    rw [hlen, Expr.span]
    dsimp only
    omega
  obtain ⟨cells, hcl, hf, hval⟩ := foldSigned_chain pre post hn hh hstop
  refine ⟨_, cells, hc, hcl, hf, fun hz => ?_⟩
  rw [Expr.value_eq_of_chain hc]
  cases hcv : (Chain.mk (Sign.number sign v) links).value with
  | none =>
    rw [Chain.value, hz] at hcv
    cases hcv
  | some w => exact ⟨w, rfl, hval w hcv⟩

/-! ## One fold -/

/-- The fold of the span of a block, from one row to another, does what a chain does, and the chain is that of the
block. -/
structure FoldsAs (positions : List Nat) (b : Span × Expr) (c : Chain) (row row' : List Cell) : Prop where
  chain   : b.2.chain = some c
  cells   : (foldSpan positions b.1 row).cells = row'
  steps   : (foldSpan positions b.1 row).events.filterMap Event.step? = c.steps
  problem : (foldSpan positions b.1 row).problem = c.zeroDivision?.map .divisionByZero

theorem filterMap_step?_folded (steps : List Step) : (steps.map Event.folded).filterMap Event.step? = steps := by
  rw [List.filterMap_map]
  exact List.filterMap_some

theorem foldsAs_of_foldSigned {b : Span × Expr} {c : Chain} {row row' : List Cell} (hc : b.2.chain = some c)
    (hf : b.1.fits row.length = true)
    (h : foldSigned positions b.1.start b.1.stop (spendParentheses b.1 row) = c.folding row') :
    FoldsAs positions b c row row' := by
  have hs : foldSpan positions b.1 row = { c.folding row' with
      events := .entered b.1 ((row.drop b.1.start).take (b.1.stop + 1 - b.1.start)) :: c.steps.map .folded } := by
    rw [foldSpan, if_pos hf, h]
    rfl
  refine ⟨hc, ?_, ?_, ?_⟩
  · rw [hs, Chain.folding]
  · rw [hs]
    exact filterMap_step?_folded c.steps
  · rw [hs, Chain.folding]

/-- What a fold inside a part of the row does to the part. -/
def FoldsIn (positions : List Nat) (b : Span × Expr) (pre cells post : List Cell) (after : List Cell → Prop) : Prop :=
  ∃ c cells', FoldsAs positions b c (pre ++ (cells ++ post)) (pre ++ (cells' ++ post)) ∧
    (c.zeroDivision? = none → after cells')

theorem spendParentheses_group {s : Span} (hs : s.isRoot = false) (pre body post : List Cell) (x y : Cell)
    (hstart : s.start = pre.length + 1) (hstop : s.stop = pre.length + body.length) :
    spendParentheses s (pre ++ (x :: (body ++ [y]) ++ post)) = pre ++ [none] ++ (body ++ none :: post) := by
  have h₁ : (pre ++ (x :: (body ++ [y]) ++ post)).set (s.start - 1) none =
      pre ++ [none] ++ body ++ y :: post := by
    rw [hstart, Nat.add_sub_cancel, List.set_append_right _ _ (Nat.le_refl _), Nat.sub_self]
    simp
  have h₂ : (pre ++ [none] ++ body).length = s.stop + 1 := by
    rw [List.length_append, List.length_append, List.length_singleton, hstop]
    omega
  rw [spendParentheses, hs, h₁, List.set_append_right _ _ (Nat.le_of_eq h₂), h₂, Nat.sub_self]
  simp

theorem HoldsNumber.between {v : Rat} {cells : List Cell} (h : HoldsNumber v cells) :
    HoldsNumber v (none :: (cells ++ [none])) := by
  obtain ⟨k, m, rfl⟩ := h
  refine ⟨k + 1, m + 1, ?_⟩
  rw [List.replicate_succ, List.replicate_succ', List.cons_append, List.append_assoc, List.cons_append]

/-- The fold of a group whose own groups are folded: its value, and for the rest spent cells, is left of it. -/
theorem Expr.Row.foldsIn_group {e : Expr} {depth slot : Nat} {body : List Cell}
    (h : e.Row positions done (depth + 1) (slot + 1) body) (hd : ∀ b ∈ e.inner (depth + 1) (slot + 1), b.1 ∈ done)
    (pre post : List Cell) (hpre : pre.length = slot) (x y : Cell) :
    FoldsIn positions (e.span (depth + 1) (slot + 1), e) pre (x :: (body ++ [y])) post fun folded =>
      folded.length = body.length + 2 ∧ ∃ v, e.value = some v ∧ HoldsNumber v folded := by
  obtain ⟨c, cells, hc, hlen, hf, hv⟩ := h.foldSigned hd (pre ++ [none]) (none :: post) (by simp [hpre])
  have hpos := e.length_lexemes_pos
  have hl := h.length
  have hstart : (e.span (depth + 1) (slot + 1)).start = pre.length + 1 := by rw [hpre, Expr.span]
  have hstop : (e.span (depth + 1) (slot + 1)).stop = pre.length + body.length := by
    rw [hpre, hl, Expr.span]
    dsimp only
    omega
  refine ⟨c, none :: (cells ++ [none]), foldsAs_of_foldSigned hc ?_ ?_, fun hz => ⟨?_, ?_⟩⟩
  · simp [Span.fits, Span.isRoot, Expr.span]
    omega
  · dsimp only
    rw [spendParentheses_group rfl pre body post x y hstart hstop, hstart, hpre, hf]
    simp
  · rw [List.length_cons, List.length_append, List.length_singleton, hlen]
  · obtain ⟨v, hev, hn⟩ := hv hz
    exact ⟨v, hev, hn.between⟩

theorem Expr.Row.foldsIn_root {e : Expr} {cells : List Cell} (h : e.Row positions done 0 0 cells)
    (hd : ∀ b ∈ e.inner 0 0, b.1 ∈ done) (post : List Cell) :
    FoldsIn positions (e.span 0 0, e) [] cells post fun folded => ∃ v, e.value = some v ∧ HoldsNumber v folded := by
  obtain ⟨c, cells', hc, -, hf, hv⟩ := h.foldSigned hd [] post rfl
  refine ⟨c, cells', foldsAs_of_foldSigned hc ?_ hf, hv⟩
  have := e.length_lexemes_pos
  simp [Span.fits, Span.isRoot, Expr.span, h.length]
  omega

theorem mem_iff_mem_cons {s : Span} {bs : List (Span × Expr)} (h : ∀ b ∈ bs, b.1 ≠ s) :
    ∀ b ∈ bs, b.1 ∈ done ↔ b.1 ∈ s :: done :=
  fun b hb => ⟨List.mem_cons_of_mem s, fun hm => (List.mem_cons.1 hm).resolve_left (h b hb)⟩

/-- A group that is next to be folded, in a part of the row that starts in `slot`: where its cells stand, between their
parentheses, and what holds of the part (`after`) once they have come to the value of the group. -/
def Focus (positions : List Nat) (done : List Span) (slot : Nat) (b : Span × Expr) (cells : List Cell)
    (after : List Cell → Prop) : Prop :=
  ∃ depth left body right, b.1 = b.2.span (depth + 1) (slot + left.length + 1) ∧
    cells = left ++ (some .opening :: (body ++ [some .closing]) ++ right) ∧
    b.2.Row positions done (depth + 1) (slot + left.length + 1) body ∧
    ∀ v folded, b.2.value = some v → HoldsNumber v folded → folded.length = body.length + 2 →
      after (left ++ (folded ++ right))

theorem Focus.widen {slot slot' : Nat} {b : Span × Expr} {cells cells' : List Cell} {after after' : List Cell → Prop}
    (left right : List Cell) (h : Focus positions done slot' b cells after) (hs : slot' = slot + left.length)
    (hc : cells' = left ++ (cells ++ right)) (ha : ∀ cells, after cells → after' (left ++ (cells ++ right))) :
    Focus positions done slot b cells' after' := by
  subst hs hc
  obtain ⟨depth, l, body, r, hspan, rfl, hrow, hafter⟩ := h
  rw [Nat.add_assoc slot, ← List.length_append] at hspan hrow
  refine ⟨depth, left ++ l, body, r ++ right, hspan, by simp only [List.append_assoc], hrow, ?_⟩
  intro v folded hv hn hl
  have h := ha _ (hafter v folded hv hn hl)
  simpa only [List.append_assoc] using h

mutual
theorem Operand.Row.focus : ∀ {o : Operand} {depth slot : Nat} {cells : List Cell},
    o.Row positions done depth slot cells → ∀ b ∈ o.blocks depth slot, IsNext done b →
    Focus positions done slot b cells (o.Row positions (b.1 :: done) depth slot)
  | .group i e j, depth, slot, cells, h, b, hb, hn => by
    unfold Operand.Row at h
    by_cases hd : e.span (depth + 1) (slot + 1) ∈ done
    · rw [if_pos hd] at h
      -- no block of a folded group is still to be folded
      rcases List.mem_append.1 hb with hb | hb
      · exact absurd (h.1 b hb) hn.1
      · rw [List.mem_singleton.1 hb] at hn
        exact absurd hd hn.1
    · rw [if_neg hd] at h
      obtain ⟨body, rfl, h⟩ := h
      rcases List.mem_append.1 hb with hb | hb
      · have hne := Expr.span_ne_of_mem_inner hb
        refine (h.focus b hb hn).widen [some .opening] [some .closing] rfl rfl fun body' h' => ?_
        unfold Operand.Row
        rw [if_neg fun hm => (List.mem_cons.1 hm).elim (fun e => hne e.symm) hd]
        exact ⟨body', rfl, h'⟩
      · rw [List.mem_singleton.1 hb] at hn ⊢
        refine ⟨depth, [], body, [], rfl, by simp, h, fun v folded hv hh hlen => ?_⟩
        unfold Operand.Row
        rw [if_pos List.mem_cons_self, List.append_nil, List.nil_append, hlen, h.length]
        exact ⟨fun b hb => List.mem_cons_of_mem _ (hn.2 b hb), rfl, v, hv, hh⟩

theorem Expr.Row.focus : ∀ {e : Expr} {depth slot : Nat} {cells : List Cell},
    e.Row positions done depth slot cells → ∀ b ∈ e.inner depth slot, IsNext done b →
    Focus positions done slot b cells (e.Row positions (b.1 :: done) depth slot)
  | .mk sign first rest, depth, slot, cells, h, b, hb, hn => by
    obtain ⟨x, y, rfl, h₁, h₂⟩ := h
    rcases List.mem_append.1 hb with hb | hb
    · refine (h₁.focus b hb hn).widen (Sign.cells sign) y (by rw [Sign.length_cells]) (by simp) fun x' h' =>
        ⟨x', y, by simp, h', h₂.congr (mem_iff_mem_cons fun b' hb' => ?_)⟩
      exact ((Operand.inside_of_mem_blocks b hb).ne (Links.inside_of_mem_blocks b' hb') (Nat.le_refl _)).symm
    · refine (h₂.focus b hb hn).widen (Sign.cells sign ++ x) [] ?_ (by simp) fun y' h' =>
        ⟨x, y', by simp, h₁.congr (mem_iff_mem_cons fun b' hb' => ?_), h'⟩
      · rw [List.length_append, Sign.length_cells, h₁.length, Nat.add_assoc]
      · exact (Operand.inside_of_mem_blocks b' hb').ne (Links.inside_of_mem_blocks b hb) (Nat.le_refl _)

theorem Links.Row.focus : ∀ {ls : Links} {depth slot : Nat} {cells : List Cell},
    ls.Row positions done depth slot cells → ∀ b ∈ ls.blocks depth slot, IsNext done b →
    Focus positions done slot b cells (ls.Row positions (b.1 :: done) depth slot)
  | .cons j o ls, depth, slot, cells, h, b, hb, hn => by
    obtain ⟨x, y, rfl, hp, h₁, h₂⟩ := h
    rcases List.mem_append.1 hb with hb | hb
    · refine (h₁.focus b hb hn).widen [some (.op j.op)] y rfl rfl fun x' h' =>
        ⟨x', y, rfl, hp, h', h₂.congr (mem_iff_mem_cons fun b' hb' => ?_)⟩
      exact ((Operand.inside_of_mem_blocks b hb).ne (Links.inside_of_mem_blocks b' hb') (Nat.le_refl _)).symm
    · refine (h₂.focus b hb hn).widen (some (.op j.op) :: x) [] ?_ (by simp) fun y' h' =>
        ⟨x, y', by simp, hp, h₁.congr (mem_iff_mem_cons fun b' hb' => ?_), h'⟩
      · rw [List.length_cons, h₁.length, Nat.add_assoc, Nat.add_comm 1]
      · exact (Operand.inside_of_mem_blocks b' hb').ne (Links.inside_of_mem_blocks b hb) (Nat.le_refl _)
end

/-- **The fold of a group in a row**: what its chain does, and at the end its value in the place of its cells. -/
theorem Focus.foldsIn {slot : Nat} {b : Span × Expr} {cells : List Cell} {after : List Cell → Prop}
    (h : Focus positions done slot b cells after) (hn : IsNext done b) (pre post : List Cell)
    (hpre : pre.length = slot) : FoldsIn positions b pre cells post after := by
  obtain ⟨depth, left, body, right, hspan, rfl, hrow, hafter⟩ := h
  obtain ⟨s, e⟩ := b
  dsimp only at hspan
  subst hspan
  obtain ⟨c, folded, hf, hv⟩ := hrow.foldsIn_group hn.2 (pre ++ left) (right ++ post)
    (by rw [List.length_append, hpre]) (some .opening) (some .closing)
  refine ⟨c, left ++ (folded ++ right), by simpa using hf, fun hz => ?_⟩
  obtain ⟨hlen, v, hev, hh⟩ := hv hz
  exact hafter v folded hev hh hlen

end

end ExactCalc
