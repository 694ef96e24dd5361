import ExactCalc.Proofs.Pieces
/-!
# Tokens are faithful to the text

The tokens of an accepted text, less the `*` that are implied, are its visible characters with each run of digits taken
for a number; the positions say where (`Reading.Faithful`).  A `*` is implied exactly once wherever an operand starts
right after another has ended, blanks apart.
-/
namespace ExactCalc

/-- An implied `*`: no `*` stands at its position. -/
def Lexeme.isImplied (cs : List Char) (l : Lexeme) : Bool :=
  l.token == .op .mul && cs[l.pos]? != some '*'

/-- The visible characters that a lexeme stands for: its own, or the run of digits that starts at its position. -/
def Lexeme.source (cs : List Char) (l : Lexeme) : List (Char × Nat) :=
  match l.token.char? with
  | some c => [(c, l.pos)]
  | none   => ((placed cs).filter fun x => decide (l.pos ≤ x.2)).takeWhile fun x => x.1.isDigit

/-- Whether a `*` is implied between two visible characters in a row: the first ends an operand and the second starts
one.  Two digits belong to the same number. -/
def impliesProduct (c d : Char) : Bool :=
  (c.isDigit || c == ')') && (d.isDigit || d == '(') && !(c.isDigit && d.isDigit)

/-- The positions of the characters that a `*` is implied before. -/
def productPositions (xs : List (Char × Nat)) : List Nat :=
  ((xs.zip xs.tail).filter fun x => impliesProduct x.1.1 x.2.1).map fun x => x.2.2

/-- What is read from a text is faithful to it. -/
structure Reading.Faithful (cs : List Char) (r : Reading) : Prop where
  length  : r.positions.length = r.tokens.length
  ordered : r.positions.Pairwise (· ≤ ·)
  /-- Two tokens in a row share their position exactly if the first is an implied `*`. -/
  shared  : r.lexemes.IsChain fun l l' => l.pos = l'.pos ↔ l.isImplied cs = true
  /-- A `*` is implied exactly where an operand starts right after another, and once. -/
  implied : (r.lexemes.filter fun l => l.isImplied cs).map Lexeme.pos = productPositions (placed cs)
  /-- The other tokens stand for the visible characters, all of them and in order. -/
  source  : (r.lexemes.filter fun l => !l.isImplied cs).flatMap (Lexeme.source cs) = placed cs
  /-- The position of a token is that of its first character. -/
  first   : ∀ l ∈ r.lexemes, l.isImplied cs = false → ∃ c, (l.source cs).head? = some (c, l.pos)
  /-- A number is worth what its digits spell in the decimal system. -/
  value   : ∀ l ∈ r.lexemes, ∀ v, l.token = .num v →
    v = (Nat.ofDigitChars 10 ((l.source cs).map Prod.fst) 0 : Nat)

/-! ## Characters of a piece -/

namespace Piece
variable {p q : Piece} {x y : Char × Nat}

theorem Sound.mem_run (h : p.Sound) (hx : x ∈ p.run) :
    x.1.isDigit = p.lexeme.token.isNumber ∧ (x.1.isDigit || x.1 == ')') = p.lexeme.token.endsOperand ∧
      (x.1.isDigit || x.1 == '(') = p.lexeme.token.startsOperand := by
  cases ht : p.lexeme.token with
  | num v =>
    have hd := h.digits (by rw [ht]; rfl) x hx
    simp [hd, Token.isNumber, Token.endsOperand, Token.startsOperand]
  | op o =>
    rw [h.char o.symbol (by rw [ht]; rfl), List.mem_singleton] at hx
    rw [hx]
    cases o <;> exact ⟨rfl, rfl, rfl⟩
  | opening =>
    rw [h.char '(' (by rw [ht]; rfl), List.mem_singleton] at hx
    rw [hx]
    exact ⟨rfl, rfl, rfl⟩
  | closing =>
    rw [h.char ')' (by rw [ht]; rfl), List.mem_singleton] at hx
    rw [hx]
    exact ⟨rfl, rfl, rfl⟩

/-- No `*` is implied between two characters of one piece. -/
theorem Sound.impliesProduct_eq_false (h : p.Sound) (hx : x ∈ p.run) (hy : y ∈ p.run) :
    impliesProduct x.1 y.1 = false := by
  obtain ⟨h₁, h₂, -⟩ := h.mem_run hx
  obtain ⟨h₃, -, h₄⟩ := h.mem_run hy
  rw [impliesProduct, h₂, h₄, h₁, h₃]
  cases p.lexeme.token <;> rfl

theorem Meets.impliesProduct_eq (h : p.Meets q) (hp : p.Sound) (hq : q.Sound) (hx : x ∈ p.run) (hy : y ∈ q.run) :
    impliesProduct x.1 y.1 = q.implied := by
  obtain ⟨h₁, h₂, -⟩ := hp.mem_run hx
  obtain ⟨h₃, -, h₄⟩ := hq.mem_run hy
  have ha : (p.lexeme.token.isNumber && q.lexeme.token.isNumber) = false := by
    rw [← Bool.not_eq_true, Bool.and_eq_true]
    exact h.apart
  rw [impliesProduct, h₂, h₄, h₁, h₃, ha, h.implied, Bool.not_false, Bool.and_true]

theorem Sound.exists_run_eq (h : p.Sound) : ∃ c xs, p.run = (c, p.lexeme.pos) :: xs := by
  obtain ⟨c, hc⟩ := h.head
  exact ⟨c, List.head?_eq_some_iff.1 hc⟩

theorem getLast?_lexemes (p : Piece) : p.lexemes.getLast? = some p.lexeme := by
  unfold lexemes
  split <;> rfl

theorem pos_of_mem_lexemes {l : Lexeme} (h : l ∈ p.lexemes) : l.pos = p.lexeme.pos := by
  unfold lexemes at h
  split at h
  · rcases List.mem_cons.1 h with rfl | h
    · rfl
    · rw [List.mem_singleton.1 h]
  · rw [List.mem_singleton.1 h]

end Piece

/-! ## A text cut into pieces -/

/-- The visible characters of a text are cut into pieces. -/
structure Cut (cs : List Char) (ps : List Piece) : Prop where
  run   : ps.flatMap Piece.run = placed cs
  sound : ∀ p ∈ ps, p.Sound
  chain : ps.IsChain Piece.Meets
  first : ∀ p ∈ ps.head?, p.implied = false

theorem Expr.Spells.cut {e : Expr} {cs : List Char} (h : e.Spells cs) : Cut cs e.pieces where
  run := by rw [e.flatMap_run, h.2]
  sound := e.sound_pieces h.1
  chain := e.isChain_pieces h.1
  first p hp := Expr.implied_of_head? (by rwa [List.append_nil])

theorem pairwise_placed (cs : List Char) : (placed cs).Pairwise fun x y => x.2 < y.2 := by
  refine List.Pairwise.filter _ (List.pairwise_map.1 ?_)
  rw [List.zipIdx_map_snd]
  exact List.pairwise_lt_range'

namespace Cut
variable {cs : List Char} {ps : List Piece} {p : Piece}

theorem mem_placed (h : Cut cs ps) (hp : p ∈ ps) {x : Char × Nat} (hx : x ∈ p.run) : x ∈ placed cs := by
  rw [← h.run]
  exact List.mem_flatMap.2 ⟨p, hp, hx⟩

theorem pairwise (h : Cut cs ps) : ps.Pairwise fun p q => p.lexeme.pos < q.lexeme.pos := by
  have hr := pairwise_placed cs
  rw [← h.run, List.pairwise_flatMap] at hr
  refine hr.2.imp_of_mem fun hp hq hlt => ?_
  obtain ⟨c, hc⟩ := (h.sound _ hp).head
  obtain ⟨d, hd⟩ := (h.sound _ hq).head
  exact hlt _ (List.mem_of_head? hc) _ (List.mem_of_head? hd)

/-! ### The implied `*` -/

theorem isImplied_lexeme (h : Cut cs ps) (hp : p ∈ ps) : p.lexeme.isImplied cs = false := by
  by_cases ht : p.lexeme.token = .op .mul
  · have hx : ('*', p.lexeme.pos) ∈ p.run := by
      rw [(h.sound p hp).char '*' (by rw [ht]; rfl)]
      exact List.mem_singleton_self _
    simp [Lexeme.isImplied, (mem_placed_iff.1 (h.mem_placed hp hx)).1]
  · simp [Lexeme.isImplied, ht]

theorem isImplied_mul (h : Cut cs ps) (hp : p ∈ ps) (hi : p.implied = true) :
    (⟨.op .mul, p.lexeme.pos⟩ : Lexeme).isImplied cs = true := by
  obtain ⟨c, hc⟩ := (h.sound p hp).head
  have hm := List.mem_of_head? hc
  obtain ⟨-, -, hs⟩ := (h.sound p hp).mem_run hm
  rw [(h.sound p hp).implied hi] at hs
  have hne : c ≠ '*' := by
    rintro rfl
    cases hs
  simp [Lexeme.isImplied, (mem_placed_iff.1 (h.mem_placed hp hm)).1, hne]

theorem filter_isImplied (h : Cut cs ps) (hp : p ∈ ps) :
    (p.lexemes.filter fun l => l.isImplied cs).map Lexeme.pos = if p.implied then [p.lexeme.pos] else [] := by
  unfold Piece.lexemes
  split
  · rename_i hi
    simp [h.isImplied_mul hp hi, h.isImplied_lexeme hp]
  · simp [h.isImplied_lexeme hp]

theorem filter_not_isImplied (h : Cut cs ps) (hp : p ∈ ps) :
    (p.lexemes.filter fun l => !l.isImplied cs) = [p.lexeme] := by
  unfold Piece.lexemes
  split
  · rename_i hi
    simp [h.isImplied_mul hp hi, h.isImplied_lexeme hp]
  · simp [h.isImplied_lexeme hp]

end Cut

theorem productPositions_cons_cons (x y : Char × Nat) (xs : List (Char × Nat)) :
    productPositions (x :: y :: xs) =
      (if impliesProduct x.1 y.1 then [y.2] else []) ++ productPositions (y :: xs) := by
  simp only [productPositions, List.tail_cons, List.zip_cons_cons, List.filter_cons]
  split <;> simp

/-- Where no `*` is implied, only the last character matters to what follows. -/
theorem productPositions_append : ∀ {xs : List (Char × Nat)} {x : Char × Nat} (ys : List (Char × Nat)),
    (∀ a ∈ xs, ∀ b ∈ xs, impliesProduct a.1 b.1 = false) → xs.getLast? = some x →
      productPositions (xs ++ ys) = productPositions (x :: ys)
  | [a],         x, ys, _, hx => by
    cases hx
    rfl
  | a :: b :: xs, x, ys, h, hx => by
    have hab := h a List.mem_cons_self b (List.mem_cons_of_mem _ List.mem_cons_self)
    rw [List.cons_append, List.cons_append, productPositions_cons_cons, hab, if_neg Bool.false_ne_true, List.nil_append]
    rw [List.getLast?_cons_cons] at hx
    exact productPositions_append ys (fun a ha b hb => h a (List.mem_cons_of_mem _ ha) b (List.mem_cons_of_mem _ hb)) hx

theorem Piece.Sound.exists_getLast? {p : Piece} (h : p.Sound) : ∃ x, p.run.getLast? = some x := by
  obtain ⟨c, xs, hx⟩ := h.exists_run_eq
  rw [hx]
  exact ⟨_, List.getLast?_eq_some_getLast (List.cons_ne_nil _ _)⟩

theorem productPositions_pieces : ∀ {ps : List Piece} {p : Piece}, (p :: ps).IsChain Piece.Meets →
    (∀ q ∈ p :: ps, q.Sound) →
      productPositions ((p :: ps).flatMap Piece.run) = ps.flatMap fun q => if q.implied then [q.lexeme.pos] else []
  | ps, p, hc, hs => by
    have hp := hs p List.mem_cons_self
    obtain ⟨x, hx⟩ := hp.exists_getLast?
    rw [List.flatMap_cons, productPositions_append _ (fun _ ha _ hb => hp.impliesProduct_eq_false ha hb) hx]
    match ps, hc, hs with
    | [],      _,  _  => rfl
    | q :: ps, hc, hs =>
      obtain ⟨hm, hc⟩ := List.isChain_cons_cons.1 hc
      have hs' : ∀ q' ∈ q :: ps, q'.Sound := fun q' hq' => hs q' (List.mem_cons_of_mem p hq')
      have hq := hs' q List.mem_cons_self
      obtain ⟨c, xs, hxs⟩ := hq.exists_run_eq
      have hrun : (q :: ps).flatMap Piece.run = (c, q.lexeme.pos) :: (xs ++ ps.flatMap Piece.run) := by
        rw [List.flatMap_cons, hxs, List.cons_append]
      have hhead : (c, q.lexeme.pos) ∈ q.run := hxs ▸ List.mem_cons_self
      have himp := hm.impliesProduct_eq hp hq (List.mem_of_getLast? hx) hhead
      have hrest := productPositions_pieces hc hs'
      rw [hrun] at hrest ⊢
      rw [productPositions_cons_cons, himp, hrest, List.flatMap_cons]

namespace Cut
variable {cs : List Char} {ps : List Piece} {p : Piece}

theorem productPositions_placed (h : Cut cs ps) :
    productPositions (placed cs) = ps.flatMap fun p => if p.implied then [p.lexeme.pos] else [] := by
  rw [← h.run]
  match ps, h with
  | [],      _ => rfl
  | p :: ps, h =>
    have hp : p.implied = false := h.first p rfl
    rw [productPositions_pieces h.chain h.sound, List.flatMap_cons, hp, if_neg Bool.false_ne_true, List.nil_append]

/-! ### The characters of a lexeme -/

/-- The visible characters from the position of a piece on are its own and those of the pieces after it. -/
theorem filter_placed {before after : List Piece} (h : Cut cs (before ++ p :: after)) :
    ((placed cs).filter fun x => decide (p.lexeme.pos ≤ x.2)) = p.run ++ after.flatMap Piece.run := by
  obtain ⟨c, xs, hxs⟩ := (h.sound p (by simp)).exists_run_eq
  have hpw := pairwise_placed cs
  rw [← h.run, List.flatMap_append, List.flatMap_cons, hxs, List.cons_append] at hpw ⊢
  obtain ⟨-, hafter, hbefore⟩ := List.pairwise_append.1 hpw
  have h₁ : (before.flatMap Piece.run).filter (fun x => decide (p.lexeme.pos ≤ x.2)) = [] := by
    refine List.filter_eq_nil_iff.2 fun x hx => ?_
    have hlt := hbefore x hx (c, p.lexeme.pos) List.mem_cons_self
    simpa using hlt
  have h₂ : ∀ x ∈ (c, p.lexeme.pos) :: (xs ++ after.flatMap Piece.run), decide (p.lexeme.pos ≤ x.2) = true := by
    intro x hx
    rw [decide_eq_true_eq]
    rcases List.mem_cons.1 hx with rfl | hx
    · exact Nat.le_refl _
    · exact Nat.le_of_lt (List.rel_of_pairwise_cons hafter hx)
  rw [List.filter_append, h₁, List.filter_eq_self.2 h₂, List.nil_append]

theorem source_lexeme (h : Cut cs ps) (hp : p ∈ ps) : p.lexeme.source cs = p.run := by
  unfold Lexeme.source
  cases hchar : p.lexeme.token.char? with
  | some c => exact ((h.sound p hp).char c hchar).symm
  | none =>
    have hnum : p.lexeme.token.isNumber = true := by
      cases ht : p.lexeme.token <;> simp [ht, Token.char?, Token.isNumber] at hchar ⊢
    obtain ⟨before, after, rfl⟩ := List.append_of_mem hp
    dsimp only
    rw [h.filter_placed, List.takeWhile_append_of_pos ((h.sound p hp).digits hnum)]
    cases after with
    | nil => simp
    | cons q after =>
      -- the next piece is not a number, so its first character is no digit
      have hm : p.Meets q := (List.isChain_cons_cons.1 (List.isChain_append.1 h.chain).2.1).1
      have hq := h.sound q (by simp)
      obtain ⟨c, xs, hxs⟩ := hq.exists_run_eq
      have hc : (c, q.lexeme.pos) ∈ q.run := hxs ▸ List.mem_cons_self
      have hd : c.isDigit = false := by
        rw [(hq.mem_run hc).1, ← Bool.not_eq_true]
        exact fun hn => hm.apart ⟨hnum, hn⟩
      rw [List.flatMap_cons, hxs, List.cons_append, List.takeWhile_cons, hd, if_neg Bool.false_ne_true, List.append_nil]

section
variable {r : Reading} {l : Lexeme}

theorem exists_piece (h : Cut cs ps) (hr : ps.flatMap Piece.lexemes = r.lexemes) (hl : l ∈ r.lexemes)
    (hi : l.isImplied cs = false) : ∃ p ∈ ps, l = p.lexeme := by
  rw [← hr] at hl
  obtain ⟨p, hp, hl⟩ := List.mem_flatMap.1 hl
  have hf : l ∈ p.lexemes.filter fun l => !l.isImplied cs := List.mem_filter.2 ⟨hl, by rw [hi, Bool.not_false]⟩
  rw [h.filter_not_isImplied hp] at hf
  exact ⟨p, hp, List.mem_singleton.1 hf⟩

theorem isChain_lexemes (h : Cut cs ps) :
    (ps.flatMap Piece.lexemes).IsChain fun l l' => l.pos = l'.pos ↔ l.isImplied cs = true := by
  have hne : [] ∉ ps.map Piece.lexemes := by
    intro hm
    obtain ⟨p, -, hp⟩ := List.mem_map.1 hm
    have hlast := p.getLast?_lexemes
    rw [hp] at hlast
    cases hlast
  rw [List.flatMap_def, List.isChain_flatten hne, List.isChain_map]
  constructor
  · intro ls hls
    obtain ⟨p, hp, rfl⟩ := List.mem_map.1 hls
    unfold Piece.lexemes
    split
    · rename_i hi
      exact List.isChain_pair.2 ⟨fun _ => h.isImplied_mul hp hi, fun _ => rfl⟩
    · exact List.isChain_singleton _
  · refine (h.pairwise.imp_of_mem fun {p q} hp hq hlt l hl l' hl' => ?_).isChain
    rw [p.getLast?_lexemes] at hl
    cases hl
    rw [Piece.pos_of_mem_lexemes (List.mem_of_head? hl'), h.isImplied_lexeme hp]
    exact ⟨fun he => absurd he (Nat.ne_of_lt hlt), fun hi => absurd hi Bool.false_ne_true⟩

/-- **The lexemes of a text that is cut into pieces are faithful to it.** -/
theorem faithful (h : Cut cs ps) (hr : ps.flatMap Piece.lexemes = r.lexemes) : r.Faithful cs where
  length := by rw [Reading.positions, Reading.tokens, List.length_map, List.length_map]
  ordered := by
    rw [Reading.positions, List.pairwise_map, ← hr, List.pairwise_flatMap]
    refine ⟨fun p _ => List.pairwise_of_forall_mem_list fun l hl l' hl' => ?_, h.pairwise.imp fun hlt l hl l' hl' => ?_⟩
    · rw [Piece.pos_of_mem_lexemes hl, Piece.pos_of_mem_lexemes hl']
    · rw [Piece.pos_of_mem_lexemes hl, Piece.pos_of_mem_lexemes hl']
      exact Nat.le_of_lt hlt
  shared := by
    rw [← hr]
    exact h.isChain_lexemes
  implied := by
    rw [← hr, List.filter_flatMap, List.map_flatMap, h.productPositions_placed]
    exact List.flatMap_congr fun p hp => h.filter_isImplied hp
  source := by
    rw [← hr, List.filter_flatMap, List.flatMap_assoc, ← h.run]
    refine List.flatMap_congr fun p hp => ?_
    rw [h.filter_not_isImplied hp, List.flatMap_singleton, h.source_lexeme hp]
  first l hl hi := by
    obtain ⟨p, hp, rfl⟩ := h.exists_piece hr hl hi
    rw [h.source_lexeme hp]
    exact (h.sound p hp).head
  value l hl v hv := by
    have hi : l.isImplied cs = false := by simp [Lexeme.isImplied, hv]
    obtain ⟨p, hp, rfl⟩ := h.exists_piece hr hl hi
    rw [h.source_lexeme hp]
    exact (h.sound p hp).value v hv

end

end Cut

/-- **What is read from a text is faithful to it**: every visible character is accounted for, once and in place, and a
`*` is implied where two operands meet and nowhere else. -/
theorem faithful_of_ofString_eq_ok {text : String} {r : Reading} (h : Reading.ofString text = .ok r) :
    r.Faithful text.toList := by
  obtain ⟨e, he, rfl⟩ := ofChars_eq_ok_iff_spells.1 h
  exact he.cut.faithful e.flatMap_lexemes

theorem faithful_implied :
    ∃ r, Reading.ofString "0 12 (3)4*5" = .ok r ∧ r.Faithful "0 12 (3)4*5".toList :=
  ⟨_, rfl, faithful_of_ofString_eq_ok rfl⟩

end ExactCalc
