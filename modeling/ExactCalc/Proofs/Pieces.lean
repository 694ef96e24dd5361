import ExactCalc.Proofs.Localisation
/-!
# The pieces of an expression

A **piece** is a lexeme with the characters that it is written with, and a mark if a `*` is implied before it.  The
pieces of an expression hold all its lexemes and all its characters, in order (`Expr.flatMap_lexemes`,
`Expr.flatMap_run`).  A `*` is implied exactly where one operand ends and the next starts, and two numbers never meet
(`Expr.isChain_pieces`).
-/
namespace ExactCalc

/-! ## Where operands start and end -/

namespace Token

def startsOperand : Token → Bool
  | num _ | opening => true
  | op _ | closing  => false

def endsOperand : Token → Bool
  | num _ | closing => true
  | op _ | opening  => false

def isNumber : Token → Bool
  | num _                  => true
  | op _ | opening | closing => false

end Token

/-- A lexeme, the characters that it is written with, and whether a `*` is implied before it. -/
structure Piece where
  implied : Bool
  lexeme  : Lexeme
  run     : List (Char × Nat)

namespace Piece

/-- A piece that is written with a single character. -/
def single (implied : Bool) (t : Token) (c : Char) (i : Nat) : Piece :=
  ⟨implied, ⟨t, i⟩, [(c, i)]⟩

/-- The lexemes of a piece: its own, perhaps after that of an implied `*`. -/
def lexemes (p : Piece) : List Lexeme :=
  if p.implied then [⟨.op .mul, p.lexeme.pos⟩, p.lexeme] else [p.lexeme]

/-- A piece is written with the character of its token, or with the digits of its number; its position is that of the
first of them.  A `*` is implied only before an operand. -/
structure Sound (p : Piece) : Prop where
  implied : p.implied = true → p.lexeme.token.startsOperand = true
  head    : ∃ c, p.run.head? = some (c, p.lexeme.pos)
  char    : ∀ c, p.lexeme.token.char? = some c → p.run = [(c, p.lexeme.pos)]
  digits  : p.lexeme.token.isNumber = true → ∀ x ∈ p.run, x.1.isDigit = true
  value   : ∀ v, p.lexeme.token = .num v → v = (Nat.ofDigitChars 10 (p.run.map Prod.fst) 0 : Nat)

/-- What two pieces in a row are like. -/
structure Meets (p q : Piece) : Prop where
  implied : q.implied = (p.lexeme.token.endsOperand && q.lexeme.token.startsOperand)
  apart   : ¬(p.lexeme.token.isNumber = true ∧ q.lexeme.token.isNumber = true)

theorem meets_of_not_endsOperand {p q : Piece} (hp : p.lexeme.token.endsOperand = false) (hq : q.implied = false) :
    p.Meets q := by
  refine ⟨by rw [hp, hq, Bool.false_and], fun h => ?_⟩
  cases ht : p.lexeme.token <;> simp [ht, Token.endsOperand, Token.isNumber] at hp h

theorem meets_of_not_startsOperand {p q : Piece} (hs : q.lexeme.token.startsOperand = false) (hq : q.implied = false) :
    p.Meets q := by
  refine ⟨by rw [hs, hq, Bool.and_false], fun h => ?_⟩
  cases ht : q.lexeme.token <;> simp [ht, Token.startsOperand, Token.isNumber] at hs h

theorem sound_single {b : Bool} {t : Token} {c : Char} (i : Nat) (hb : b = true → t.startsOperand = true)
    (hc : t.char? = some c) : (single b t c i).Sound where
  implied := hb
  head := ⟨c, rfl⟩
  char c' hc' := by
    rw [single, hc, Option.some.injEq] at hc'
    rw [single, hc']
  digits h := by cases t <;> simp [single, Token.isNumber, Token.char?] at h hc
  value v h := by
    obtain rfl : t = .num v := h
    cases hc

end Piece

/-! ## The pieces -/

def Sign.pieces : Option Sign → List Piece
  | none   => []
  | some s => [.single false (.op s.op) s.char s.pos]

def Joint.isImplied : Joint → Bool
  | written _ _ => false
  | implied     => true

def Joint.pieces : Joint → List Piece
  | written o i => [.single false (.op o) o.symbol i]
  | implied     => []

def digitRun (ds : List (Fin 10 × Nat)) : List (Char × Nat) :=
  ds.map fun d => ((Symbol.digit d.1).char, d.2)

mutual
/-- The pieces of an operand, before which a `*` may be implied. -/
def Operand.pieces (implied : Bool) : Operand → List Piece
  | .number ds   => [⟨implied, ⟨.num (numeral ds : Rat), (Operand.number ds).pos⟩, digitRun ds⟩]
  | .group i e j => .single implied .opening '(' i :: (e.pieces ++ [.single false .closing ')' j])

def Expr.pieces : Expr → List Piece
  | .mk sign first rest => Sign.pieces sign ++ first.pieces false ++ rest.pieces

def Links.pieces : Links → List Piece
  | .nil         => []
  | .cons j o ls => j.pieces ++ o.pieces j.isImplied ++ ls.pieces
end

/-! ## Nothing is lost -/

mutual
theorem Operand.flatMap_lexemes (b : Bool) : ∀ o : Operand,
    (o.pieces b).flatMap Piece.lexemes = (if b then [⟨.op .mul, o.pos⟩] else []) ++ o.lexemes
  | .number ds   => by cases b <;> simp [Operand.pieces, Operand.lexemes, Piece.lexemes]
  | .group i e j => by
    have he := e.flatMap_lexemes
    cases b <;> simp [Operand.pieces, Operand.lexemes, Piece.lexemes, Piece.single, Operand.pos, he]

theorem Expr.flatMap_lexemes : ∀ e : Expr, e.pieces.flatMap Piece.lexemes = e.lexemes
  | .mk sign first rest => by
    have hf := first.flatMap_lexemes false
    have hr := rest.flatMap_lexemes
    cases sign <;> simp [Expr.pieces, Expr.lexemes, Sign.pieces, Sign.lexemes, Piece.single, Piece.lexemes, hf, hr]

theorem Links.flatMap_lexemes : ∀ ls : Links, ls.pieces.flatMap Piece.lexemes = ls.lexemes
  | .nil         => rfl
  | .cons j o ls => by
    have ho := o.flatMap_lexemes j.isImplied
    have hs := ls.flatMap_lexemes
    cases j <;>
      simp [Links.pieces, Links.lexemes, Joint.pieces, Joint.lexeme, Joint.isImplied, Piece.single, Piece.lexemes] at ho ⊢ <;>
      simp [ho, hs]
end

mutual
theorem Operand.flatMap_run (b : Bool) : ∀ o : Operand, (o.pieces b).flatMap Piece.run = o.write
  | .number ds   => by simp [Operand.pieces, Operand.write, digitRun]
  | .group i e j => by
    have he := e.flatMap_run
    simp [Operand.pieces, Operand.write, Piece.single, he]

theorem Expr.flatMap_run : ∀ e : Expr, e.pieces.flatMap Piece.run = e.write
  | .mk sign first rest => by
    have hf := first.flatMap_run false
    have hr := rest.flatMap_run
    cases sign <;> simp [Expr.pieces, Expr.write, Sign.pieces, Sign.write, Piece.single, hf, hr]

theorem Links.flatMap_run : ∀ ls : Links, ls.pieces.flatMap Piece.run = ls.write
  | .nil         => rfl
  | .cons j o ls => by
    have ho := o.flatMap_run j.isImplied
    have hs := ls.flatMap_run
    cases j <;> simp [Links.pieces, Links.write, Joint.pieces, Joint.write, Piece.single, ho, hs]
end

/-! ## Every piece is sound -/

theorem Symbol.isDigit_char (d : Fin 10) : (Symbol.digit d).char.isDigit = true := by
  revert d
  decide

theorem Symbol.toNat_char (d : Fin 10) : (Symbol.digit d).char.toNat - '0'.toNat = d.val := by
  revert d
  decide

/-- The number that digits spell is that of their characters in the decimal system. -/
theorem numeral_eq_ofDigitChars (ds : List (Fin 10 × Nat)) :
    numeral ds = Nat.ofDigitChars 10 ((digitRun ds).map Prod.fst) 0 := by
  simp only [numeral, Nat.ofDigitChars, digitRun, List.map_map, List.foldl_map, Function.comp_apply, Symbol.toNat_char]

mutual
theorem Operand.sound_pieces {b : Bool} : ∀ {o : Operand}, o.WellFormed → ∀ p ∈ o.pieces b, p.Sound
  | .number [],             hw, _, _ => absurd rfl hw
  | .number ((n, i) :: ds), _,  p, hp => by
    rw [List.mem_singleton.1 hp]
    refine ⟨fun _ => rfl, ⟨_, rfl⟩, ?_, fun _ x hx => ?_, fun v hv => ?_⟩
    · rintro c ⟨⟩
    · obtain ⟨d, -, rfl⟩ := List.mem_map.1 hx
      exact Symbol.isDigit_char d.1
    · cases hv
      rw [numeral_eq_ofDigitChars]
  | .group i e j,           hw, p, hp => by
    rcases List.mem_cons.1 hp with rfl | hp
    · exact Piece.sound_single i (fun _ => rfl) rfl
    · rcases List.mem_append.1 hp with hp | hp
      · exact e.sound_pieces hw p hp
      · rw [List.mem_singleton.1 hp]
        exact Piece.sound_single j nofun rfl

theorem Expr.sound_pieces : ∀ (e : Expr), e.WellFormed → ∀ p ∈ e.pieces, p.Sound
  | .mk sign first rest, hw, p, hp => by
    rcases List.mem_append.1 hp with hp | hp
    · rcases List.mem_append.1 hp with hp | hp
      · cases sign with
        | none => cases hp
        | some s =>
          rw [List.mem_singleton.1 hp]
          exact Piece.sound_single s.pos nofun (congrArg some s.symbol_op)
      · exact Operand.sound_pieces hw.1 p hp
    · exact Links.sound_pieces hw.2 p hp

theorem Links.sound_pieces : ∀ {ls : Links} {before : Operand}, ls.WellFormed before → ∀ p ∈ ls.pieces, p.Sound
  | .cons j o ls, before, hw, p, hp => by
    rcases List.mem_append.1 hp with hp | hp
    · rcases List.mem_append.1 hp with hp | hp
      · cases j with
        | implied => cases hp
        | written x i =>
          rw [List.mem_singleton.1 hp]
          exact Piece.sound_single i nofun rfl
      · exact Operand.sound_pieces hw.2.1 p hp
    · exact Links.sound_pieces hw.2.2 p hp
end

/-! ## How pieces meet -/

theorem Operand.head?_pieces (b : Bool) : ∀ o : Operand, ∃ p, (o.pieces b).head? = some p ∧ p.implied = b ∧
    p.lexeme.token.startsOperand = true ∧ p.lexeme.token.isNumber = !o.isGroup
  | .number _    => ⟨_, rfl, rfl, rfl, rfl⟩
  | .group _ _ _ => ⟨_, rfl, rfl, rfl, rfl⟩

theorem Operand.getLast?_pieces (b : Bool) : ∀ o : Operand, ∃ p, (o.pieces b).getLast? = some p ∧
    p.lexeme.token.endsOperand = true ∧ p.lexeme.token.isNumber = !o.isGroup
  | .number _    => ⟨_, rfl, rfl, rfl⟩
  | .group i e j => by
    refine ⟨.single false .closing ')' j, ?_, rfl, rfl⟩
    rw [Operand.pieces, ← List.cons_append, List.getLast?_concat]

theorem Operand.implied_of_head? {b : Bool} {o : Operand} {ps : List Piece} {p : Piece}
    (h : p ∈ (o.pieces b ++ ps).head?) : p.implied = b := by
  obtain ⟨q, hq, hi, -⟩ := o.head?_pieces b
  rw [List.head?_append, hq] at h
  cases h
  exact hi

/-- No `*` is implied before an expression. -/
theorem Expr.implied_of_head? : ∀ {e : Expr} {ps : List Piece} {p : Piece}, p ∈ (e.pieces ++ ps).head? → p.implied = false
  | .mk (some s) first rest, ps, p, h => by
    cases h
    rfl
  | .mk none first rest, ps, p, h => by
    rw [Expr.pieces, Sign.pieces, List.nil_append, List.append_assoc] at h
    exact Operand.implied_of_head? h

/-- A piece that does not end an operand meets the first piece of what no `*` is implied before. -/
theorem isChain_cons_pieces {p : Piece} {ps : List Piece} (hp : p.lexeme.token.endsOperand = false)
    (hq : ∀ q ∈ ps.head?, q.implied = false) (hs : ps.IsChain Piece.Meets) : (p :: ps).IsChain Piece.Meets :=
  List.isChain_cons.2 ⟨fun q h => Piece.meets_of_not_endsOperand hp (hq q h), hs⟩

/-- Pieces that end in those of an operand, and the pieces of what may follow it. -/
theorem isChain_append_links {ps : List Piece} {o : Operand} {b : Bool} {ls : Links}
    (ho : (ps ++ o.pieces b).IsChain Piece.Meets) (hs : ls.pieces.IsChain Piece.Meets)
    (hm : ∀ p : Piece, p.lexeme.token.endsOperand = true → p.lexeme.token.isNumber = !o.isGroup →
      ∀ q ∈ ls.pieces.head?, p.Meets q) : (ps ++ o.pieces b ++ ls.pieces).IsChain Piece.Meets := by
  refine List.isChain_append.2 ⟨ho, hs, fun p hp q hq => ?_⟩
  obtain ⟨p', hl, he, hn⟩ := o.getLast?_pieces b
  rw [List.getLast?_append, hl] at hp
  cases hp
  exact hm _ he hn q hq

mutual
theorem Operand.isChain_pieces {b : Bool} : ∀ {o : Operand}, o.WellFormed → (o.pieces b).IsChain Piece.Meets
  | .number _,    _  => List.isChain_singleton _
  | .group i e j, hw => by
    have hclosed : (e.pieces ++ [Piece.single false .closing ')' j]).IsChain Piece.Meets := by
      refine List.isChain_append.2 ⟨e.isChain_pieces hw, List.isChain_singleton _, fun x _ y hy => ?_⟩
      cases hy
      exact Piece.meets_of_not_startsOperand rfl rfl
    exact isChain_cons_pieces rfl (fun q hq => Expr.implied_of_head? hq) hclosed

theorem Expr.isChain_pieces : ∀ e : Expr, e.WellFormed → e.pieces.IsChain Piece.Meets
  | .mk sign first rest, hw => by
    obtain ⟨hs, hm⟩ := Links.isChain_pieces hw.2
    refine isChain_append_links ?_ hs hm
    cases sign with
    | none   => exact Operand.isChain_pieces hw.1
    | some s =>
      refine isChain_cons_pieces rfl (fun q hq => ?_) (Operand.isChain_pieces hw.1)
      exact Operand.implied_of_head? (by rwa [List.append_nil])

/-- The pieces after an operand: any piece that ends as the operand does meets the first of them. -/
theorem Links.isChain_pieces : ∀ {ls : Links} {before : Operand}, ls.WellFormed before →
    ls.pieces.IsChain Piece.Meets ∧ ∀ p : Piece, p.lexeme.token.endsOperand = true →
      p.lexeme.token.isNumber = !before.isGroup → ∀ q ∈ ls.pieces.head?, p.Meets q
  | .nil, _, _ => ⟨List.isChain_nil, fun _ _ _ _ hq => by cases hq⟩
  | .cons (.written x i) o ls, before, ⟨_, ho, hw⟩ => by
    obtain ⟨hs, hm⟩ := Links.isChain_pieces hw
    refine ⟨isChain_append_links ?_ hs hm, fun p _ _ q hq => ?_⟩
    · refine isChain_cons_pieces rfl (fun q hq => ?_) (Operand.isChain_pieces ho)
      exact Operand.implied_of_head? (by rwa [List.append_nil])
    · cases hq
      exact Piece.meets_of_not_startsOperand rfl rfl
  | .cons .implied o ls, before, ⟨hj, ho, hw⟩ => by
    obtain ⟨hs, hm⟩ := Links.isChain_pieces hw
    refine ⟨isChain_append_links (Operand.isChain_pieces ho) hs hm, fun p hp hn q hq => ?_⟩
    obtain ⟨q', hq', hi, hstarts, hnum⟩ := o.head?_pieces true
    rw [Links.pieces, Joint.pieces, List.nil_append, Joint.isImplied, List.head?_append, hq'] at hq
    cases hq
    refine ⟨by rw [hi, hp, hstarts]; rfl, fun h => ?_⟩
    rw [hn, hnum] at h
    rcases hj with hj | hj <;> simp [hj] at h
end

end ExactCalc
