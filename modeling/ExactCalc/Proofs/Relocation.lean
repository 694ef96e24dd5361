import ExactCalc.Proofs.Feed
/-!
# Positions are only labels

The scan never computes with the position of a character: it hands it on, into a lexeme, an opening or a problem.  So
moving all characters moves all positions in the outcome and changes nothing else (`Scan.feed_relocate`), and whether a
text is accepted depends on its visible characters alone (`exists_ofChars_iff_of_map_fst`).
-/
namespace ExactCalc

def Problem.relocate (f : Nat → Nat) : Problem → Problem
  | unmatchedParenthesis i  => unmatchedParenthesis (f i)
  | emptyParentheses i      => emptyParentheses (f i)
  | leadingMultiplicative i => leadingMultiplicative (f i)
  | adjacentOperators i     => adjacentOperators (f i)
  | trailingOperator i      => trailingOperator (f i)
  | invalidCharacter i c    => invalidCharacter (f i) c
  | emptyExpression         => emptyExpression
  | divisionByZero i        => divisionByZero (f i)
  | inconsistent i cause    => inconsistent (f i) cause

def Lexeme.relocate (f : Nat → Nat) (l : Lexeme) : Lexeme :=
  ⟨l.token, f l.pos⟩

def Opening.relocate (f : Nat → Nat) (o : Opening) : Opening :=
  { o with pos := f o.pos }

def Reading.relocate (f : Nat → Nat) (r : Reading) : Reading :=
  { r with lexemes := r.lexemes.map (Lexeme.relocate f) }

namespace Scan

variable (f : Nat → Nat)

def relocate (s : Scan) : Scan :=
  { s with
    lexemes := s.lexemes.map (Lexeme.relocate f)
    pending := s.pending.map (Opening.relocate f) }

def relocated : Except Problem Scan → Except Problem Scan
  | .error p => .error (p.relocate f)
  | .ok s    => .ok (s.relocate f)

theorem digit_relocate (s : Scan) (i : Nat) (d : Fin 10) :
    (s.relocate f).digit (f i) d = relocated f (s.digit i d) := by
  obtain ⟨lexemes, pending, depth, spans⟩ := s
  match lexemes with
  | []                   => rfl
  | ⟨.num _, _⟩ :: _     => rfl
  | ⟨.opening, _⟩ :: _   => rfl
  | ⟨.closing, _⟩ :: _   => rfl
  | ⟨.op o, p⟩ :: before =>
    cases o with
    | div =>
      by_cases h : d.val = 0
      · simp [digit, relocate, relocated, Lexeme.relocate, Problem.relocate, h]
      · simp [digit, relocate, relocated, Lexeme.relocate, push, h]
    | add | sub | mul => rfl

theorem operator_relocate (s : Scan) (i : Nat) (o : Op) (final : Bool) :
    (s.relocate f).operator (f i) o final = relocated f (s.operator i o final) := by
  obtain ⟨lexemes, pending, depth, spans⟩ := s
  match lexemes with
  | []                 => cases o <;> cases final <;> rfl
  | ⟨.num _, _⟩ :: _   => cases o <;> cases final <;> rfl
  | ⟨.opening, _⟩ :: _ => cases o <;> cases final <;> rfl
  | ⟨.closing, _⟩ :: _ => cases o <;> cases final <;> rfl
  | ⟨.op _, _⟩ :: _    => rfl

theorem enter_relocate (s : Scan) (i : Nat) : (s.relocate f).enter (f i) = (s.enter i).relocate f := by
  simp [enter, relocate, Lexeme.relocate, Opening.relocate]

theorem opening_relocate (s : Scan) (i : Nat) : (s.relocate f).opening (f i) = (s.opening i).relocate f := by
  obtain ⟨lexemes, pending, depth, spans⟩ := s
  match lexemes with
  | []                 => exact enter_relocate f _ i
  | ⟨.num _, _⟩ :: _   => exact enter_relocate f (push _ (.op .mul) i) i
  | ⟨.opening, _⟩ :: _ => exact enter_relocate f _ i
  | ⟨.closing, _⟩ :: _ => exact enter_relocate f (push _ (.op .mul) i) i
  | ⟨.op _, _⟩ :: _    => exact enter_relocate f _ i

theorem closing_relocate (s : Scan) (i : Nat) :
    (s.relocate f).closing (f i) = relocated f (s.closing i) := by
  obtain ⟨lexemes, pending, depth, spans⟩ := s
  match pending, lexemes with
  | [],     _                  => rfl
  | _ :: _, []                 => rfl
  | _ :: _, ⟨.opening, _⟩ :: _ => rfl
  | _ :: _, ⟨.op _, _⟩ :: _    => rfl
  | o :: _, ⟨.num _, _⟩ :: _   => simp [closing, relocate, relocated, Lexeme.relocate, Opening.relocate]
  | o :: _, ⟨.closing, _⟩ :: _ => simp [closing, relocate, relocated, Lexeme.relocate, Opening.relocate]

/-- **A step at another position is the same step**, with the positions moved. -/
theorem step_relocate (s : Scan) (i : Nat) (c : Char) (final : Bool) :
    (s.relocate f).step (f i) c final = relocated f (s.step i c final) := by
  unfold step
  split
  · rfl
  · cases Symbol.ofChar? c with
    | none => rfl
    | some x =>
      cases x with
      | digit d => exact digit_relocate f s i d
      | op o    => exact operator_relocate f s i o final
      | opening => exact congrArg Except.ok (opening_relocate f s i)
      | closing => exact closing_relocate f s i

theorem feed_relocate : ∀ (xs : List (Char × Nat)) (s : Scan),
    (s.relocate f).feed (xs.map fun p => (p.1, f p.2)) = relocated f (s.feed xs)
  | [],           _ => rfl
  | (c, i) :: xs, s => by
    simp only [List.map_cons, feed, step_relocate]
    cases s.step i c false with
    | error p => rfl
    | ok s'   => exact feed_relocate xs s'

theorem finish_relocate (s : Scan) :
    (s.relocate f).finish = match s.finish with
      | .error p => .error (p.relocate f)
      | .ok r    => .ok (r.relocate f) := by
  obtain ⟨lexemes, pending, depth, spans⟩ := s
  match lexemes, pending with
  | [],                 _      => rfl
  | _ :: _,             _ :: _ => rfl
  | ⟨.op _, _⟩ :: _,    []     => rfl
  | ⟨.num _, _⟩ :: _,   []     => simp [finish, relocate, Reading.relocate, Lexeme.relocate]
  | ⟨.opening, _⟩ :: _, []     => simp [finish, relocate, Reading.relocate, Lexeme.relocate]
  | ⟨.closing, _⟩ :: _, []     => simp [finish, relocate, Reading.relocate, Lexeme.relocate]

/-- Whether characters at given positions, blanks left out, are a whole text. -/
def Accepts (xs : List (Char × Nat)) : Prop :=
  ∃ s r, feed {} xs = .ok s ∧ s.finish = .ok r

theorem accepts_relocate (xs : List (Char × Nat)) : Accepts (xs.map fun p => (p.1, f p.2)) ↔ Accepts xs := by
  have h : feed {} (xs.map fun p => (p.1, f p.2)) = relocated f (feed {} xs) := feed_relocate f xs {}
  unfold Accepts
  rw [h]
  cases feed {} xs with
  | error p => simp [relocated]
  | ok s =>
    simp only [relocated, Except.ok.injEq, exists_and_left, exists_eq_left', finish_relocate]
    cases s.finish <;> simp

end Scan

def placeOf (xs : List (Char × Nat)) (k : Nat) : Nat :=
  (xs[k]?.map Prod.snd).getD 0

/-- Characters at any positions are those at the positions 0, 1, 2 and so on, moved. -/
theorem eq_map_zipIdx (xs : List (Char × Nat)) :
    xs = (xs.map Prod.fst).zipIdx.map fun p => (p.1, placeOf xs p.2) := by
  apply List.ext_getElem?
  intro k
  cases h : xs[k]? with
  | none   => simp [h]
  | some p => simp [h, placeOf]

theorem accepts_iff_of_map_fst {xs ys : List (Char × Nat)} (h : xs.map Prod.fst = ys.map Prod.fst) :
    Scan.Accepts xs ↔ Scan.Accepts ys := by
  rw [eq_map_zipIdx xs, eq_map_zipIdx ys, Scan.accepts_relocate (placeOf xs), Scan.accepts_relocate (placeOf ys), h]

/-- **Whether a text is accepted depends on its visible characters alone.** -/
theorem exists_ofChars_iff_of_map_fst {cs : List Char} {xs : List (Char × Nat)} (h : xs.map Prod.fst = visible cs) :
    (∃ r, Reading.ofChars cs = .ok r) ↔ Scan.Accepts xs := by
  rw [← accepts_iff_of_map_fst ((map_fst_placed cs).trans h.symm)]
  simp only [ofChars_eq_ok_iff]
  exact exists_comm

end ExactCalc
