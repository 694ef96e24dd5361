import Mathlib
import ExactCalc.Reading
import ExactCalc.Expr.Order
/-!
# The layout of an expression

Which lexemes an expression is read into, and in which slots its groups lie.  `Expr.reading` puts both together; it is
what the scan of the text makes of it, though it is said here of the expression alone.
-/
namespace ExactCalc

/-! ## Lexemes -/

def Sign.op (s : Sign) : Op :=
  if s.negative then .sub else .add

theorem Sign.symbol_op (s : Sign) : s.op.symbol = s.char := by
  unfold op char
  split <;> rfl

def Sign.lexemes : Option Sign → List Lexeme
  | none   => []
  | some s => [⟨.op s.op, s.pos⟩]

def Operand.pos : Operand → Nat
  | .number []            => 0
  | .number ((_, i) :: _) => i
  | .group i _ _          => i

/-- The lexeme of a joint; `next` is the position of the character after it, which an implied `*` is read at. -/
def Joint.lexeme (next : Nat) : Joint → Lexeme
  | written o i => ⟨.op o, i⟩
  | implied     => ⟨.op .mul, next⟩

theorem Joint.token_lexeme (next : Nat) (j : Joint) : (j.lexeme next).token = .op j.op := by
  cases j <;> rfl

mutual
def Operand.lexemes : Operand → List Lexeme
  | .number ds   => [⟨.num (numeral ds : Rat), (Operand.number ds).pos⟩]
  | .group i e j => ⟨.opening, i⟩ :: (e.lexemes ++ [⟨.closing, j⟩])

def Expr.lexemes : Expr → List Lexeme
  | .mk sign first rest => Sign.lexemes sign ++ first.lexemes ++ rest.lexemes

def Links.lexemes : Links → List Lexeme
  | .nil         => []
  | .cons j o ls => j.lexeme o.pos :: (o.lexemes ++ ls.lexemes)
end

theorem Operand.length_lexemes_pos : ∀ o : Operand, 0 < o.lexemes.length
  | .number _    => Nat.one_pos
  | .group _ _ _ => by simp [lexemes]

theorem Expr.length_lexemes_pos : ∀ e : Expr, 0 < e.lexemes.length
  | .mk sign first rest => by
    have := first.length_lexemes_pos
    simp only [lexemes, List.length_append]
    omega

/-! ## Blocks

A block is a group with the span that its tokens fill.  Blocks come in the order in which the groups are closed. -/

/-- The span of an expression of which the first token is in `slot`. -/
def Expr.span (depth slot : Nat) (e : Expr) : Span :=
  ⟨depth, slot, slot + e.lexemes.length - 1⟩

mutual
def Operand.blocks (depth slot : Nat) : Operand → List (Span × Expr)
  | .number _    => []
  | .group _ e _ => e.inner (depth + 1) (slot + 1) ++ [(e.span (depth + 1) (slot + 1), e)]

/-- The blocks inside an expression, without its own. -/
def Expr.inner (depth slot : Nat) : Expr → List (Span × Expr)
  | .mk sign first rest =>
    first.blocks depth (slot + (Sign.lexemes sign).length) ++
      rest.blocks depth (slot + (Sign.lexemes sign).length + first.lexemes.length)

def Links.blocks (depth slot : Nat) : Links → List (Span × Expr)
  | .nil         => []
  | .cons _ o ls => o.blocks depth (slot + 1) ++ ls.blocks depth (slot + 1 + o.lexemes.length)
end

/-- The blocks of an expression; its own is the last. -/
def Expr.blocks (depth slot : Nat) (e : Expr) : List (Span × Expr) :=
  e.inner depth slot ++ [(e.span depth slot, e)]

theorem Operand.blocks_group (depth slot i j : Nat) (e : Expr) :
    (Operand.group i e j).blocks depth slot = e.blocks (depth + 1) (slot + 1) := rfl

/-- What holds of the blocks inside an expression and of its own holds of all its blocks. -/
theorem Expr.forall_mem_blocks {e : Expr} {depth slot : Nat} {p : Span × Expr → Prop}
    (hinner : ∀ b ∈ e.inner depth slot, p b) (hown : p (e.span depth slot, e)) : ∀ b ∈ e.blocks depth slot, p b :=
  List.forall_mem_append.2 ⟨hinner, List.forall_mem_singleton.2 hown⟩

/-- What an expression is read into. -/
def Expr.reading (e : Expr) : Reading :=
  ⟨e.lexemes, SpanTable.ofList ((e.blocks 0 0).map Prod.fst)⟩

end ExactCalc
