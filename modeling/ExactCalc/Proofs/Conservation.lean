import Mathlib.Data.List.Forall2
import ExactCalc.Proofs.Stops
import ExactCalc.Proofs.Trace
/-!
# What folding conserves

Whatever the row and the table, no slot comes to hold something unrelated to what it held, and folds are paid for: each
one uses up an operator and two live cells.  This is said of a stretch of folding (`Conserves`), holds of every single
change, and carries over to changes in a row; so it holds of the whole folding, also of one that stops at a problem
(`foldTable_conserves`).
-/
namespace ExactCalc

/-! ## Slots and counts -/

/-- What a cell may hold later.  Spent cells stay spent, parentheses can only be spent, a number can be negated, and an
operator can give way to a number. -/
def Cell.Becomes : Cell → Cell → Prop
  | none,          c => c = none
  | some (.num r), c => c = none ∨ c = some (.num r) ∨ c = some (.num (-r))
  | some (.op op), c => c = none ∨ c = some (.op op) ∨ ∃ r, c = some (.num r)
  | some .opening, c => c = none ∨ c = some .opening
  | some .closing, c => c = none ∨ c = some .closing

namespace Cell

theorem Becomes.refl (c : Cell) : c.Becomes c := by
  rcases c with _ | _ | _ | _ | _ <;> simp [Becomes]

theorem becomes_none (c : Cell) : c.Becomes none := by
  rcases c with _ | _ | _ | _ | _ <;> simp [Becomes]

theorem Becomes.trans {a b c : Cell} (hab : a.Becomes b) (hbc : b.Becomes c) : a.Becomes c := by
  match a with
  | none =>
    obtain rfl := hab
    exact hbc
  | some (.num r) =>
    rcases hab with rfl | rfl | rfl
    · exact .inl hbc
    · exact hbc
    · rcases hbc with rfl | rfl | rfl
      · exact .inl rfl
      · exact .inr (.inr rfl)
      · exact .inr (.inl (by rw [neg_neg]))
  | some (.op op) =>
    rcases hab with rfl | rfl | ⟨r, rfl⟩
    · exact .inl hbc
    · exact hbc
    · rcases hbc with rfl | rfl | rfl
      · exact .inl rfl
      · exact .inr (.inr ⟨_, rfl⟩)
      · exact .inr (.inr ⟨_, rfl⟩)
  | some .opening =>
    rcases hab with rfl | rfl
    · exact .inl hbc
    · exact hbc
  | some .closing =>
    rcases hab with rfl | rfl
    · exact .inl hbc
    · exact hbc

def isOperator : Cell → Bool
  | some (.op _) => true
  | _            => false

theorem Becomes.isOperator {a b : Cell} (h : a.Becomes b) (hb : b.isOperator = true) : a.isOperator = true := by
  match a with
  | none =>
    obtain rfl := h
    cases hb
  | some (.num r) => rcases h with rfl | rfl | rfl <;> cases hb
  | some (.op op) => rfl
  | some .opening => rcases h with rfl | rfl <;> cases hb
  | some .closing => rcases h with rfl | rfl <;> cases hb

theorem Becomes.isSome {a b : Cell} (h : a.Becomes b) (hb : b.isSome = true) : a.isSome = true := by
  cases a with
  | none =>
    obtain rfl := h
    cases hb
  | some _ => rfl

end Cell

def operatorCount (cells : List Cell) : Nat :=
  cells.countP Cell.isOperator

def liveCount (cells : List Cell) : Nat :=
  cells.countP Option.isSome

section
variable (c : Cell) (a b : List Cell)

theorem operatorCount_cons : operatorCount (c :: a) = operatorCount a + if c.isOperator then 1 else 0 :=
  List.countP_cons

theorem operatorCount_append : operatorCount (a ++ b) = operatorCount a + operatorCount b :=
  List.countP_append

theorem operatorCount_reverse : operatorCount a.reverse = operatorCount a :=
  List.countP_reverse

theorem liveCount_cons : liveCount (c :: a) = liveCount a + if c.isSome then 1 else 0 :=
  List.countP_cons

theorem liveCount_append : liveCount (a ++ b) = liveCount a + liveCount b :=
  List.countP_append

theorem liveCount_reverse : liveCount a.reverse = liveCount a :=
  List.countP_reverse

end

theorem countP_le_of_forall₂ {α : Type} {R : α → α → Prop} {q : α → Bool} (hq : ∀ a b, R a b → q b = true → q a = true)
    {xs ys : List α} (h : List.Forall₂ R xs ys) : ys.countP q ≤ xs.countP q := by
  induction h with
  | nil => exact Nat.le_refl _
  | @cons a b xs ys hab _ ih =>
    rw [List.countP_cons, List.countP_cons]
    by_cases hb : q b = true
    · rw [if_pos hb, if_pos (hq a b hab hb)]
      omega
    · rw [if_neg hb]
      omega

theorem forall₂_becomes_refl (cells : List Cell) : List.Forall₂ Cell.Becomes cells cells :=
  List.forall₂_same.2 fun c _ => .refl c

theorem forall₂_becomes_trans {a b c : List Cell} (hab : List.Forall₂ Cell.Becomes a b)
    (hbc : List.Forall₂ Cell.Becomes b c) : List.Forall₂ Cell.Becomes a c := by
  induction hab generalizing c with
  | nil => exact hbc
  | cons h _ ih =>
    cases hbc with
    | cons h' hbc => exact .cons (h.trans h') (ih hbc)

theorem forall₂_becomes_set_none (slot : Nat) (cells : List Cell) :
    List.Forall₂ Cell.Becomes cells (cells.set slot none) := by
  induction cells generalizing slot with
  | nil => exact .nil
  | cons c cells ih =>
    cases slot with
    | zero      => exact .cons c.becomes_none (forall₂_becomes_refl cells)
    | succ slot => exact .cons (.refl c) (ih slot)

/-! ## A stretch of folding -/

/-- A row has become another by the given folds and by spending and negating: every slot holds what it may hold, every
fold has the exact result of its operator, and each used up an operator and two live cells. -/
structure Conserves (before : List Cell) (steps : List Step) (after : List Cell) : Prop where
  slots     : List.Forall₂ Cell.Becomes before after
  exact     : ∀ s ∈ steps, s.op.apply s.left s.right = some s.result
  operators : operatorCount after + steps.length ≤ operatorCount before
  live      : liveCount after + 2 * steps.length ≤ liveCount before

theorem Conserves.of_slots {before after : List Cell} (h : List.Forall₂ Cell.Becomes before after) :
    Conserves before [] after where
  slots     := h
  exact     := fun _ hs => (List.not_mem_nil hs).elim
  operators := countP_le_of_forall₂ (fun _ _ h => h.isOperator) h
  live      := countP_le_of_forall₂ (fun _ _ h => h.isSome) h

theorem Conserves.trans {a b c : List Cell} {ss ts : List Step} (h : Conserves a ss b) (h' : Conserves b ts c) :
    Conserves a (ss ++ ts) c where
  slots     := forall₂_becomes_trans h.slots h'.slots
  exact     := fun s hs => (List.mem_append.1 hs).elim (h.exact s) (h'.exact s)
  operators := by
    have h₁ := h.operators
    have h₂ := h'.operators
    rw [List.length_append]
    omega
  live      := by
    have h₁ := h.live
    have h₂ := h'.live
    rw [List.length_append]
    omega

/-- What an operand loses when it is spent. -/
theorem takeNearest_counts {cells rest : List Cell} {r : Rat} (h : takeNearest cells = some (.num r, rest)) :
    List.Forall₂ Cell.Becomes cells rest ∧ operatorCount rest = operatorCount cells ∧
      liveCount rest + 1 = liveCount cells := by
  obtain ⟨n, far, rfl, rfl⟩ := takeNearest_eq_some_iff.1 h
  refine ⟨List.rel_append (forall₂_becomes_refl _) (.cons (Cell.becomes_none _) (forall₂_becomes_refl _)), ?_, ?_⟩
  · simp only [operatorCount_append, operatorCount_cons, Cell.isOperator, Bool.false_eq_true, ↓reduceIte]
  · simp only [liveCount_append, liveCount_cons, Option.isSome_none, Option.isSome_some, Bool.false_eq_true, ↓reduceIte]
    omega

/-- **A fold uses up its operator and two live cells.** -/
theorem conserves_fold {pos : Nat} {op : Op} {left right left' right' : List Cell} {s : Step}
    (h : foldOperator pos op left right = .ok (s, left', right')) :
    Conserves (left.reverse ++ some (.op op) :: right) [s] (left'.reverse ++ some (.num s.result) :: right') := by
  obtain ⟨rfl, hl, hr, happly⟩ := foldOperator_eq_ok_iff.1 h
  obtain ⟨hl, hlo, hll⟩ := takeNearest_counts hl
  obtain ⟨hr, hro, hrl⟩ := takeNearest_counts hr
  refine ⟨List.rel_append (List.rel_reverse hl) (.cons (.inr (.inr ⟨_, rfl⟩)) hr), ?_, ?_, ?_⟩
  · intro t ht
    rw [List.mem_singleton.1 ht]
    exact happly
  · simp only [operatorCount_append, operatorCount_reverse, operatorCount_cons, Cell.isOperator, List.length_singleton,
      Bool.false_eq_true, ↓reduceIte]
    omega
  · simp only [liveCount_append, liveCount_reverse, liveCount_cons, Option.isSome_some, List.length_singleton,
      ↓reduceIte]
    omega

/-! ## The parts of folding -/

def Folding.steps (f : Folding) : List Step :=
  f.events.filterMap Event.step?

theorem Conserves.andThen {before : List Cell} {f : Folding} {next : List Cell → Folding}
    (hf : Conserves before f.steps f.cells) (hn : ∀ cells, Conserves cells (next cells).steps (next cells).cells) :
    Conserves before (f.andThen next).steps (f.andThen next).cells := by
  unfold Folding.andThen
  split
  · exact hf
  · have h := hf.trans (hn f.cells)
    rwa [Folding.steps, Folding.steps, ← List.filterMap_append] at h

section
variable (positions : List Nat)

theorem conserves_sweep (m : Bool) : ∀ (n : Nat) (left right : List Cell),
    Conserves (left.reverse ++ right) (sweep positions m n left right).steps (sweep positions m n left right).cells
  | 0,     left, right      => .of_slots (forall₂_becomes_refl _)
  | n + 1, left, []         => .of_slots (by rw [List.append_nil]; exact forall₂_becomes_refl _)
  | n + 1, left, c :: right => by
    unfold sweep
    cases ho : operatorOf m c with
    | none =>
      have ih := conserves_sweep m n (c :: left) right
      rwa [List.reverse_cons, List.append_assoc, List.singleton_append] at ih
    | some op =>
      obtain rfl := eq_of_operatorOf ho
      dsimp only
      cases hf : foldOperator (positionAt positions left.length) op left right with
      | error p => exact .of_slots (forall₂_becomes_refl _)
      | ok x =>
        obtain ⟨s, left', right'⟩ := x
        have ih := conserves_sweep m n (some (.num s.result) :: left') right'
        rw [List.reverse_cons, List.append_assoc, List.singleton_append] at ih
        exact (conserves_fold hf).trans ih

theorem conserves_passes (start stop : Nat) (cells : List Cell) :
    Conserves cells (passes positions start stop cells).steps (passes positions start stop cells).cells := by
  have hpass (m : Bool) (cells : List Cell) :
      Conserves cells (pass positions m start stop cells).steps (pass positions m start stop cells).cells := by
    have h := conserves_sweep positions m (stop + 1 - start) (cells.take start).reverse (cells.drop start)
    rwa [List.reverse_reverse, List.take_append_drop] at h
  exact (hpass true cells).andThen (hpass false)

theorem forall₂_becomes_negateFirst {n k : Nat} {cells cells' : List Cell} (h : negateFirst n cells = .ok (k, cells')) :
    List.Forall₂ Cell.Becomes cells cells' := by
  fun_induction negateFirst n cells generalizing k cells' with
  | case1 n r cells =>
    cases h
    exact .cons (.inr (.inr rfl)) (forall₂_becomes_refl cells)
  | case2 n cells k₀ cells₀ h₀ ih =>
    cases h
    exact .cons rfl (ih h₀)
  | case3 => cases h
  | case4 => cases h

theorem conserves_foldSigned (start stop : Nat) (cells : List Cell) :
    Conserves cells (foldSigned positions start stop cells).steps (foldSigned positions start stop cells).cells := by
  have hspend {c : Cell} {after after' : List Cell} (hrow : cells.drop start = c :: after)
      (h : List.Forall₂ Cell.Becomes after after') :
      Conserves cells [] (cells.take start ++ none :: after') := by
    have h : Conserves (cells.take start ++ c :: after) [] (cells.take start ++ none :: after') :=
      .of_slots (List.rel_append (forall₂_becomes_refl _) (.cons c.becomes_none h))
    rwa [← hrow, List.take_append_drop] at h
  unfold foldSigned
  split
  · rename_i after hrow
    exact (hspend hrow (forall₂_becomes_refl after)).trans (conserves_passes positions _ _ _)
  · rename_i after hrow
    dsimp only
    cases hk : negateFirst (stop - start) after with
    | error k => exact hspend hrow (forall₂_becomes_refl after)
    | ok x => exact (hspend hrow (forall₂_becomes_negateFirst hk)).trans (conserves_passes positions _ _ _)
  · exact conserves_passes positions _ _ _

theorem forall₂_becomes_spendParentheses (s : Span) (cells : List Cell) :
    List.Forall₂ Cell.Becomes cells (spendParentheses s cells) := by
  unfold spendParentheses
  split
  · exact forall₂_becomes_refl cells
  · exact forall₂_becomes_trans (forall₂_becomes_set_none _ _) (forall₂_becomes_set_none _ _)

theorem conserves_foldSpan (s : Span) (cells : List Cell) :
    Conserves cells (foldSpan positions s cells).steps (foldSpan positions s cells).cells := by
  unfold foldSpan
  split
  · exact (Conserves.of_slots (forall₂_becomes_spendParentheses s cells)).trans (conserves_foldSigned positions _ _ _)
  · exact .of_slots (forall₂_becomes_refl cells)

theorem conserves_foldSpans : ∀ (spans : List Span) (cells : List Cell),
    Conserves cells (foldSpans positions spans cells).steps (foldSpans positions spans cells).cells
  | [],         cells => .of_slots (forall₂_becomes_refl cells)
  | s :: spans, cells => (conserves_foldSpan positions s cells).andThen (conserves_foldSpans spans)

end

/-! ## The whole folding -/

/-- A trace is what stood there before, if anything did, and a line for each fold. -/
theorem Folded.trace_eq (f : Folded) (before : String) :
    f.trace before = "\n".intercalate ((if before = "" then [] else [before]) ++ f.steps.map Step.text) := by
  split
  · rename_i h
    rw [h, f.trace_empty, List.nil_append]
  · rename_i h
    rw [Folded.trace, extendTrace_of_ne h, List.singleton_append]

/-- **What folding conserves**, whatever the row, the positions and the table, and also where it stops at a problem.  The
row keeps its length, and every slot holds what it held or may become.  The trace is extended by a line `a op b = r` for
each fold, where `r` is exactly `a op b` and no divisor is 0.  There are at most as many folds as there were operators,
and each has left at least two live cells fewer. -/
theorem foldTable_conserves (positions : List Nat) (spans : SpanTable) (cells : List Cell) (before : String) :
    let f := foldTable positions spans cells
    f.cells.length = cells.length ∧ List.Forall₂ Cell.Becomes cells f.cells ∧
      f.trace before = "\n".intercalate ((if before = "" then [] else [before]) ++ f.steps.map Step.text) ∧
      (∀ s ∈ f.steps, s.op.apply s.left s.right = some s.result ∧ (s.op = .div → s.right ≠ 0)) ∧
      f.steps.length ≤ operatorCount cells ∧ liveCount f.cells + 2 * f.steps.length ≤ liveCount cells := by
  intro f
  have h : Conserves cells f.steps f.cells := conserves_foldSpans positions spans.deepestFirst cells
  refine ⟨length_foldTable positions spans cells, h.slots, f.trace_eq before,
    fun s hs => ⟨h.exact s hs, fun hdiv hzero => ?_⟩, ?_, h.live⟩
  · have hnone := Op.apply_eq_none_iff (a := s.left).2 ⟨hdiv, hzero⟩
    rw [h.exact s hs] at hnone
    cases hnone
  · have := h.operators
    omega

end ExactCalc
