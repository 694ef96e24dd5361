import ExactCalc.Expr.Operations
import ExactCalc.Proofs.Layout
/-!
# Every operation once

The operations of an expression in order are the nodes of its tree, each once (`Expr.operations_perm_nodes`), and their
operators are those that were read after an operand, written or implied (`Expr.operators_perm`).  Both are counted: how
often something occurs does not depend on the order in which the groups are listed.
-/
namespace ExactCalc

namespace Tree

def waitingNodes : Option (Tree × Op) → List Tree
  | none        => []
  | some (s, _) => s.nodes

theorem nodes_close (waiting : Option (Tree × Op)) (product : Tree) :
    (close waiting product).nodes = waitingNodes waiting ++ product.nodes ++ closing waiting product := by
  rcases waiting with _ | ⟨s, op⟩
  · simp [close, closing, waitingNodes]
  · rfl

/-- **The nodes of a group** are those of its operands, and one for each operator between them. -/
theorem count_nodes_group (x : Tree) : ∀ (ts : List (Op × Tree)) (waiting : Option (Tree × Op)) (product : Tree),
    (group waiting product ts).nodes.count x =
      (waitingNodes waiting).count x + product.nodes.count x + (ts.flatMap fun t => t.2.nodes).count x +
        (products product ts).count x + (sums waiting product ts).count x
  | [], waiting, product => by
    simp only [group, nodes_close, products, sums, List.flatMap_nil, List.count_append, List.count_nil]
    omega
  | (op, t) :: ts, waiting, product => by
    by_cases h : op.isMultiplicative = true
    · have ih := count_nodes_group x ts waiting (node op product t)
      simp only [nodes, List.count_append] at ih
      simp only [group, products, sums, if_pos h, List.flatMap_cons, List.count_append, List.count_cons, ih,
        List.count_nil]
      omega
    · have ih := count_nodes_group x ts (some (close waiting product, op)) t
      have hw : waitingNodes (some (close waiting product, op)) = (close waiting product).nodes := rfl
      simp only [hw, nodes_close, List.count_append] at ih
      simp only [group, products, sums, if_neg h, List.flatMap_cons, List.count_append, ih]
      omega

theorem operators_closing (waiting : Option (Tree × Op)) (product : Tree) :
    (closing waiting product).filterMap operator? = (waiting.map Prod.snd).toList := by
  rcases waiting with _ | ⟨s, op⟩ <;> rfl

theorem count_operators_own (x : Op) : ∀ (ts : List (Op × Tree)) (waiting : Option (Tree × Op)) (product : Tree),
    ((products product ts).filterMap operator?).count x + ((sums waiting product ts).filterMap operator?).count x =
      (waiting.map Prod.snd).toList.count x + (ts.map Prod.fst).count x
  | [], waiting, product => by
    simp [products, sums, operators_closing]
  | (op, t) :: ts, waiting, product => by
    by_cases h : op.isMultiplicative = true
    · have ih := count_operators_own x ts waiting (node op product t)
      have hop : operator? (node op product t) = some op := rfl
      simp only [products, sums, if_pos h, List.filterMap_cons, hop, List.map_cons, List.count_cons]
      omega
    · have ih := count_operators_own x ts (some (close waiting product, op)) t
      simp only [products, sums, if_neg h, List.filterMap_append, operators_closing, List.map_cons,
        List.count_append, List.count_cons, Option.map_some, Option.toList_some, List.count_nil] at ih ⊢
      omega

end Tree

theorem Sign.nodes_apply (sign : Option Sign) (t : Tree) : (Sign.apply sign t).nodes = t.nodes := by
  cases sign with
  | none   => rfl
  | some s =>
    rw [apply]
    split <;> rfl

/-! ## Nodes -/

mutual
theorem Operand.count_nodes (x : Tree) : ∀ (o : Operand) (depth : Nat),
    o.tree.nodes.count x = ((o.groups depth).flatMap fun g => g.2.ownOperations).count x
  | .number _,    _     => rfl
  | .group _ e _, depth => e.count_nodes x (depth + 1)

theorem Expr.count_nodes (x : Tree) : ∀ (e : Expr) (depth : Nat),
    e.tree.nodes.count x = ((e.groups depth).flatMap fun g => g.2.ownOperations).count x
  | .mk sign first rest, depth => by
    simp only [Expr.tree, Tree.count_nodes_group, Tree.waitingNodes, Sign.nodes_apply, first.count_nodes x depth,
      rest.count_nodes x depth, Expr.groups, List.flatMap_append, List.flatMap_singleton, Expr.ownOperations,
      List.count_append, List.count_nil]
    omega

theorem Links.count_nodes (x : Tree) : ∀ (ls : Links) (depth : Nat),
    (ls.trees.flatMap fun t => t.2.nodes).count x = ((ls.groups depth).flatMap fun g => g.2.ownOperations).count x
  | .nil,         _     => rfl
  | .cons j o ls, depth => by
    simp only [Links.trees, Links.groups, List.flatMap_cons, List.flatMap_append, List.count_append,
      o.count_nodes x depth, ls.count_nodes x depth]
end

theorem Expr.operations_perm_groups (e : Expr) :
    e.operations.Perm ((e.groups 0).flatMap fun g => g.2.ownOperations) := by
  rw [operations, orderedGroups, List.flatMap_map]
  exact (List.mergeSort_perm _ _).flatMap_right _

/-- **The operations in order are the nodes of the tree**, each once. -/
theorem Expr.operations_perm_nodes (e : Expr) : e.operations.Perm e.tree.nodes := by
  refine e.operations_perm_groups.trans (List.perm_iff_count.2 fun x => ?_)
  rw [e.count_nodes x 0]

/-! ## Operators -/

mutual
theorem Operand.count_operators (x : Op) : ∀ (o : Operand) (depth : Nat) (ended : Bool) (ts : List Token),
    (binaryOperators ended (o.lexemes.map Lexeme.token ++ ts)).count x =
      (((o.groups depth).flatMap fun g => g.2.ownOperations).filterMap Tree.operator?).count x +
        (binaryOperators true ts).count x
  | .number ds,   _,     _, ts => by
    simp [Operand.lexemes, Operand.groups, binaryOperators]
  | .group i e j, depth, _, ts => by
    simp only [Operand.lexemes, Operand.groups, List.map_cons, List.map_append, List.map_nil, List.cons_append,
      List.append_assoc, List.nil_append, binaryOperators, e.count_operators x (depth + 1)]

theorem Expr.count_operators (x : Op) : ∀ (e : Expr) (depth : Nat) (ts : List Token),
    (binaryOperators false (e.lexemes.map Lexeme.token ++ ts)).count x =
      (((e.groups depth).flatMap fun g => g.2.ownOperations).filterMap Tree.operator?).count x +
        (binaryOperators true ts).count x
  | .mk sign first rest, depth, ts => by
    have hs (us : List Token) : binaryOperators false ((Sign.lexemes sign).map Lexeme.token ++ us) =
        binaryOperators false us := by
      cases sign <;> rfl
    have hown := Tree.count_operators_own x rest.trees none (Sign.apply sign first.tree)
    simp only [Option.map_none, Option.toList_none, List.count_nil] at hown
    simp only [Expr.lexemes, Expr.groups, List.map_append, List.append_assoc, hs, first.count_operators x depth,
      rest.count_operators x depth, List.flatMap_append, List.flatMap_singleton, Expr.ownOperations,
      List.filterMap_append, List.count_append]
    omega

theorem Links.count_operators (x : Op) : ∀ (ls : Links) (depth : Nat) (ts : List Token),
    (binaryOperators true (ls.lexemes.map Lexeme.token ++ ts)).count x =
      (((ls.groups depth).flatMap fun g => g.2.ownOperations).filterMap Tree.operator?).count x +
        (ls.trees.map Prod.fst).count x + (binaryOperators true ts).count x
  | .nil,         _,     ts => by
    simp [Links.lexemes, Links.groups, Links.trees]
  | .cons j o ls, depth, ts => by
    simp only [Links.lexemes, Links.groups, Links.trees, List.map_cons, List.map_append, List.cons_append,
      List.append_assoc, Joint.token_lexeme, binaryOperators, ↓reduceIte, List.count_cons, o.count_operators x depth,
      ls.count_operators x depth, List.flatMap_append, List.filterMap_append, List.count_append]
    omega
end

/-- **There is one operation for each operator that was read after an operand.** -/
theorem Expr.operators_perm (e : Expr) :
    (e.operations.filterMap Tree.operator?).Perm (binaryOperators false e.reading.tokens) := by
  refine (e.operations_perm_groups.filterMap Tree.operator?).trans (List.perm_iff_count.2 fun x => ?_)
  have h := e.count_operators x 0 []
  rw [List.append_nil] at h
  exact h.symm

end ExactCalc
