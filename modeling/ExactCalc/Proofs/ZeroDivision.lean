import ExactCalc.Proofs.Blocks
import ExactCalc.Proofs.Chain
/-!
# Divisions by zero

The division by zero that ends an evaluation is the first of the first group that has one
(`Expr.schedule_of_zeroDivision`): the whole has no value then (`Expr.value_eq_none_of_zeroDivision`), and a `/` is
written at its position (`Expr.mem_write_of_zeroDivision`).
-/
namespace ExactCalc

/-! ## Groups without a value -/

mutual
theorem Operand.value_eq_none_of_mem_blocks : ∀ {o : Operand} {depth slot : Nat}, ∀ b ∈ o.blocks depth slot,
    b.2.value = none → o.tree.value = none
  | .number _,    _, _ => fun _ hb => absurd hb List.not_mem_nil
  | .group _ e _, _, _ => Expr.forall_mem_blocks e.value_eq_none_of_mem_inner fun h => h

theorem Expr.value_eq_none_of_mem_inner : ∀ (e : Expr) {depth slot : Nat}, ∀ b ∈ e.inner depth slot,
    b.2.value = none → e.value = none
  | .mk sign first rest, depth, slot, b, hb, h => by
    apply Tree.value_group_eq_none
    rcases List.mem_append.1 hb with hb | hb
    · left
      rw [Sign.value_apply, Operand.value_eq_none_of_mem_blocks b hb h]
      rfl
    · exact .inr (.inr (Links.exists_tree_of_mem_blocks b hb h))

theorem Links.exists_tree_of_mem_blocks : ∀ {ls : Links} {depth slot : Nat}, ∀ b ∈ ls.blocks depth slot,
    b.2.value = none → ∃ t ∈ ls.trees, t.2.value = none
  | .cons j o ls, depth, slot, b, hb, h => by
    rcases List.mem_append.1 hb with hb | hb
    · exact ⟨(j.op, o.tree), List.mem_cons_self, Operand.value_eq_none_of_mem_blocks b hb h⟩
    · obtain ⟨t, ht, hv⟩ := Links.exists_tree_of_mem_blocks b hb h
      exact ⟨t, List.mem_cons_of_mem _ ht, hv⟩
end

theorem Expr.value_eq_none_of_mem_blocks {e : Expr} {depth slot : Nat} :
    ∀ b ∈ e.blocks depth slot, b.2.value = none → e.value = none :=
  forall_mem_blocks e.value_eq_none_of_mem_inner fun h => h

/-! ## The divisions by zero of a group -/

/-- The positions of the `/` before operands that are worth 0, from left to right.  An operand without a value is not
worth 0, and what divides inside an operand is not counted. -/
def Links.zeroDivisions : Links → List Nat
  | .nil         => []
  | .cons j o ls => (if j.op = .div ∧ o.tree.value = some 0 then [j.pos] else []) ++ ls.zeroDivisions

def Expr.zeroDivisions : Expr → List Nat
  | .mk _ _ rest => rest.zeroDivisions

theorem Links.zeroDivisions_of_links : ∀ {ls : Links} {links : List Link}, ls.links = some links →
    ls.zeroDivisions = (links.filter fun l => l.op == .div && l.operand == 0).map Link.pos
  | .nil,         _, h => by
    cases h
    rfl
  | .cons j o ls, _, h => by
    unfold links at h
    split at h
    · rename_i v rest hv hr
      cases h
      rw [zeroDivisions, zeroDivisions_of_links hr, hv, List.filter_cons]
      by_cases hz : j.op = .div ∧ v = 0
      · simp [hz.1, hz.2]
      · have hb : (j.op == .div && v == 0) = false := by simpa [Classical.not_and_iff_not_or_not] using hz
        simp [hz, hb]
    · cases h

/-- A chain ends in the first division by zero of its group. -/
theorem Expr.zeroDivision?_of_chain : ∀ {e : Expr} {c : Chain}, e.chain = some c →
    c.zeroDivision? = e.zeroDivisions.head?
  | .mk sign first rest, c, h => by
    simp only [chain] at h
    split at h
    · rename_i v links _ hr
      cases h
      rw [zeroDivisions, Links.zeroDivisions_of_links hr, List.head?_map, List.head?_filter, Chain.zeroDivision?]
    · cases h

/-- The groups before the one that ends a run have chains without a division by zero. -/
theorem runGroups_zeroDivision : ∀ {es : List Expr} {i : Nat}, (runGroups es).2 = some i →
    ∃ before e after, es = before ++ e :: after ∧ (∀ g ∈ before, g.zeroDivisions = []) ∧
      ∃ c, e.chain = some c ∧ c.zeroDivision? = some i
  | e :: es, i, h => by
    unfold runGroups at h
    split at h
    · cases h
    · rename_i c hc
      split at h
      · rename_i k hk
        cases h
        exact ⟨[], e, es, rfl, fun _ hg => (List.not_mem_nil hg).elim, c, hc, hk⟩
      · rename_i hk
        obtain ⟨before, g, after, rfl, hb, hg⟩ := runGroups_zeroDivision h
        have he : e.zeroDivisions = [] := by
          rw [Expr.zeroDivision?_of_chain hc] at hk
          exact List.head?_eq_none_iff.1 hk
        exact ⟨e :: before, g, after, rfl, List.forall_mem_cons.2 ⟨he, hb⟩, hg⟩

/-- **The division by zero that ends an evaluation** is the first of the first group that has one. -/
theorem Expr.schedule_of_zeroDivision {e : Expr} {i : Nat} (h : e.zeroDivision? = some i) :
    ∃ before b after, e.schedule = before ++ b :: after ∧ (∀ a ∈ before, a.2.zeroDivisions = []) ∧
      ∃ c, b.2.chain = some c ∧ c.zeroDivision? = some i := by
  obtain ⟨gs, g, gs', hg, hb, hc⟩ := runGroups_zeroDivision h
  rw [← e.map_snd_schedule] at hg
  obtain ⟨before, rest, hs, rfl, hr⟩ := List.map_eq_append_iff.1 hg
  obtain ⟨b, after, rfl, rfl, -⟩ := List.map_eq_cons_iff.1 hr
  exact ⟨before, b, after, hs, fun a ha => hb a.2 (List.mem_map_of_mem ha), hc⟩

theorem Expr.mem_blocks_of_schedule {e : Expr} {before after : List (Span × Expr)} {b : Span × Expr}
    (h : e.schedule = before ++ b :: after) : b ∈ e.blocks 0 0 :=
  (List.mergeSort_perm _ _).mem_iff.1 (h ▸ List.mem_append_right before List.mem_cons_self)

theorem Expr.value_eq_none_of_zeroDivision {e : Expr} {i : Nat} (h : e.zeroDivision? = some i) : e.value = none := by
  obtain ⟨_, b, _, hs, -, c, hc, hz⟩ := e.schedule_of_zeroDivision h
  refine value_eq_none_of_mem_blocks b (mem_blocks_of_schedule hs) ?_
  rw [value_eq_of_chain hc, Chain.value, hz]
  rfl

/-! ## Where they are written -/

theorem Links.sublist_write : ∀ ls : Links, (ls.zeroDivisions.map fun i => ('/', i)).Sublist ls.write
  | .nil         => .slnil
  | .cons j o ls => by
    rw [zeroDivisions, write, List.map_append, List.append_assoc]
    have hj : ((if j.op = .div ∧ o.tree.value = some 0 then [j.pos] else []).map fun i => ('/', i)).Sublist j.write := by
      split
      · rename_i h
        cases j with
        | written x i =>
          cases h.1
          exact .refl _
        | implied => cases h.1
      · exact List.nil_sublist _
    exact hj.append (ls.sublist_write.trans (List.sublist_append_right _ _))

theorem Expr.sublist_write : ∀ e : Expr, (e.zeroDivisions.map fun i => ('/', i)).Sublist e.write
  | .mk _ _ rest => rest.sublist_write.trans (List.sublist_append_right _ _)

mutual
theorem Operand.write_sublist : ∀ {o : Operand} {depth slot : Nat}, ∀ b ∈ o.blocks depth slot, b.2.write.Sublist o.write
  | .group i e j, depth, slot, b, hb => by
    have he : b.2.write.Sublist e.write := Expr.forall_mem_blocks e.write_sublist (.refl _) b hb
    rw [Operand.write]
    exact (he.trans (List.sublist_cons_self _ _)).trans (List.sublist_append_left _ _)

theorem Expr.write_sublist : ∀ (e : Expr) {depth slot : Nat}, ∀ b ∈ e.inner depth slot, b.2.write.Sublist e.write
  | .mk sign first rest, depth, slot, b, hb => by
    rw [Expr.write]
    rcases List.mem_append.1 hb with hb | hb
    · exact ((Operand.write_sublist b hb).trans (List.sublist_append_right _ _)).trans (List.sublist_append_left _ _)
    · exact (Links.write_sublist b hb).trans (List.sublist_append_right _ _)

theorem Links.write_sublist : ∀ {ls : Links} {depth slot : Nat}, ∀ b ∈ ls.blocks depth slot, b.2.write.Sublist ls.write
  | .cons j o ls, depth, slot, b, hb => by
    rw [Links.write]
    rcases List.mem_append.1 hb with hb | hb
    · exact ((Operand.write_sublist b hb).trans (List.sublist_append_right _ _)).trans (List.sublist_append_left _ _)
    · exact (Links.write_sublist b hb).trans (List.sublist_append_right _ _)
end

theorem Expr.write_sublist_of_mem_blocks {e : Expr} {depth slot : Nat} :
    ∀ b ∈ e.blocks depth slot, b.2.write.Sublist e.write :=
  forall_mem_blocks e.write_sublist (.refl _)

theorem Expr.mem_write_of_zeroDivision {e : Expr} {i : Nat} (h : e.zeroDivision? = some i) : ('/', i) ∈ e.write := by
  obtain ⟨_, b, _, hs, -, c, hc, hz⟩ := e.schedule_of_zeroDivision h
  have hi : i ∈ b.2.zeroDivisions := List.mem_of_head? ((zeroDivision?_of_chain hc).symm.trans hz)
  have hw := b.2.sublist_write.trans (write_sublist_of_mem_blocks b (mem_blocks_of_schedule hs))
  exact hw.subset (List.mem_map_of_mem hi)

end ExactCalc
