import Mathlib
import ExactCalc.Expr.Order
/-!
# Chains and trees

A group that is a chain of numbers has the value of its tree: `*` and `/` first, then `+` and `-`, both from left to
right (`Expr.value_eq_of_chain`).  The two passes over a chain are one function of the kind of operator that is folded
(`Chain.pass`).
-/
namespace ExactCalc
namespace Chain

/-- What a pass over a chain does: its operations, the division by zero that ends it, and the chain that is left. -/
structure Passed where
  steps : List Step
  zero  : Option Nat
  chain : Chain

/-- A pass over a chain for one kind of operator; `a` is the number so far. -/
def pass (m : Bool) (a : Rat) : List Link → Passed
  | []      => ⟨[], none, ⟨a, []⟩⟩
  | l :: ls =>
    if l.op.isMultiplicative = m then
      match l.op.apply a l.operand with
      | none   => ⟨[], some l.pos, ⟨a, l :: ls⟩⟩
      | some r =>
        let p := pass m r ls
        { p with steps := ⟨a, l.op, l.operand, r⟩ :: p.steps }
    else
      let p := pass m l.operand ls
      { p with chain := ⟨a, ⟨l.op, l.pos, p.chain.first⟩ :: p.chain.links⟩ }

def total (a : Rat) (ls : List Link) : Rat :=
  ls.foldl (fun a l => (l.op.apply a l.operand).getD 0) a

/-- The value of a chain, if it does not divide by zero. -/
def value (c : Chain) : Option Rat :=
  if c.zeroDivision?.isSome then none
  else some (total (products c.first c.links).first (products c.first c.links).links)

theorem zeroDivision?_cons (a b : Rat) (l : Link) (ls : List Link) :
    zeroDivision? ⟨a, l :: ls⟩ = if l.op = .div ∧ l.operand = 0 then some l.pos else zeroDivision? ⟨b, ls⟩ := by
  unfold zeroDivision?
  rw [List.find?_cons]
  by_cases h : l.op = .div ∧ l.operand = 0
  · simp [h.1, h.2]
  · have : (l.op == .div && l.operand == 0) = false := by simpa [Classical.not_and_iff_not_or_not] using h
    rw [this, if_neg h]

section
variable {l : Link} {a : Rat}

theorem zeroDivision?_of_apply_none (h : l.op.apply a l.operand = none) (ls : List Link) :
    zeroDivision? ⟨a, l :: ls⟩ = some l.pos := by
  rw [zeroDivision?_cons a a, if_pos (Op.apply_eq_none_iff.1 h)]

theorem zeroDivision?_of_apply_some {r : Rat} (h : l.op.apply a l.operand = some r) (ls : List Link) :
    zeroDivision? ⟨a, l :: ls⟩ = zeroDivision? ⟨r, ls⟩ := by
  have hz : ¬(l.op = .div ∧ l.operand = 0) := by
    rw [← Op.apply_eq_none_iff (a := a), h]
    exact Option.some_ne_none r
  rw [zeroDivision?_cons a r, if_neg hz]

theorem zeroDivision?_of_additive (h : ¬l.op.isMultiplicative = true) (a b : Rat) (ls : List Link) :
    zeroDivision? ⟨a, l :: ls⟩ = zeroDivision? ⟨b, ls⟩ := by
  have hz : ¬(l.op = .div ∧ l.operand = 0) := fun hd => h (by rw [hd.1]; rfl)
  rw [zeroDivision?_cons a b, if_neg hz]

end

theorem additive_products (a : Rat) : ∀ ls : List Link, ∀ l ∈ (products a ls).links, l.op.isMultiplicative = false
  | [],      _, hl => by cases hl
  | l :: ls, k, hk => by
    unfold products at hk
    split at hk
    · exact additive_products _ ls k hk
    · rename_i h
      rcases List.mem_cons.1 hk with rfl | hk
      · simpa using h
      · exact additive_products _ ls k hk

theorem pass_true (a : Rat) : ∀ ls : List Link,
    (pass true a ls).steps = multiply a ls ∧ (pass true a ls).zero = zeroDivision? ⟨a, ls⟩ ∧
      ((pass true a ls).zero = none → (pass true a ls).chain = products a ls)
  | []      => ⟨rfl, rfl, fun _ => rfl⟩
  | l :: ls => by
    by_cases hm : l.op.isMultiplicative = true
    · cases h : l.op.apply a l.operand with
      | none =>
        rw [zeroDivision?_of_apply_none h]
        simp [pass, multiply, hm, h]
      | some r =>
        obtain ⟨h₁, h₂, h₃⟩ := pass_true r ls
        rw [zeroDivision?_of_apply_some h]
        simp only [pass, multiply, products, if_pos hm, h, h₁, h₂, true_and]
        exact fun h => h₃ (h₂.trans h)
    · obtain ⟨h₁, h₂, h₃⟩ := pass_true l.operand ls
      rw [zeroDivision?_of_additive hm a l.operand]
      simp only [pass, multiply, products, if_neg hm, h₁, h₂, true_and]
      intro h
      rw [h₃ (h₂.trans h)]

theorem pass_false (a : Rat) : ∀ ls : List Link, (∀ l ∈ ls, l.op.isMultiplicative = false) →
    pass false a ls = ⟨accumulate a ls, none, ⟨total a ls, []⟩⟩
  | [],      _ => rfl
  | l :: ls, h => by
    have hl := h l List.mem_cons_self
    have ih (r : Rat) := pass_false r ls fun k hk => h k (List.mem_cons_of_mem _ hk)
    cases hr : l.op.apply a l.operand with
    | none =>
      rw [(Op.apply_eq_none_iff.1 hr).1] at hl
      cases hl
    | some r => simp [pass, accumulate, total, hl, hr, ih r]

end Chain

/-! ## Trees without a value -/

theorem Tree.value_group_eq_none : ∀ (ts : List (Op × Tree)) (waiting : Option (Tree × Op)) (product : Tree),
    product.value = none ∨ (∃ w ∈ waiting, w.1.value = none) ∨ (∃ t ∈ ts, t.2.value = none) →
      (group waiting product ts).value = none
  | [], none, product, h => by
    rcases h with h | ⟨w, hw, -⟩ | ⟨t, ht, -⟩
    · exact h
    · cases hw
    · cases ht
  | [], some (s, op), product, h => by
    rcases h with h | ⟨w, hw, h⟩ | ⟨t, ht, -⟩
    · cases hs : s.value <;> simp [group, close, value, h, hs]
    · cases hw
      simp [group, close, value, h]
    · cases ht
  | (op, t) :: ts, waiting, product, h => by
    unfold group
    split
    · apply value_group_eq_none ts
      rcases h with h | h | ⟨t', ht, h⟩
      · exact .inl (by simp [value, h])
      · exact .inr (.inl h)
      · rcases List.mem_cons.1 ht with rfl | ht
        · left
          cases hp : product.value <;> simp [value, h, hp]
        · exact .inr (.inr ⟨t', ht, h⟩)
    · apply value_group_eq_none ts
      have hc : product.value = none ∨ (∃ w ∈ waiting, w.1.value = none) → (close waiting product).value = none :=
        fun h => value_group_eq_none [] waiting product (h.elim .inl fun h => .inr (.inl h))
      rcases h with h | h | ⟨t', ht, h⟩
      · exact .inr (.inl ⟨_, rfl, hc (.inl h)⟩)
      · exact .inr (.inl ⟨_, rfl, hc (.inr h)⟩)
      · rcases List.mem_cons.1 ht with rfl | ht
        · exact .inl h
        · exact .inr (.inr ⟨t', ht, h⟩)

theorem Links.trees_of_links : ∀ {ls : Links} {links : List Link}, ls.links = some links →
    ls.trees.map (fun t => (t.1, t.2.value)) = links.map fun l => (l.op, some l.operand)
  | .nil,         _, h => by
    cases h
    rfl
  | .cons j o ls, _, h => by
    unfold links at h
    split at h
    · rename_i v rest hv hr
      cases h
      simp [trees, hv, trees_of_links hr]
    · cases h

/-! ## Trees with a value -/

def Sign.number : Option Sign → Rat → Rat
  | none,   a => a
  | some s, a => if s.negative then -a else a

theorem Sign.value_apply (sign : Option Sign) (t : Tree) :
    (Sign.apply sign t).value = t.value.map (Sign.number sign) := by
  cases sign with
  | none =>
    rw [apply]
    cases t.value <;> rfl
  | some s =>
    obtain ⟨b, i⟩ := s
    cases b with
    | true  => rfl
    | false =>
      simp only [apply, Bool.false_eq_true, ↓reduceIte]
      cases t.value <;> rfl

namespace Chain

def joined : Option (Rat × Op) → Rat → Rat
  | none,         a => a
  | some (w, op), a => (op.apply w a).getD 0

theorem value_close {waiting : Option (Tree × Op)} {w : Option (Rat × Op)} {t : Tree} {a : Rat}
    (hw : waiting.map (fun p => (p.1.value, p.2)) = w.map fun p => (some p.1, p.2))
    (hm : ∀ p ∈ w, p.2.isMultiplicative = false) (ht : t.value = some a) :
    (Tree.close waiting t).value = some (joined w a) := by
  match waiting, w with
  | none,        none         => exact ht
  | some (s, o), some (v, o') =>
    simp only [Option.map_some, Option.some.injEq, Prod.mk.injEq] at hw
    obtain ⟨hs, rfl⟩ := hw
    have ho := hm (v, o) rfl
    cases o with
    | add | sub => simp [Tree.close, Tree.value, joined, hs, ht, Op.apply]
    | mul | div => cases ho

/-- **The tree of a chain has the value of the chain**, whatever sum waits to its left. -/
theorem value_group {ts : List (Op × Tree)} : ∀ {ls : List Link},
    ts.map (fun t => (t.1, t.2.value)) = ls.map (fun l => (l.op, some l.operand)) →
    ∀ {waiting : Option (Tree × Op)} {w : Option (Rat × Op)} {t : Tree} {a : Rat},
    waiting.map (fun p => (p.1.value, p.2)) = w.map (fun p => (some p.1, p.2)) →
    (∀ p ∈ w, p.2.isMultiplicative = false) → t.value = some a →
    (Tree.group waiting t ts).value = if (zeroDivision? ⟨a, ls⟩).isSome then none
      else some (total (joined w (products a ls).first) (products a ls).links) := by
  induction ts with
  | nil =>
    intro ls hts waiting w t a hw hm ht
    obtain rfl := List.map_eq_nil_iff.1 hts.symm
    exact value_close hw hm ht
  | cons x ts ih =>
    intro ls hts waiting w t a hw hm ht
    obtain ⟨l, ls, rfl⟩ : ∃ l ls', ls = l :: ls' := by
      cases ls with
      | nil       => cases hts
      | cons l ls => exact ⟨l, ls, rfl⟩
    obtain ⟨op, t'⟩ := x
    simp only [List.map_cons, List.cons.injEq, Prod.mk.injEq] at hts
    obtain ⟨⟨rfl, hv⟩, hts⟩ := hts
    by_cases hop : l.op.isMultiplicative = true
    · rw [Tree.group, if_pos hop]
      cases h : l.op.apply a l.operand with
      | none =>
        have hn : (Tree.node l.op t t').value = none := by simp [Tree.value, ht, hv, h]
        rw [Tree.value_group_eq_none ts waiting _ (.inl hn), zeroDivision?_of_apply_none h]
        rfl
      | some r =>
        have hn : (Tree.node l.op t t').value = some r := by simp [Tree.value, ht, hv, h]
        rw [ih hts hw hm hn, zeroDivision?_of_apply_some h, products, if_pos hop, h, Option.getD_some]
    · rw [Tree.group, if_neg hop]
      have hw' : (some (Tree.close waiting t, l.op)).map (fun p => (p.1.value, p.2)) =
          (some (joined w a, l.op)).map fun p => (some p.1, p.2) := by
        simp [value_close hw hm ht]
      rw [ih hts hw' (by simpa using hop) hv, zeroDivision?_of_additive hop a l.operand, products, if_neg hop]
      rfl

end Chain

/-- **A group whose operands have values has the value of its chain.** -/
theorem Expr.value_eq_of_chain : ∀ {e : Expr} {c : Chain}, e.chain = some c → e.value = c.value
  | .mk sign first rest, c, h => by
    simp only [chain] at h
    split at h
    · rename_i v links hv hr
      cases h
      have hw : ∀ p ∈ (none : Option (Rat × Op)), p.2.isMultiplicative = false := fun _ hp => by cases hp
      exact Chain.value_group (Links.trees_of_links hr) rfl hw hv
    · cases h

end ExactCalc
