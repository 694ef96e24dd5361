import ExactCalc.Proofs.Evaluation
import ExactCalc.Proofs.Operations
/-!
# The trace of an evaluation

Folding does the operations of an expression in their order, and the trace is a line for each.  Without a division by
zero all of them are done (`Tree.DoneAs`); otherwise those before the first one are (`Tree.StoppedAfter`), and the
journal has their lines and no others (`trace_of_ofString_eq_ok`).
-/
namespace ExactCalc

namespace Tree

/-- The operations have the given folds: each has its operands' values, in lowest terms, and its own. -/
def DoneAs (operations : List Tree) (steps : List Step) : Prop :=
  operations.map step? = steps.map some

/-- The operations up to a division by zero have the given folds. -/
def StoppedAfter (operations : List Tree) (steps : List Step) : Prop :=
  ∃ before t t' after a, operations = before ++ node .div t t' :: after ∧ DoneAs before steps ∧
    t.value = some a ∧ t'.value = some 0

section
variable {xs ys : List Tree} {ss ss' : List Step}

theorem DoneAs.append (h : DoneAs xs ss) (h' : DoneAs ys ss') : DoneAs (xs ++ ys) (ss ++ ss') := by
  rw [DoneAs, List.map_append, List.map_append, h, h']

theorem DoneAs.append_stopped (h : DoneAs xs ss) (h' : StoppedAfter ys ss') : StoppedAfter (xs ++ ys) (ss ++ ss') := by
  obtain ⟨before, t, t', after, a, rfl, hd, hz⟩ := h'
  exact ⟨xs ++ before, t, t', after, a, by rw [List.append_assoc], h.append hd, hz⟩

theorem StoppedAfter.append (h : StoppedAfter xs ss) (ys : List Tree) : StoppedAfter (xs ++ ys) ss := by
  obtain ⟨before, t, t', after, a, rfl, hd, hz⟩ := h
  exact ⟨before, t, t', after ++ ys, a, by rw [List.append_assoc, List.cons_append], hd, hz⟩

theorem DoneAs.eq_filterMap (h : DoneAs xs ss) : ss = xs.filterMap step? := by
  have h := congrArg (List.filterMap id) h
  rw [List.filterMap_map, List.filterMap_map] at h
  exact (List.filterMap_some.symm.trans h.symm)

theorem DoneAs.apply_eq (h : DoneAs xs ss) : ∀ s ∈ ss, s.op.apply s.left s.right = some s.result := by
  intro s hs
  rw [h.eq_filterMap] at hs
  obtain ⟨t, -, ht⟩ := List.mem_filterMap.1 hs
  unfold step? at ht
  split at ht
  · split at ht
    · obtain ⟨r, hr, rfl⟩ := Option.map_eq_some_iff.1 ht
      exact hr
    · cases ht
  · cases ht

theorem StoppedAfter.apply_eq (h : StoppedAfter xs ss) : ∀ s ∈ ss, s.op.apply s.left s.right = some s.result := by
  obtain ⟨before, t, t', after, a, -, hd, -⟩ := h
  exact hd.apply_eq

end

theorem doneAs_node {t t' : Tree} {op : Op} {a b r : Rat} (h : t.value = some a) (h' : t'.value = some b)
    (hr : op.apply a b = some r) : DoneAs [node op t t'] [⟨a, op, b, r⟩] := by
  simp [DoneAs, step?, h, h', hr]

end Tree

open ExactCalc.Tree (DoneAs StoppedAfter)

/-! ## The operations of a group -/

namespace Chain

/-- The products of a chain are the first operations of its group. -/
theorem done_products {ts : List (Op × Tree)} : ∀ {ls : List Link},
    ts.map (fun t => (t.1, t.2.value)) = ls.map (fun l => (l.op, some l.operand)) →
    ∀ {t : Tree} {a : Rat}, t.value = some a →
    match zeroDivision? ⟨a, ls⟩ with
    | none   => DoneAs (Tree.products t ts) (multiply a ls)
    | some _ => StoppedAfter (Tree.products t ts) (multiply a ls) := by
  induction ts with
  | nil =>
    intro ls hts t a _
    obtain rfl := List.map_eq_nil_iff.1 hts.symm
    rfl
  | cons x ts ih =>
    intro ls hts t a ht
    obtain ⟨l, ls, rfl, hl, htail⟩ := List.map_eq_cons_iff.1 hts.symm
    obtain ⟨op, t'⟩ := x
    obtain ⟨rfl, hv⟩ := Prod.mk.inj hl
    by_cases hop : l.op.isMultiplicative = true
    · rw [Tree.products, if_pos hop, multiply, if_pos hop]
      cases h : l.op.apply a l.operand with
      | none =>
        rw [zeroDivision?_of_apply_none h]
        obtain ⟨hd, hz⟩ := Op.apply_eq_none_iff.1 h
        rw [hz] at hv
        rw [hd]
        exact ⟨[], t, t', _, a, rfl, rfl, ht, hv.symm⟩
      | some r =>
        have hn : (Tree.node l.op t t').value = some r := by simp [Tree.value, ht, ← hv, h]
        have hd := Tree.doneAs_node ht hv.symm h
        have ih := ih htail.symm hn
        rw [zeroDivision?_of_apply_some h]
        cases hz : zeroDivision? ⟨r, ls⟩ with
        | none =>
          rw [hz] at ih
          exact hd.append ih
        | some i =>
          rw [hz] at ih
          exact hd.append_stopped ih
    · rw [Tree.products, if_neg hop, multiply, if_neg hop, zeroDivision?_of_additive hop a l.operand]
      exact ih htail.symm hv.symm

/-- The sums of a chain, with the sum that waits to its left. -/
def sumsAfter : Option (Rat × Op) → Chain → List Step
  | none,         c => accumulate c.first c.links
  | some (s, op), c => accumulate s (⟨op, 0, c.first⟩ :: c.links)

theorem apply_eq_joined {s : Rat} {op : Op} (h : op.isMultiplicative = false) (a : Rat) :
    op.apply s a = some (joined (some (s, op)) a) := by
  cases op with
  | add | sub => rfl
  | mul | div => cases h

section
variable {w : Option (Rat × Op)}

theorem sumsAfter_cons (hm : ∀ p ∈ w, p.2.isMultiplicative = false) (a b : Rat) (op : Op) (i : Nat) (ls : List Link) :
    sumsAfter w ⟨a, ⟨op, i, b⟩ :: ls⟩ = sumsAfter w ⟨a, []⟩ ++ sumsAfter (some (joined w a, op)) ⟨b, ls⟩ := by
  rcases w with _ | ⟨s, o⟩
  · rfl
  · simp only [sumsAfter, accumulate, apply_eq_joined (hm (s, o) rfl) a, List.cons_append, List.nil_append]

theorem done_closing {waiting : Option (Tree × Op)} {t : Tree} {a : Rat}
    (hw : waiting.map (fun p => (p.1.value, p.2)) = w.map fun p => (some p.1, p.2))
    (hm : ∀ p ∈ w, p.2.isMultiplicative = false) (ht : t.value = some a) :
    DoneAs (Tree.closing waiting t) (sumsAfter w ⟨a, []⟩) := by
  match waiting, w with
  | none,         none         => rfl
  | some (s, op), some (v, op') =>
    simp only [Option.map_some, Option.some.injEq, Prod.mk.injEq] at hw
    obtain ⟨hs, rfl⟩ := hw
    have hr := apply_eq_joined (s := v) (hm (v, op) rfl) a
    simp only [sumsAfter, accumulate, hr]
    exact Tree.doneAs_node hs ht hr

/-- The sums of a chain are the other operations of its group. -/
theorem done_sums {ts : List (Op × Tree)} : ∀ {ls : List Link},
    ts.map (fun t => (t.1, t.2.value)) = ls.map (fun l => (l.op, some l.operand)) →
    ∀ {waiting : Option (Tree × Op)} {w : Option (Rat × Op)} {t : Tree} {a : Rat},
    waiting.map (fun p => (p.1.value, p.2)) = w.map (fun p => (some p.1, p.2)) →
    (∀ p ∈ w, p.2.isMultiplicative = false) → t.value = some a → zeroDivision? ⟨a, ls⟩ = none →
    DoneAs (Tree.sums waiting t ts) (sumsAfter w (products a ls)) := by
  induction ts with
  | nil =>
    intro ls hts waiting w t a hw hm ht _
    obtain rfl := List.map_eq_nil_iff.1 hts.symm
    exact done_closing hw hm ht
  | cons x ts ih =>
    intro ls hts waiting w t a hw hm ht hz
    obtain ⟨l, ls, rfl, hl, htail⟩ := List.map_eq_cons_iff.1 hts.symm
    obtain ⟨op, t'⟩ := x
    obtain ⟨rfl, hv⟩ := Prod.mk.inj hl
    by_cases hop : l.op.isMultiplicative = true
    · rw [Tree.sums, if_pos hop, products, if_pos hop]
      cases h : l.op.apply a l.operand with
      | none =>
        rw [zeroDivision?_of_apply_none h] at hz
        cases hz
      | some r =>
        have hn : (Tree.node l.op t t').value = some r := by simp [Tree.value, ht, ← hv, h]
        rw [zeroDivision?_of_apply_some h] at hz
        exact ih htail.symm hw hm hn hz
    · rw [zeroDivision?_of_additive hop a l.operand] at hz
      have hw' : (some (Tree.close waiting t, l.op)).map (fun p => (p.1.value, p.2)) =
          (some (joined w a, l.op)).map fun p => (some p.1, p.2) := by
        simp [value_close hw hm ht]
      rw [Tree.sums, if_neg hop, products, if_neg hop, sumsAfter_cons hm]
      exact (done_closing hw hm ht).append (ih htail.symm hw' (by simpa using hop) hv.symm hz)

end

end Chain

/-- **The operations of a group are those of its chain**, once the groups inside it have values. -/
theorem Expr.done_ownOperations : ∀ {e : Expr} {c : Chain}, e.chain = some c →
    match c.zeroDivision? with
    | none   => DoneAs e.ownOperations c.steps
    | some _ => StoppedAfter e.ownOperations c.steps
  | .mk sign first rest, c, h => by
    simp only [chain] at h
    split at h
    · rename_i v links hv hr
      cases h
      have hts := Links.trees_of_links hr
      have hp := Chain.done_products hts hv
      -- nothing waits to the left of the first operand
      have hnone : (none : Option (Tree × Op)).map (fun p => (p.1.value, p.2)) =
          (none : Option (Rat × Op)).map fun p => (some p.1, p.2) := rfl
      have hm : ∀ p ∈ (none : Option (Rat × Op)), p.2.isMultiplicative = false := fun _ hp => by cases hp
      have hs := Chain.done_sums hts hnone hm hv
      unfold Chain.steps
      cases hz : (Chain.mk v links).zeroDivision? with
      | none =>
        rw [hz] at hp
        exact hp.append (hs hz)
      | some i =>
        rw [hz] at hp
        rw [Option.isSome_some, if_pos rfl, List.append_nil]
        exact hp.append _
    · cases h

/-! ## The operations of an expression -/

theorem Links.exists_tree_of_links : ∀ {ls : Links}, ls.links = none → ∃ t ∈ ls.trees, t.2.value = none
  | .cons j o ls, h => by
    cases hv : o.tree.value with
    | none => exact ⟨(j.op, o.tree), List.mem_cons_self, hv⟩
    | some v =>
      cases hr : ls.links with
      | none =>
        obtain ⟨t, ht, hn⟩ := exists_tree_of_links hr
        exact ⟨t, List.mem_cons_of_mem _ ht, hn⟩
      | some rest => simp [links, hv, hr] at h

/-- A group with a value has a chain that does not divide by zero. -/
theorem Expr.exists_chain : ∀ {e : Expr}, e.value ≠ none → ∃ c, e.chain = some c ∧ c.zeroDivision? = none
  | .mk sign first rest, h => by
    cases hc : (Expr.mk sign first rest).chain with
    | some c =>
      refine ⟨c, rfl, ?_⟩
      rw [value_eq_of_chain hc, Chain.value] at h
      cases hz : c.zeroDivision? with
      | none => rfl
      | some i => simp [hz] at h
    | none =>
      refine absurd (Tree.value_group_eq_none rest.trees none _ ?_) h
      cases hv : (Sign.apply sign first.tree).value with
      | none => exact .inl rfl
      | some v =>
        cases hr : rest.links with
        | none       => exact .inr (.inr (Links.exists_tree_of_links hr))
        | some links => simp [chain, hv, hr] at hc

theorem runGroups_of_values : ∀ {es : List Expr}, (∀ e ∈ es, e.value ≠ none) →
    (runGroups es).2 = none ∧ DoneAs (es.flatMap Expr.ownOperations) (runGroups es).1
  | [],      _ => ⟨rfl, rfl⟩
  | e :: es, h => by
    obtain ⟨c, hc, hz⟩ := Expr.exists_chain (h e List.mem_cons_self)
    obtain ⟨hn, hd⟩ := runGroups_of_values fun g hg => h g (List.mem_cons_of_mem e hg)
    have ho := Expr.done_ownOperations hc
    rw [hz] at ho
    simp only [runGroups, hc, hz]
    exact ⟨hn, ho.append hd⟩

theorem runGroups_stopped : ∀ {es : List Expr} {i : Nat}, (runGroups es).2 = some i →
    StoppedAfter (es.flatMap Expr.ownOperations) (runGroups es).1
  | e :: es, i, h => by
    rw [List.flatMap_cons]
    cases hc : e.chain with
    | none => simp [runGroups, hc] at h
    | some c =>
      have ho := Expr.done_ownOperations hc
      cases hz : c.zeroDivision? with
      | none =>
        rw [hz] at ho
        simp only [runGroups, hc, hz] at h ⊢
        exact ho.append_stopped (runGroups_stopped h)
      | some k =>
        rw [hz] at ho
        simp only [runGroups, hc, hz] at h ⊢
        exact ho.append _

theorem Expr.value_eq_none_of_mem_orderedGroups {e g : Expr} (hg : g ∈ e.orderedGroups) (h : g.value = none) :
    e.value = none := by
  rw [← e.map_snd_schedule] at hg
  obtain ⟨b, hb, rfl⟩ := List.mem_map.1 hg
  exact value_eq_none_of_mem_blocks b ((List.mergeSort_perm _ _).mem_iff.1 hb) h

/-- **Evaluating an expression does its operations in order**, all of them or those before a division by zero. -/
theorem Expr.done_steps (e : Expr) :
    (e.value ≠ none → DoneAs e.operations e.steps) ∧
      ∀ i, e.zeroDivision? = some i → StoppedAfter e.operations e.steps :=
  ⟨fun h => (runGroups_of_values fun _ hg hn => h (value_eq_none_of_mem_orderedGroups hg hn)).2,
    fun _ h => runGroups_stopped h⟩

/-! ## The text of a trace -/

theorem extendTrace_of_ne {trace : String} (h : trace ≠ "") (lines : List String) :
    extendTrace trace lines = "\n".intercalate (trace :: lines) := by
  induction lines generalizing trace with
  | nil => rw [String.intercalate_singleton, extendTrace, List.foldl_nil]
  | cons line lines ih =>
    have hne : trace ++ "\n" ++ line ≠ "" := by simp [h]
    have hcons : extendTrace trace (line :: lines) = extendTrace (trace ++ "\n" ++ line) lines := by
      simp [extendTrace, h]
    rw [hcons, ih hne, String.intercalate_cons_append, String.intercalate_cons_cons]

/-- A trace that starts empty is its lines, joined by line feeds. -/
theorem extendTrace_empty : ∀ {lines : List String}, (∀ line ∈ lines, line ≠ "") →
    extendTrace "" lines = "\n".intercalate lines
  | [],            _ => by rw [String.intercalate_nil, extendTrace, List.foldl_nil]
  | line :: lines, h => by
    have hcons : extendTrace "" (line :: lines) = extendTrace line lines := by simp [extendTrace]
    rw [hcons, extendTrace_of_ne (h line List.mem_cons_self)]

theorem Step.text_ne_empty (s : Step) : s.text ≠ "" := by
  simp [text]

theorem Folded.trace_empty (f : Folded) : f.trace "" = "\n".intercalate (f.steps.map Step.text) := by
  refine extendTrace_empty fun line h => ?_
  obtain ⟨s, -, rfl⟩ := List.mem_map.1 h
  exact s.text_ne_empty

/-! ## The journal -/

/-- The messages of the finest level, in order. -/
def traceMessages (events : List Event) : List String :=
  (events.filter fun e => e.level = .trace).map Event.message

/-- Only folds are recorded at that level. -/
theorem traceMessages_eq (events : List Event) :
    traceMessages events = (events.filterMap Event.step?).map Step.text := by
  rw [traceMessages, ← List.filterMap_eq_map, List.filterMap_filter, List.map_filterMap]
  congr 1
  funext e
  cases e <;> rfl

theorem filterMap_evaluationEvents {text : String} {r : Reading} (h : Reading.ofString text = .ok r) :
    (evaluationEvents text).filterMap Event.step? = r.fold.steps := by
  rw [evaluationEvents, h]
  rfl

theorem filterMap_explanationEvents (text : String) (precision : Nat) :
    (explanationEvents text precision).filterMap Event.step? = (evaluationEvents text).filterMap Event.step? := by
  rw [explanationEvents, List.filterMap_append]
  cases explain text precision with
  | error p => exact List.append_nil _
  | ok x    => exact List.append_nil _

/-- **The trace of an accepted text.**  The operations of its expression are the nodes of its tree, one for each operator
that was read after an operand.  If none divides by zero, the trace has a line for each, in order; the journal has the
same lines.  If one does, the journal has the lines of the operations before the first that does. -/
theorem trace_of_ofString_eq_ok {text : String} {r : Reading} (h : Reading.ofString text = .ok r) (precision : Nat) :
    ∃ (e : Expr) (steps : List Step), e.Spells text.toList ∧ (∀ e' : Expr, e'.Spells text.toList → e' = e) ∧
      e.operations.Perm e.tree.nodes ∧
      (e.operations.filterMap Tree.operator?).Perm (binaryOperators false r.tokens) ∧
      (¬e.tree.DividesByZero → DoneAs e.operations steps ∧
        ∃ v w, explain text precision = .ok (v, w) ∧ w.steps = "\n".intercalate (steps.map Step.text)) ∧
      (e.tree.DividesByZero → StoppedAfter e.operations steps ∧
        ∃ i, explain text precision = .error (.divisionByZero i)) ∧
      (∀ s ∈ steps, s.op.apply s.left s.right = some s.result) ∧
      traceMessages (evaluationEvents text) = steps.map Step.text ∧
      traceMessages (explanationEvents text precision) = steps.map Step.text := by
  obtain ⟨e, he, rfl⟩ := ofChars_eq_ok_iff_spells.1 h
  obtain ⟨hsteps, hfold⟩ := e.fold_reading
  obtain ⟨hdone, hstopped⟩ := e.done_steps
  have hexplain : explain text precision = e.reading.fold.answer.map fun v =>
      (Value.ofRat v (clampPrecision precision), e.reading.working e.reading.fold (clampPrecision precision)) := by
    simp only [explain, h]
    cases e.reading.fold.answer <;> rfl
  have hevents : traceMessages (evaluationEvents text) = e.steps.map Step.text := by
    rw [traceMessages_eq, filterMap_evaluationEvents h, hsteps]
  have hevents' : traceMessages (explanationEvents text precision) = e.steps.map Step.text := by
    rw [traceMessages_eq, filterMap_explanationEvents, ← traceMessages_eq, hevents]
  refine ⟨e, e.steps, he, fun e' he' => he'.unique he, e.operations_perm_nodes, e.operators_perm, ?_⟩
  rw [hexplain, ← Tree.value_eq_none_iff]
  rcases hfold with ⟨i, hz, ha⟩ | ⟨v, hz, hv, ha⟩
  · have hv : e.tree.value = none := e.value_eq_none_of_zeroDivision hz
    have hs := hstopped i hz
    rw [ha]
    exact ⟨fun hn => absurd hv hn, fun _ => ⟨hs, i, rfl⟩, hs.apply_eq, hevents, hevents'⟩
  · have hne : e.tree.value ≠ none := fun hn => by
      rw [show e.tree.value = some v from hv] at hn
      cases hn
    have hd := hdone hne
    rw [ha]
    refine ⟨fun _ => ⟨hd, _, _, rfl, ?_⟩, fun hn => absurd hn hne, hd.apply_eq, hevents, hevents'⟩
    rw [Reading.working, Folded.trace_empty, hsteps]

theorem trace_group_first :
    ∃ r, Reading.ofString "-2(3+4)/7" = .ok r ∧
      ∃ (e : Expr) (steps : List Step), e.Spells "-2(3+4)/7".toList ∧
        (∀ e' : Expr, e'.Spells "-2(3+4)/7".toList → e' = e) ∧ e.operations.Perm e.tree.nodes ∧
        (e.operations.filterMap Tree.operator?).Perm (binaryOperators false r.tokens) ∧
        (¬e.tree.DividesByZero → DoneAs e.operations steps ∧
          ∃ v w, explain "-2(3+4)/7" 30 = .ok (v, w) ∧ w.steps = "\n".intercalate (steps.map Step.text)) ∧
        (e.tree.DividesByZero → StoppedAfter e.operations steps ∧
          ∃ i, explain "-2(3+4)/7" 30 = .error (.divisionByZero i)) ∧
        (∀ s ∈ steps, s.op.apply s.left s.right = some s.result) ∧
        traceMessages (evaluationEvents "-2(3+4)/7") = steps.map Step.text ∧
        traceMessages (explanationEvents "-2(3+4)/7" 30) = steps.map Step.text :=
  ⟨_, rfl, trace_of_ofString_eq_ok rfl 30⟩

example : traceMessages (explanationEvents "1/(2-2)+(3*4)" 30) = ["2 - 2 = 0", "3 * 4 = 12"] := by
  decide +kernel

end ExactCalc
