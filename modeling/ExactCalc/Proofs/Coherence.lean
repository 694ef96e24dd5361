import Mathlib
import ExactCalc.Calculator.Basic
/-!
# What a calculator shows

Result, problem and working are shown side by side, and few operations touch them.  Each of those has an outcome
(`Calculator.outcome?`); typing, editing and turning the dial have none.  The outcomes of a run tell what it ends up
showing: the working and the problem are those of the latest outcome, and the result is the latest one that was shown
since the results were last cleared (`coherent_run`).
-/
namespace ExactCalc

theorem Problem.place_ne_empty (i : Nat) : place i ≠ "" := by
  simp [place]

theorem Problem.message_ne_empty (p : Problem) : p.message ≠ "" := by
  cases p with
  | emptyExpression => decide
  | _               => exact fun h => place_ne_empty _ (String.append_eq_empty_iff.1 h).2

namespace Calculator

/-- What an operation means for what is shown. -/
inductive Outcome where
  /-- A result and its working are shown. -/
  | shown (result : String) (working : Working)
  /-- A problem is shown. -/
  | refused
  /-- Nothing is shown any more. -/
  | cleared
deriving DecidableEq

namespace Outcome

def result? : Outcome → Option String
  | shown r _         => some r
  | refused | cleared => none

def working? : Outcome → Option Working
  | shown _ w         => some w
  | refused | cleared => none

end Outcome

/-- The outcome of evaluating the entry. -/
def evaluationOutcome (c : Calculator) : Outcome :=
  match explain c.entry.text c.precision with
  | .ok (v, working) => .shown v.text working
  | .error _         => .refused

/-- The outcome of an action, if it has one. -/
def outcome? (c : Calculator) : Action → Option Outcome
  | .frame .enter | .frame (.click .equals) => some c.evaluationOutcome
  | .showResult r w => some (.shown r w)
  | .showProblem _  => some .refused
  | .clearResults | .reset | .frame (.click .clearResults) | .frame (.click .reset) => some .cleared
  | _ => none

/-- The outcomes of a run, in order. -/
def outcomes (c : Calculator) : List Action → List Outcome
  | []      => []
  | a :: as => (c.outcome? a).toList ++ outcomes (c.act a) as

/-- The result that outcomes leave, the latest outcome first: the last one shown since the results were cleared. -/
def resultLeft (outs : List Outcome) : String :=
  ((outs.takeWhile fun o => o ≠ .cleared).findSome? Outcome.result?).getD ""

/-- The working that outcomes leave, the latest outcome first: only the latest one counts. -/
def workingLeft (outs : List Outcome) : Working :=
  (outs.head?.bind Outcome.working?).getD {}

/-- A calculator shows what the outcomes so far leave; the latest outcome comes first. -/
structure Coherent (c : Calculator) (outs : List Outcome) : Prop where
  precision_le : c.precision ≤ 200
  result_eq    : c.result = resultLeft outs
  error_iff    : c.error ≠ "" ↔ outs.head? = some .refused
  working_eq   : c.working = workingLeft outs

/-! ## One action -/

/-- What an operation with the given outcome changes in what is shown. -/
def Displays (c c' : Calculator) : Option Outcome → Prop
  | none              => c'.result = c.result ∧ c'.error = c.error ∧ c'.working = c.working
  | some (.shown r w) => c'.result = r ∧ c'.error = "" ∧ c'.working = w
  | some .refused     => c'.result = c.result ∧ c'.error ≠ "" ∧ c'.working = {}
  | some .cleared     => c'.result = "" ∧ c'.error = "" ∧ c'.working = {}

theorem problemText_ne_empty (entry : Entry) (p : Problem) : problemText entry p ≠ "" := by
  unfold problemText
  split
  · exact p.message_ne_empty
  · simp [p.message_ne_empty]

theorem entry_evaluateEntry (c : Calculator) : c.evaluateEntry.entry = c.entry := by
  unfold evaluateEntry
  split <;> rfl

theorem precision_evaluateEntry (c : Calculator) : c.evaluateEntry.precision = c.precision := by
  unfold evaluateEntry
  split <;> rfl

theorem evaluationOutcome_of_ok {c : Calculator} {v : Value} {w : Working}
    (h : explain c.entry.text c.precision = .ok (v, w)) : c.evaluationOutcome = .shown v.text w := by
  rw [evaluationOutcome, h]

theorem evaluationOutcome_of_error {c : Calculator} {p : Problem}
    (h : explain c.entry.text c.precision = .error p) : c.evaluationOutcome = .refused := by
  rw [evaluationOutcome, h]

theorem displays_evaluateEntry (c : Calculator) : c.Displays c.evaluateEntry (some c.evaluationOutcome) := by
  cases h : explain c.entry.text c.precision with
  | ok x =>
    rw [evaluationOutcome_of_ok h, evaluateEntry, h]
    exact ⟨rfl, rfl, rfl⟩
  | error p =>
    rw [evaluationOutcome_of_error h, evaluateEntry, h]
    exact ⟨rfl, problemText_ne_empty c.entry p, rfl⟩

theorem displays_dial (c : Calculator) (n : Nat) : c.Displays (c.dial n) none := by
  unfold dial
  split
  · exact ⟨rfl, rfl, rfl⟩
  · exact ⟨rfl, rfl, rfl⟩

theorem of_evaluates : ∀ {a : Action}, a.evaluates = true → ∀ c : Calculator,
    c.act a = evaluateEntry { c with focusing := false } ∧ c.outcome? a = some c.evaluationOutcome
  | .frame .enter,           _, _ => ⟨rfl, rfl⟩
  | .frame (.click .equals), _, _ => ⟨rfl, rfl⟩

/-- **An action displays its outcome**, and nothing if it has none. -/
theorem displays_act (c : Calculator) : ∀ a : Action, c.Displays (c.act a) (c.outcome? a)
  | .typeText _ | .clearEntry | .deleteLast | .setPrecision _ => ⟨rfl, rfl, rfl⟩
  | .clearResults | .reset                                    => ⟨rfl, rfl, rfl⟩
  | .showProblem _                                            => ⟨rfl, problemText_ne_empty _ _, rfl⟩
  | .showResult _ _                                           => ⟨rfl, rfl, rfl⟩
  | .frame .nothing | .frame .escape                          => ⟨rfl, rfl, rfl⟩
  | .frame .enter                                             => displays_evaluateEntry { c with focusing := false }
  | .frame (.dial n)                                          => displays_dial { c with focusing := false } n
  | .frame (.click b) => by
    cases b with
    | equals => exact displays_evaluateEntry { c with focusing := false }
    | clearEntry | clearResults | reset | deleteLast | symbol s => exact ⟨rfl, rfl, rfl⟩

theorem clampPrecision_le (n : Nat) : clampPrecision n ≤ 200 :=
  Nat.min_le_right _ _

theorem precision_frame_le {c : Calculator} (h : c.precision ≤ 200) : ∀ g : Gesture, (c.frame g).precision ≤ 200
  | .nothing | .escape => h
  | .enter             => Nat.le_trans (Nat.le_of_eq (precision_evaluateEntry _)) h
  | .dial n => by
    show (dial { c with focusing := false } n).precision ≤ 200
    unfold dial
    split
    · exact h
    · exact clampPrecision_le n
  | .click b => by
    cases b with
    | equals => exact Nat.le_trans (Nat.le_of_eq (precision_evaluateEntry _)) h
    | reset => exact clampPrecision_le defaultPrecision
    | clearEntry | clearResults | deleteLast | symbol s => exact h

theorem precision_act_le {c : Calculator} (h : c.precision ≤ 200) : ∀ a : Action, (c.act a).precision ≤ 200
  | .typeText _ | .clearEntry | .clearResults | .deleteLast | .showProblem _ | .showResult _ _ => h
  | .reset          => clampPrecision_le defaultPrecision
  | .setPrecision n => clampPrecision_le n
  | .frame g        => precision_frame_le h g

/-- **Every action keeps a calculator coherent.** -/
theorem Coherent.act {c : Calculator} {outs : List Outcome} (h : c.Coherent outs) (a : Action) :
    (c.act a).Coherent ((c.outcome? a).toList ++ outs) := by
  have hd := c.displays_act a
  have hp := precision_act_le h.precision_le a
  cases ho : c.outcome? a with
  | none =>
    rw [ho] at hd
    obtain ⟨hr, he, hw⟩ := hd
    exact ⟨hp, hr.trans h.result_eq, by rw [he]; exact h.error_iff, hw.trans h.working_eq⟩
  | some o =>
    rw [ho] at hd
    cases o with
    | shown r w =>
      obtain ⟨hr, he, hw⟩ := hd
      exact ⟨hp, hr, by simp [he], hw⟩
    | refused =>
      obtain ⟨hr, he, hw⟩ := hd
      exact ⟨hp, hr.trans h.result_eq, by simp [he], hw⟩
    | cleared =>
      obtain ⟨hr, he, hw⟩ := hd
      exact ⟨hp, hr, by simp [he], hw⟩

/-! ## Runs -/

theorem Coherent.run : ∀ (as : List Action) {c : Calculator} {outs : List Outcome}, c.Coherent outs →
    (as.foldl Calculator.act c).Coherent ((outcomes c as).reverse ++ outs)
  | [],      _, _,    h => h
  | a :: as, c, outs, h => by
    have hrev : (c.outcome? a).toList.reverse = (c.outcome? a).toList := by cases c.outcome? a <;> rfl
    rw [outcomes, List.reverse_append, hrev, List.append_assoc]
    exact run as (h.act a)

theorem coherent_ofPrecision (n : Nat) : (ofPrecision n).Coherent [] :=
  ⟨clampPrecision_le n, rfl, by simp [ofPrecision], rfl⟩

/-- A working that is not empty is that of the latest outcome, and so is the result beside it. -/
theorem Coherent.head?_of_working_ne {c : Calculator} {outs : List Outcome} (h : c.Coherent outs)
    (hw : c.working ≠ {}) : outs.head? = some (.shown c.result c.working) := by
  have hr := h.result_eq
  have hw' := h.working_eq
  rcases outs with _ | ⟨_ | _ | _, outs⟩
  · exact absurd hw' hw
  · rw [hr, hw']
    rfl
  · exact absurd hw' hw
  · exact absurd hw' hw

/-- **What a calculator shows is coherent in every state it reaches.**  It shows what the outcomes of the run leave.  So
a problem never stands beside a working, and a working belongs to the result beside it.  An evaluation that fails leaves
the entry, the result and the precision. -/
theorem coherent_run (n : Nat) (as : List Action) :
    let c := as.foldl act (ofPrecision n)
    let outs := (outcomes (ofPrecision n) as).reverse
    c.Coherent outs ∧ (c.error ≠ "" → c.working = {}) ∧
      (c.working ≠ {} → outs.head? = some (.shown c.result c.working)) ∧
      ∀ a p, a.evaluates = true → explain c.entry.text c.precision = .error p →
        (c.act a).entry = c.entry ∧ (c.act a).result = c.result ∧ (c.act a).precision = c.precision := by
  intro c outs
  have hc : c.Coherent outs := by simpa using (coherent_ofPrecision n).run as
  refine ⟨hc, fun he => ?_, hc.head?_of_working_ne, fun a p ha hx => ?_⟩
  · rw [hc.working_eq, workingLeft, hc.error_iff.1 he]
    rfl
  · obtain ⟨hact, houtcome⟩ := of_evaluates ha c
    have hd := c.displays_act a
    rw [houtcome, evaluationOutcome_of_error hx, hact] at hd
    rw [hact]
    exact ⟨entry_evaluateEntry _, hd.1, precision_evaluateEntry _⟩

example : (outcomes (ofPrecision 2) [.typeText "2/3", .frame .enter, .typeText "2)", .frame .enter]).map
    Outcome.result? = [some "0.67", none] := by
  decide +kernel

end Calculator

end ExactCalc
