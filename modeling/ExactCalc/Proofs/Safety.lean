import Mathlib.Logic.Relation
import ExactCalc.Fold.Slots
import ExactCalc.Proofs.Stops
/-!
# Folding never leaves the row

The machine that works by slot numbers folds every row as `foldTable` does, one step after the other, and none of its
steps is a fault (`foldTable_never_faults`).  The lemmas follow the parts of folding: from a state whose first task is
that part, a run comes to the row and the events of the part and then goes on with the tasks behind it, or ends with its
problem (`Completes`).
-/
namespace ExactCalc
namespace Slots

/-! ## Guarded operations inside the row -/

section
variable (pre post : List Cell) (c : Cell)

theorem read_append : read (pre ++ c :: post) pre.length = .ok c := by
  simp [read]

theorem isLive_append : isLive (pre ++ c :: post) pre.length = .ok c.isSome := by
  simp [isLive]

theorem write_append (c' : Cell) : write (pre ++ c :: post) pre.length c' = .ok (pre ++ c' :: post) := by
  simp [write]

end

theorem raise_of_lt {cells : List Cell} {slot : Nat} (h : slot < cells.length) : raise cells slot = .ok (slot + 1) :=
  if_pos h

theorem result_eq (op : Op) (a b : Rat) : result op a b = .ok (op.apply a b) := by
  cases op with
  | add | sub | mul => rfl
  | div =>
    rw [result, Op.apply]
    split
    · rfl
    · rename_i h
      rw [divide, if_neg h]
      rfl

/-! ## Neighbours -/

theorem nearestBelow_replicate (pre post : List Cell) : ∀ n : Nat,
    nearestBelow (pre ++ (List.replicate n none ++ post)) (pre.length + n) =
      nearestBelow (pre ++ (List.replicate n none ++ post)) pre.length
  | 0     => rfl
  | n + 1 => by
    have hrow : pre ++ (List.replicate (n + 1) none ++ post) =
        pre ++ (List.replicate n none ++ (none :: post)) := by
      rw [List.replicate_succ', List.append_assoc, List.singleton_append]
    have hlive : isLive (pre ++ (List.replicate n none ++ (none :: post))) (pre.length + n) = .ok false := by
      simp [isLive]
    rw [hrow, ← Nat.add_assoc, nearestBelow, hlive]
    exact nearestBelow_replicate pre (none :: post) n

theorem nearestBelow_of_none {left : List Cell} (h : takeNearest left = none) (right : List Cell) :
    nearestBelow (left.reverse ++ right) left.length = .ok none := by
  have hleft := eq_replicate_of_takeNearest h
  have hskip := nearestBelow_replicate [] right left.length
  rw [List.nil_append, List.length_nil, Nat.zero_add, ← List.reverse_replicate, ← hleft] at hskip
  rw [hskip]
  rfl

/-- The nearest live cell to the left of a slot is found, whatever stands in the slot and to its right. -/
theorem nearestBelow_of_some {left left' : List Cell} {t : Token} (h : takeNearest left = some (t, left')) :
    ∃ g, ∀ right, nearestBelow (left.reverse ++ right) left.length = .ok (some g) ∧
      read (left.reverse ++ right) g = .ok (some t) ∧
      write (left.reverse ++ right) g none = .ok (left'.reverse ++ right) := by
  obtain ⟨n, far, rfl, rfl⟩ := takeNearest_eq_some_iff.1 h
  refine ⟨far.length, fun right => ?_⟩
  have hrow (c : Cell) : (List.replicate n none ++ c :: far).reverse ++ right =
      far.reverse ++ c :: (List.replicate n none ++ right) := by simp
  have hlen : (List.replicate n none ++ some t :: far).length = far.length + 1 + n := by
    simp only [List.length_append, List.length_replicate, List.length_cons]
    omega
  have hfar : far.length = far.reverse.length := List.length_reverse.symm
  have hlive := isLive_append far.reverse (List.replicate n none ++ right) (some t)
  have hskip := nearestBelow_replicate (far.reverse ++ [some t]) right n
  rw [List.append_assoc, List.singleton_append, List.length_append, List.length_singleton] at hskip
  rw [hrow, hrow, hlen, hfar]
  refine ⟨?_, read_append _ _ _, write_append _ _ _ _⟩
  rw [hskip, nearestBelow, hlive]
  rfl

theorem nearestFrom_replicate (post : List Cell) : ∀ (k n : Nat) (pre : List Cell),
    nearestFrom (pre ++ (List.replicate k none ++ post)) (k + n) pre.length =
      nearestFrom (pre ++ (List.replicate k none ++ post)) n (pre.length + k)
  | 0,     n, pre => by simp
  | k + 1, n, pre => by
    have hrow : pre ++ (List.replicate (k + 1) none ++ post) = pre ++ none :: (List.replicate k none ++ post) := by
      rw [List.replicate_succ, List.cons_append]
    have hraise : raise (pre ++ none :: (List.replicate k none ++ post)) pre.length = .ok (pre.length + 1) :=
      raise_of_lt (by simp)
    have ih := nearestFrom_replicate post k n (pre ++ [none])
    rw [List.append_assoc, List.singleton_append, List.length_append, List.length_singleton] at ih
    rw [hrow, Nat.add_right_comm, nearestFrom, isLive_append, hraise, Nat.add_comm k 1, ← Nat.add_assoc]
    exact ih

theorem nearestFrom_of_none {right : List Cell} (h : takeNearest right = none) (pre : List Cell) :
    nearestFrom (pre ++ right) right.length pre.length = .ok none := by
  have hright := eq_replicate_of_takeNearest h
  have hskip := nearestFrom_replicate [] right.length 0 pre
  rw [List.append_nil, Nat.add_zero, ← hright] at hskip
  rw [hskip]
  rfl

/-- The nearest live cell to the right of a slot is found, whatever stands in the slot and to its left. -/
theorem nearestFrom_of_some {right right' : List Cell} {t : Token} (h : takeNearest right = some (t, right')) :
    ∃ k, ∀ pre, nearestFrom (pre ++ right) right.length pre.length = .ok (some (pre.length + k)) ∧
      read (pre ++ right) (pre.length + k) = .ok (some t) ∧
      write (pre ++ right) (pre.length + k) none = .ok (pre ++ right') := by
  obtain ⟨n, far, rfl, rfl⟩ := takeNearest_eq_some_iff.1 h
  refine ⟨n, fun pre => ?_⟩
  have hrow (c : Cell) : pre ++ (List.replicate n none ++ c :: far) = pre ++ List.replicate n none ++ c :: far :=
    (List.append_assoc _ _ _).symm
  have hlen : pre.length + n = (pre ++ List.replicate n (none : Cell)).length := by simp
  have hlive := isLive_append (pre ++ List.replicate n none) far (some t)
  have hskip := nearestFrom_replicate (some t :: far) n (far.length + 1) pre
  rw [hrow] at hskip
  rw [List.length_append, List.length_replicate, List.length_cons, hrow, hrow, hskip, hlen]
  refine ⟨?_, read_append _ _ _, write_append _ _ _ _⟩
  rw [nearestFrom, hlive]
  rfl

/-! ## One fold -/

/-- **Folding the operator in a slot is folding it between the cells on its two sides.** -/
theorem foldAt_eq (positions : List Nat) (op : Op) (left right : List Cell) :
    foldAt positions (left.reverse ++ some (.op op) :: right) left.length op =
      .ok ((foldOperator (positionAt positions left.length) op left right).map fun x =>
        (x.1, x.2.1.reverse ++ some (.num x.1.result) :: x.2.2)) := by
  have hrow (c : Cell) : left.reverse ++ c :: right = left.reverse ++ [c] ++ right := by simp
  have hlen (c : Cell) : (left.reverse ++ [c]).length = left.length + 1 := by simp
  have hraise : raise (left.reverse ++ some (.op op) :: right) left.length = .ok (left.length + 1) :=
    raise_of_lt (by simp)
  have hn : (left.reverse ++ some (.op op) :: right).length - (left.length + 1) = right.length := by
    simp only [List.length_append, List.length_reverse, List.length_cons]
    omega
  have hwrite (r : Rat) : write (left.reverse ++ some (.op op) :: right) left.length (some (.num r)) =
      .ok (left.reverse ++ some (.num r) :: right) := by
    have h := write_append left.reverse right (some (.op op)) (some (.num r))
    rwa [List.length_reverse] at h
  unfold foldAt foldOperator
  cases hl : takeNearest left with
  | none =>
    obtain ⟨d, hfrom⟩ : ∃ d, nearestFrom (left.reverse ++ some (.op op) :: right) right.length (left.length + 1) =
        .ok d := by
      rw [hrow, ← hlen (some (.op op))]
      cases hr : takeNearest right with
      | none => exact ⟨_, nearestFrom_of_none hr _⟩
      | some x =>
        obtain ⟨k, hk⟩ := nearestFrom_of_some hr
        exact ⟨_, (hk _).1⟩
    simp only [nearestBelow_of_none hl, hraise, hn, hfrom, bind, Except.bind, pure, Except.pure, Except.map]
  | some x =>
    obtain ⟨t, left'⟩ := x
    obtain ⟨g, hg⟩ := nearestBelow_of_some hl
    obtain ⟨hbelow, hreadg, -⟩ := hg (some (.op op) :: right)
    cases hr : takeNearest right with
    | none =>
      have hfrom := nearestFrom_of_none hr (left.reverse ++ [some (.op op)])
      rw [← hrow, hlen] at hfrom
      simp only [hbelow, hraise, hn, hfrom, bind, Except.bind, pure, Except.pure, Except.map]
    | some y =>
      obtain ⟨u, right'⟩ := y
      obtain ⟨k, hk⟩ := nearestFrom_of_some hr
      obtain ⟨hfrom, hreadd, -⟩ := hk (left.reverse ++ [some (.op op)])
      rw [← hrow, hlen] at hfrom hreadd
      have hspendg (r : Rat) := (hg (some (.num r) :: right)).2.2
      have hspendd (r : Rat) : write (left'.reverse ++ some (.num r) :: right) (left.length + 1 + k) none =
          .ok (left'.reverse ++ some (.num r) :: right') := by
        have h := (hk (left'.reverse ++ [some (.num r)])).2.2
        rw [List.append_assoc, List.length_append, List.length_reverse, length_of_takeNearest hl] at h
        simpa using h
      simp only [hbelow, hraise, hn, hfrom, hreadg, hreadd, bind, Except.bind, pure, Except.pure]
      cases t with
      | num a =>
        cases u with
        | num b =>
          simp only [result_eq]
          cases op.apply a b with
          | none => rfl
          | some r => simp only [hwrite, hspendg, hspendd, Except.map]
        | op _ | opening | closing => rfl
      | op _ | opening | closing => rfl

/-! ## Pieces of work in a slot of the row -/

/-- What a scan comes to by a fold in a slot: from the step and the cells left on both sides, nearest first on the
left. -/
def scanned (m : Bool) (slot stop : Nat) (x : Step × List Cell × List Cell) : Done where
  cells  := x.2.1.reverse ++ some (.num x.1.result) :: x.2.2
  events := [.folded x.1]
  next   := [.scan m (slot + 1) stop]

/-- What the look for a sign comes to in a slot that holds `c`. -/
def signed (slot stop : Nat) (before : List Cell) (c : Cell) (after : List Cell) : Done :=
  match c with
  | some (.op .add) => { cells := before ++ none :: after, next := scans (slot + 1) stop }
  | some (.op .sub) => { cells := before ++ none :: after, next := [.negate (slot + 1) stop] }
  | c               => { cells := before ++ c :: after, next := scans slot stop }

/-- What the look for the number of a leading `-` comes to in a slot that holds `c`. -/
def negated (positions : List Nat) (slot stop : Nat) (before : List Cell) (c : Cell) (after : List Cell) :
    Except Problem Done :=
  match c with
  | some (.num r) => .ok { cells := before ++ some (.num (-r)) :: after, next := scans (slot + 1) stop }
  | some _        => .error (.inconsistent (positionAt positions slot) .signWithoutNumber)
  | none          =>
    if slot ≤ stop then .ok { cells := before ++ none :: after, next := [.negate (slot + 1) stop] }
    else .error (.inconsistent (positionAt positions slot) .signWithoutNumber)

section
variable {positions : List Nat} (before after : List Cell) (c : Cell) (stop : Nat)

theorem raise_append : raise (before ++ c :: after) before.length = .ok (before.length + 1) :=
  raise_of_lt (by simp)

theorem work_scan (m : Bool) (h : before.length ≤ stop) :
    (Task.scan m before.length stop).work positions (before ++ c :: after) = .ok (match operatorOf m c with
      | none    => .ok { cells := before ++ c :: after, next := [.scan m (before.length + 1) stop] }
      | some op => (foldOperator (positionAt positions before.length) op before.reverse after).map
          (scanned m before.length stop)) := by
  rw [Task.work, scan, if_neg (Nat.not_lt.2 h), read_append]
  cases ho : operatorOf m c with
  | none => simp only [ho, raise_append, bind, Except.bind, pure, Except.pure]
  | some op =>
    obtain rfl := eq_of_operatorOf ho
    have hfold := foldAt_eq positions op before.reverse after
    rw [List.reverse_reverse, List.length_reverse] at hfold
    simp only [ho, hfold, bind, Except.bind, pure, Except.pure]
    cases hf : foldOperator (positionAt positions before.length) op before.reverse after with
    | error p => rfl
    | ok x => simp only [Except.map, raise_append, scanned]

theorem work_sign : (Task.sign before.length stop).work positions (before ++ c :: after) =
    .ok (.ok (signed before.length stop before c after)) := by
  rw [Task.work, sign, read_append]
  unfold signed
  split <;> simp only [bind, Except.bind, pure, Except.pure, write_append, raise_append]

theorem work_negate : (Task.negate before.length stop).work positions (before ++ c :: after) =
    .ok (negated positions before.length stop before c after) := by
  have hget : (before ++ c :: after)[before.length]? = some c := by simp
  rw [Task.work, negate, isLive_append]
  cases c with
  | none =>
    simp only [negated, negateAt, hget, raise_append, Option.isSome_none, bind, Except.bind, pure, Except.pure]
    split <;> rfl
  | some t =>
    cases t with
    | num r =>
      simp only [negated, negateAt, hget, write_append, raise_append, Option.isSome_some, bind, Except.bind, pure,
        Except.pure, ↓reduceIte, ite_self]
    | op _ | opening | closing =>
      simp only [negated, negateAt, hget, Option.isSome_some, bind, Except.bind, ↓reduceIte, ite_self]

end

section
variable {positions : List Nat} {cells : List Cell} {s : Span}

theorem contains_eq (cells : List Cell) (s : Span) : contains cells s = s.fits cells.length := by
  have h : decide (s.stop < cells.length - 1) = decide (s.stop + 1 < cells.length) := by
    rw [decide_eq_decide]
    omega
  rw [contains, Span.fits, h]

theorem spendAround_eq (h : s.fits cells.length = true) :
    spendAround cells s = .ok (spendParentheses s cells) := by
  unfold spendAround spendParentheses
  unfold Span.fits at h
  split
  · rfl
  · rename_i hroot
    simp only [if_neg hroot, Bool.and_eq_true, decide_eq_true_eq] at h
    have hlower : lower s.start = .ok (s.start - 1) := by
      cases hs : s.start with
      | zero => omega
      | succ n => rfl
    have hopening : write cells (s.start - 1) none = .ok (cells.set (s.start - 1) none) := if_pos (by omega)
    have hraise : raise (cells.set (s.start - 1) none) s.stop = .ok (s.stop + 1) :=
      raise_of_lt (by rw [List.length_set]; omega)
    have hclosing : write (cells.set (s.start - 1) none) (s.stop + 1) none =
        .ok ((cells.set (s.start - 1) none).set (s.stop + 1) none) := if_pos (by rw [List.length_set]; omega)
    simp only [hlower, hopening, hraise, hclosing, bind, Except.bind]

theorem work_enter (h : s.fits cells.length = true) : (Task.enter s).work positions cells = .ok (.ok
    { cells := spendParentheses s cells
      events := [.entered s ((cells.drop s.start).take (s.stop + 1 - s.start))]
      next := [.sign s.start s.stop] }) := by
  have hslice : slice cells s.start s.stop = .ok ((cells.drop s.start).take (s.stop + 1 - s.start)) :=
    if_pos (Span.bounds_of_fits h)
  simp only [Task.work, enter, contains_eq, if_pos h, hslice, spendAround_eq h, bind, Except.bind, pure, Except.pure]

theorem work_enter_outside (h : ¬s.fits cells.length = true) : (Task.enter s).work positions cells =
    .ok (.error (.inconsistent (positionAt positions s.start) .spanOutsideRow)) := by
  simp only [Task.work, enter, contains_eq, if_neg h]

end

/-! ## Runs -/

/-- A step from one state to the next. -/
def Goes (positions : List Nat) (s t : State) : Prop :=
  s.step positions = .ok (.goesOn t)

/-- A run of any number of steps, none of which is a fault. -/
def Reaches (positions : List Nat) : State → State → Prop :=
  Relation.ReflTransGen (Goes positions)

/-- A run does a folding: it comes to its row and its events, and from there it goes on with the tasks `ts`, or ends
with the problem of the folding. -/
def Completes (positions : List Nat) (s : State) (f : Folding) (ts : List Task) : Prop :=
  ∃ rest, Reaches positions s ⟨f.cells, s.events ++ f.events, rest⟩ ∧
    match f.problem with
    | none   => rest = ts
    | some p => State.step positions ⟨f.cells, s.events ++ f.events, rest⟩ = .ok (.ends (.error p))

section
variable {positions : List Nat} {cells : List Cell} {events : List Event} {t : Task} {ts : List Task}

theorem goes_of_work {d : Done} (h : t.work positions cells = .ok (.ok d)) :
    Goes positions ⟨cells, events, t :: ts⟩ ⟨d.cells, events ++ d.events, d.next ++ ts⟩ := by
  simp only [Goes, State.step, h, bind, Except.bind, pure, Except.pure]

theorem completes_of_refused {p : Problem} (h : t.work positions cells = .ok (.error p)) :
    Completes positions ⟨cells, events, t :: ts⟩ { cells, problem := some p } ts := by
  refine ⟨t :: ts, ?_, ?_⟩
  · rw [List.append_nil]
    exact Relation.ReflTransGen.refl
  · simp only [State.step, h, bind, Except.bind, pure, Except.pure]

theorem completes_nothing : Completes positions ⟨cells, events, ts⟩ { cells } ts := by
  refine ⟨ts, ?_, rfl⟩
  rw [List.append_nil]
  exact Relation.ReflTransGen.refl

theorem Completes.of_reaches {cells' : List Cell} {new : List Event} {ts' : List Task} {f : Folding}
    (h : Reaches positions ⟨cells, events, ts⟩ ⟨cells', events ++ new, ts'⟩) {us : List Task}
    (hf : Completes positions ⟨cells', events ++ new, ts'⟩ f us) :
    Completes positions ⟨cells, events, ts⟩ { f with events := new ++ f.events } us := by
  obtain ⟨rest, hr, hp⟩ := hf
  rw [List.append_assoc] at hr hp
  exact ⟨rest, h.trans hr, hp⟩

/-- A run starts with a piece of work and goes on with what that leaves. -/
theorem Completes.of_work {d : Done} {f : Folding} {us : List Task} (h : t.work positions cells = .ok (.ok d))
    (hf : Completes positions ⟨d.cells, events ++ d.events, d.next ++ ts⟩ f us) :
    Completes positions ⟨cells, events, t :: ts⟩ { f with events := d.events ++ f.events } us :=
  .of_reaches (.single (goes_of_work h)) hf

theorem Completes.andThen {f : Folding} {next : List Cell → Folding} {us : List Task}
    (hf : Completes positions ⟨cells, events, ts⟩ f us) {vs : List Task}
    (hn : f.problem = none → Completes positions ⟨f.cells, events ++ f.events, us⟩ (next f.cells) vs) :
    Completes positions ⟨cells, events, ts⟩ (f.andThen next) vs := by
  obtain ⟨rest, hr, hp⟩ := hf
  unfold Folding.andThen
  cases hproblem : f.problem with
  | some p =>
    rw [hproblem] at hp
    refine ⟨rest, hr, ?_⟩
    rw [hproblem]
    exact hp
  | none =>
    rw [hproblem] at hp
    subst hp
    exact .of_reaches hr (hn hproblem)

/-! ## The passes -/

theorem completes_sweep (m : Bool) (stop : Nat) : ∀ (n : Nat) (left right : List Cell) (events : List Event),
    n = stop + 1 - left.length → stop < left.length + right.length →
    Completes positions ⟨left.reverse ++ right, events, .scan m left.length stop :: ts⟩
      (sweep positions m n left right) ts
  | 0, left, right, events, hn, _ => by
    have hwork : (Task.scan m left.length stop).work positions (left.reverse ++ right) =
        .ok (.ok { cells := left.reverse ++ right }) := if_pos (by omega)
    exact .of_work hwork completes_nothing
  | n + 1, left, [], events, hn, hs => by
    rw [List.length_nil] at hs
    omega
  | n + 1, left, c :: right, events, hn, hs => by
    rw [List.length_cons] at hs
    have hwork := @work_scan positions left.reverse right c stop m (by rw [List.length_reverse]; omega)
    rw [List.length_reverse, List.reverse_reverse] at hwork
    unfold sweep
    cases ho : operatorOf m c with
    | none =>
      rw [ho] at hwork
      have ih := completes_sweep m stop n (c :: left) right (events ++ []) (by simp; omega) (by simp; omega)
      rw [List.reverse_cons, List.append_assoc, List.singleton_append] at ih
      exact .of_work hwork ih
    | some op =>
      rw [ho] at hwork
      dsimp only at hwork ⊢
      cases hf : foldOperator (positionAt positions left.length) op left right with
      | error p =>
        rw [hf] at hwork
        exact completes_of_refused hwork
      | ok x =>
        obtain ⟨s, left', right'⟩ := x
        obtain ⟨-, hl, hr, -⟩ := foldOperator_eq_ok_iff.1 hf
        have hll := length_of_takeNearest hl
        have hlr := length_of_takeNearest hr
        rw [hf] at hwork
        have ih := completes_sweep m stop n (some (.num s.result) :: left') right' (events ++ [.folded s])
          (by simp; omega) (by simp; omega)
        rw [List.reverse_cons, List.append_assoc, List.singleton_append, List.length_cons, hll] at ih
        exact .of_work hwork ih

theorem completes_pass (m : Bool) {start stop : Nat} (hstart : start ≤ cells.length) (hstop : stop < cells.length) :
    Completes positions ⟨cells, events, .scan m start stop :: ts⟩ (pass positions m start stop cells) ts := by
  have hleft : (cells.take start).reverse.length = start := by
    rw [List.length_reverse, List.length_take_of_le hstart]
  have h := @completes_sweep positions ts m stop (stop + 1 - start) (cells.take start).reverse
    (cells.drop start) events (by rw [hleft]) (by rw [hleft, List.length_drop]; omega)
  rw [List.reverse_reverse, List.take_append_drop, hleft] at h
  exact h

theorem completes_passes {start stop : Nat} (hstart : start ≤ cells.length) (hstop : stop < cells.length) :
    Completes positions ⟨cells, events, scans start stop ++ ts⟩ (passes positions start stop cells) ts := by
  refine Completes.andThen (completes_pass true hstart hstop) fun _ => ?_
  have hlen := length_pass positions true start stop cells
  exact completes_pass false (hlen ▸ hstart) (hlen ▸ hstop)

/-! ## The leading sign -/

/-- Where the search for the number of a leading `-` stops without one. -/
theorem work_negate_other {n stop : Nat} {before after : List Cell} (hn : n = stop + 1 - before.length)
    (hs : stop < before.length + after.length) (hnum : ∀ r rest, after ≠ some (.num r) :: rest)
    (hspent : ∀ k rest, n = k + 1 → after ≠ none :: rest) :
    (Task.negate before.length stop).work positions (before ++ after) =
      .ok (.error (.inconsistent (positionAt positions before.length) .signWithoutNumber)) := by
  cases after with
  | nil =>
    rw [List.length_nil] at hs
    rw [Task.work, negate, if_neg (by omega), negateAt, List.getElem?_eq_none (by simp)]
  | cons c rest =>
    rw [work_negate]
    cases c with
    | none =>
      cases n with
      | zero => rw [negated, if_neg (by omega)]
      | succ n => exact absurd rfl (hspent n rest rfl)
    | some t =>
      cases t with
      | num r => exact absurd rfl (hnum r rest)
      | op _ | opening | closing => rfl

/-- A spent cell is passed over. -/
theorem completes_negate_spent {before after : List Cell} {stop : Nat} {f : Folding} (hs : before.length ≤ stop)
    (h : Completes positions ⟨before ++ [none] ++ after, events ++ [], .negate (before.length + 1) stop :: ts⟩ f ts) :
    Completes positions ⟨before ++ none :: after, events, .negate before.length stop :: ts⟩ f ts := by
  have hwork := @work_negate positions before after none stop
  rw [negated, if_pos hs] at hwork
  rw [List.append_assoc, List.singleton_append] at h
  exact .of_work hwork h

theorem completes_negate (stop n : Nat) (before after : List Cell) (events : List Event)
    (hn : n = stop + 1 - before.length) (hs : stop < before.length + after.length) :
    Completes positions ⟨before ++ after, events, .negate before.length stop :: ts⟩
      (match negateFirst n after with
        | .ok (k, after') => passes positions (before.length + k) stop (before ++ after')
        | .error k        =>
          { cells := before ++ after
            problem := some (.inconsistent (positionAt positions (before.length + k)) .signWithoutNumber) }) ts := by
  fun_induction negateFirst n after generalizing before events with
  | case1 n r after =>
    refine .of_work (work_negate before after (some (.num r)) stop) (completes_passes ?_ ?_)
    · simp
    · simpa using hs
  | case2 n after k after' hk ih =>
    have ih := ih (before ++ [none]) (events ++ []) (by simp; omega) (by simp at hs ⊢; omega)
    rw [hk, List.length_append, List.length_singleton] at ih
    have h := completes_negate_spent (by omega) ih
    dsimp only at h ⊢
    rwa [Nat.add_assoc, Nat.add_comm 1 k, List.append_assoc, List.singleton_append] at h
  | case3 n after k hk ih =>
    have ih := ih (before ++ [none]) (events ++ []) (by simp; omega) (by simp at hs ⊢; omega)
    rw [hk, List.length_append, List.length_singleton] at ih
    have h := completes_negate_spent (by omega) ih
    dsimp only at h ⊢
    rwa [Nat.add_assoc, Nat.add_comm 1 k, List.append_assoc, List.singleton_append] at h
  | case4 n after h₁ h₂ =>
    exact completes_of_refused (work_negate_other hn hs (fun r rest h => h₁ r rest h) fun k rest hk h => h₂ k rest hk h)

/-- The sign of a span that lies in the row, and its passes. -/
theorem completes_foldSigned {start stop : Nat} (h : start ≤ stop) (hstop : stop < cells.length) :
    Completes positions ⟨cells, events, .sign start stop :: ts⟩ (foldSigned positions start stop cells) ts := by
  obtain ⟨before, c, after, rfl, rfl⟩ : ∃ before c after, cells = before ++ c :: after ∧ before.length = start :=
    ⟨cells.take start, cells[start], cells.drop (start + 1), by simp, List.length_take_of_le (by omega)⟩
  have hwork := @work_sign positions before after c stop
  have hlen : (before ++ none :: after).length = (before ++ c :: after).length := by simp
  unfold foldSigned
  rw [List.take_left, List.drop_left]
  split
  · rename_i hc
    obtain ⟨rfl, rfl⟩ := List.cons.inj hc
    rw [signed] at hwork
    exact .of_work hwork (completes_passes (by simp) (hlen ▸ hstop))
  · rename_i hc
    obtain ⟨rfl, rfl⟩ := List.cons.inj hc
    rw [signed] at hwork
    have hneg := @completes_negate positions ts stop (stop - before.length) (before ++ [none]) after (events ++ [])
      (by simp) (by simp at hstop ⊢; omega)
    rw [List.append_assoc, List.singleton_append, List.length_append, List.length_singleton] at hneg
    cases hk : negateFirst (stop - before.length) after with
    | ok x =>
      rw [hk] at hneg
      dsimp only at hneg
      rw [List.append_assoc, List.singleton_append] at hneg
      exact .of_work hwork hneg
    | error k =>
      rw [hk] at hneg
      exact .of_work hwork hneg
  · rename_i hadd hsub
    unfold signed at hwork
    split at hwork
    · exact absurd rfl (hadd after)
    · exact absurd rfl (hsub after)
    · exact .of_work hwork (completes_passes (by simp) hstop)

/-! ## The spans -/

theorem completes_foldSpan (s : Span) :
    Completes positions ⟨cells, events, .enter s :: ts⟩ (foldSpan positions s cells) ts := by
  unfold foldSpan
  by_cases hfits : s.fits cells.length = true
  · obtain ⟨hle, hlt⟩ := Span.bounds_of_fits hfits
    have hlen := length_spendParentheses s cells
    rw [if_pos hfits]
    exact .of_work (work_enter hfits) (completes_foldSigned hle (hlen.symm ▸ hlt))
  · rw [if_neg hfits]
    exact completes_of_refused (work_enter_outside hfits)

theorem completes_foldSpans (spans : List Span) :
    Completes positions ⟨cells, events, spans.map .enter ++ ts⟩ (foldSpans positions spans cells) ts := by
  induction spans generalizing cells events with
  | nil => exact completes_nothing
  | cons s spans ih => exact (completes_foldSpan s).andThen fun _ => ih

/-- A folding with no tasks behind it leads to the end of the run. -/
theorem Completes.ends {s : State} {f : Folding} (h : Completes positions s f []) :
    ∃ rest, Reaches positions s ⟨f.cells, s.events ++ f.events, rest⟩ ∧
      State.step positions ⟨f.cells, s.events ++ f.events, rest⟩ = .ok (.ends (match f.problem with
        | some p => .error p
        | none   => soleNumber positions f.cells)) := by
  obtain ⟨rest, hreaches, hend⟩ := h
  refine ⟨rest, hreaches, ?_⟩
  cases hp : f.problem with
  | none =>
    rw [hp] at hend
    subst hend
    rfl
  | some p =>
    rw [hp] at hend
    exact hend

/-- **The machine folds a row as `foldTable` does.** -/
theorem exists_reaches_ends (positions : List Nat) (spans : SpanTable) (cells : List Cell) :
    ∃ tasks,
      let f := foldTable positions spans cells
      let last : State := ⟨f.cells, f.events, tasks⟩
      Reaches positions (.start spans cells) last ∧ last.step positions = .ok (.ends f.answer) := by
  have h := @completes_foldSpans positions cells [] [] spans.deepestFirst
  rw [List.append_nil] at h
  exact h.ends

end

/-- The machine has at most one next state. -/
theorem goes_rightUnique (positions : List Nat) : Relator.RightUnique (Goes positions) := by
  intro s t t' h h'
  rw [Goes, h] at h'
  injection h' with h'
  injection h'

section
variable {positions : List Nat} {s t last : State} {answer answer' : Except Problem Rat}

theorem not_goes_of_ends (hend : last.step positions = .ok (.ends answer)) (u : State) : ¬Goes positions last u := by
  intro hu
  rw [Goes, hend] at hu
  injection hu with hu
  cases hu

/-- A run that has ended passed through every state that can be reached. -/
theorem reaches_last (hlast : Reaches positions s last) (hend : last.step positions = .ok (.ends answer))
    (h : Reaches positions s t) : Reaches positions t last := by
  rcases Relation.ReflTransGen.total_of_right_unique (goes_rightUnique positions) hlast h with h | h
  · rcases Relation.ReflTransGen.cases_head h with rfl | ⟨u, hu, -⟩
    · exact h
    · exact absurd hu (not_goes_of_ends hend u)
  · exact h

theorem last_unique (hlast : Reaches positions s last) (hend : last.step positions = .ok (.ends answer))
    (h : Reaches positions s t) (ht : t.step positions = .ok (.ends answer')) : t = last := by
  rcases Relation.ReflTransGen.cases_head (reaches_last hlast hend h) with rfl | ⟨u, hu, -⟩
  · rfl
  · exact absurd hu (not_goes_of_ends ht u)

/-- No state on the way to an end is a fault. -/
theorem exists_step_of_reaches (hlast : Reaches positions s last) (hend : last.step positions = .ok (.ends answer))
    (h : Reaches positions s t) : ∃ outcome, t.step positions = .ok outcome := by
  rcases Relation.ReflTransGen.cases_head (reaches_last hlast hend h) with rfl | ⟨u, hu, -⟩
  · exact ⟨_, hend⟩
  · exact ⟨_, hu⟩

end

/-- **Folding does nothing that an array does not allow**, whatever the row, the positions and the bounds of the spans.
The machine comes to an end, with the row, the events and the answer of `foldTable`; on the way there no slot outside
the row is read or written, no slot number falls below 0 or rises beyond the length of the row, and nothing is divided
by 0.  The answer is a number, a division by zero or an inconsistency. -/
theorem foldTable_never_faults (positions : List Nat) (spans : SpanTable) (cells : List Cell) :
    (∃ last, Reaches positions (.start spans cells) last ∧
        last.step positions = .ok (.ends (foldTable positions spans cells).answer) ∧
        last.cells = (foldTable positions spans cells).cells ∧
        last.events = (foldTable positions spans cells).events) ∧
      (∀ s, Reaches positions (.start spans cells) s → ∃ outcome, s.step positions = .ok outcome) ∧
      ((∃ r, (foldTable positions spans cells).answer = .ok r) ∨
        (∃ i, (foldTable positions spans cells).answer = .error (.divisionByZero i)) ∨
        ∃ i cause, (foldTable positions spans cells).answer = .error (.inconsistent i cause)) := by
  obtain ⟨tasks, hlast, hend⟩ := exists_reaches_ends positions spans cells
  refine ⟨⟨_, hlast, hend, rfl, rfl⟩, fun s hs => exists_step_of_reaches hlast hend hs, ?_⟩
  cases h : (foldTable positions spans cells).answer with
  | ok r => exact .inl ⟨r, rfl⟩
  | error p =>
    rcases answer_eq_error_cases h with ⟨i, rfl⟩ | ⟨i, cause, rfl⟩
    · exact .inr (.inl ⟨i, rfl⟩)
    · exact .inr (.inr ⟨i, cause, rfl⟩)

end Slots
end ExactCalc
