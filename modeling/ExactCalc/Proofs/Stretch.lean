import ExactCalc.Proofs.Safety
/-!
# Runs within a stretch of the row

A step of the machine is within a stretch of the row if it is the same whatever cells stand before the stretch and after
it, which it leaves as they are (`GoesWithin`).  To find out what the machine does within a stretch it is enough to let
it run with nothing but spent cells before it and nothing after it.  It does the same in every other row, unless it
misses something that might have been found there, and that is an inconsistency (`completesWithin_of_bare`).
-/
namespace ExactCalc

/-- The first slot of a span, with its parentheses if it has them. -/
def Span.first (s : Span) : Nat :=
  if s.isRoot then s.start else s.start - 1

/-- The last slot of a span, with its parentheses if it has them. -/
def Span.last (s : Span) : Nat :=
  if s.isRoot then s.stop else s.stop + 1

theorem Span.first_le_start (s : Span) : s.first ≤ s.start := by
  unfold first
  split
  · exact Nat.le_refl _
  · exact Nat.sub_le _ _

theorem Span.fits_mono {s : Span} {n m : Nat} (hnm : n ≤ m) (h : s.fits n = true) : s.fits m = true := by
  unfold fits at h ⊢
  cases hroot : s.isRoot with
  | true | false =>
    simp only [hroot, Bool.false_eq_true, ↓reduceIte, Bool.and_eq_true, decide_eq_true_eq] at h ⊢
    omega

/-! ## One fold -/

theorem takeNearest_append {xs rest : List Cell} {t : Token} (h : takeNearest xs = some (t, rest)) (ys : List Cell) :
    takeNearest (xs ++ ys) = some (t, rest ++ ys) := by
  obtain ⟨n, far, rfl, rfl⟩ := takeNearest_eq_some_iff.1 h
  exact takeNearest_eq_some_iff.2 ⟨n, far ++ ys, by simp, by simp⟩

theorem takeNearest_append_replicate {xs : List Cell} {n : Nat} (h : takeNearest xs = none) :
    takeNearest (xs ++ List.replicate n none) = none := by
  rw [takeNearest_eq_none_iff] at h ⊢
  intro c hc
  rcases List.mem_append.1 hc with hc | hc
  · exact h c hc
  · exact List.eq_of_mem_replicate hc

/-- What lies beyond the two neighbours is neither looked at nor changed. -/
theorem foldOperator_append {pos : Nat} {op : Op} {left right : List Cell} (hl : takeNearest left ≠ none)
    (hr : takeNearest right ≠ none) (u v : List Cell) :
    foldOperator pos op (left ++ u) (right ++ v) =
      (foldOperator pos op left right).map fun x => (x.1, x.2.1 ++ u, x.2.2 ++ v) := by
  obtain ⟨⟨t, left'⟩, hl⟩ := Option.ne_none_iff_exists'.1 hl
  obtain ⟨⟨w, right'⟩, hr⟩ := Option.ne_none_iff_exists'.1 hr
  simp only [foldOperator, takeNearest_append hl, takeNearest_append hr, hl, hr]
  cases t with
  | num a =>
    cases w with
    | num b =>
      dsimp only
      cases op.apply a b <;> rfl
    | op _ | opening | closing => rfl
  | op _ | opening | closing => rfl

theorem takeNearest_ne_none_of_foldOperator {pos : Nat} {op : Op} {left right : List Cell}
    (h : foldOperator pos op left right ≠ .error (.inconsistent pos .missingOperand)) :
    takeNearest left ≠ none ∧ takeNearest right ≠ none := by
  constructor
  · intro hl
    exact h (by rw [foldOperator, hl])
  · intro hr
    refine h ?_
    cases hl : takeNearest left <;> simp [foldOperator, hl, hr]

/-- Where nothing but spent cells lies beyond, a fold that has both its neighbours has them before. -/
theorem foldOperator_append_of_bare {pos n : Nat} {op : Op} {left right : List Cell}
    (h : foldOperator pos op (left ++ List.replicate n none) right ≠ .error (.inconsistent pos .missingOperand))
    (u v : List Cell) :
    foldOperator pos op (left ++ u) (right ++ v) =
      (foldOperator pos op left right).map fun x => (x.1, x.2.1 ++ u, x.2.2 ++ v) := by
  obtain ⟨hl, hr⟩ := takeNearest_ne_none_of_foldOperator h
  exact foldOperator_append (fun hn => hl (takeNearest_append_replicate hn)) hr u v

namespace Slots

/-! ## Pieces of work -/

/-- The state with other cells before and after its own; slot numbers count from the first cell of `pre`. -/
def State.inRow (pre post : List Cell) (s : State) : State :=
  { s with cells := pre ++ (s.cells ++ post) }

def Done.inRow (pre post : List Cell) (d : Done) : Done :=
  { d with cells := pre ++ (d.cells ++ post) }

/-- The lowest slot that a piece of work names. -/
def Task.lowest : Task → Nat
  | .enter s       => s.first
  | .sign start _  => start
  | .negate slot _ => slot
  | .scan _ slot _ => slot

/-- What a piece of work comes to in a stretch that starts in slot `first`: the same whatever cells stand around it, and
the work that comes next names no lower slot. -/
structure WorksWithin (positions : List Nat) (first : Nat) (t : Task) (cells : List Cell) (x : Except Problem Done) :
    Prop where
  same : ∀ pre post : List Cell, pre.length = first →
    t.work positions (pre ++ (cells ++ post)) = .ok (x.map (Done.inRow pre post))
  next : ∀ d, x = .ok d → ∀ u ∈ d.next, first ≤ u.lowest

section
variable {positions : List Nat} {first slot stop : Nat} {cells : List Cell} {x : Except Problem Done}

theorem exists_split (h₁ : first ≤ slot) (h₂ : slot < first + cells.length) :
    ∃ before c after, cells = before ++ c :: after ∧ slot = first + before.length := by
  refine ⟨cells.take (slot - first), cells[slot - first], cells.drop (slot - first + 1), by simp, ?_⟩
  rw [List.length_take_of_le (by omega)]
  omega

/-- Beyond a stretch with nothing after it there is no slot. -/
theorem getElem?_beyond (h : ¬slot < first + cells.length) :
    (List.replicate first none ++ (cells ++ []))[slot]? = none :=
  List.getElem?_eq_none (by simp; omega)

theorem read_beyond (h : ¬slot < first + cells.length) :
    read (List.replicate first none ++ (cells ++ [])) slot = .error (.outsideRow slot) := by
  rw [read, getElem?_beyond h]

theorem append_inRow (pre before : List Cell) (c : Cell) (after post : List Cell) :
    pre ++ (before ++ c :: after ++ post) = pre ++ before ++ c :: (after ++ post) := by
  simp only [List.append_assoc, List.cons_append]

theorem work_scan_inRow {pre before : List Cell} (hpre : pre.length = first) {m : Bool}
    (hs : first + before.length ≤ stop) (c : Cell) (after post : List Cell) :
    (Task.scan m (first + before.length) stop).work positions (pre ++ (before ++ c :: after ++ post)) =
      .ok (match operatorOf m c with
        | none    => .ok { cells := pre ++ (before ++ c :: after ++ post)
                           next := [.scan m (first + before.length + 1) stop] }
        | some op => (foldOperator (positionAt positions (first + before.length)) op (before.reverse ++ pre.reverse)
            (after ++ post)).map (scanned m (first + before.length) stop)) := by
  subst hpre
  rw [← List.length_append] at hs ⊢
  rw [append_inRow, ← List.reverse_append]
  exact work_scan _ _ _ _ _ hs

theorem lowest_of_scanned {m : Bool} {f : Except Problem (Step × List Cell × List Cell)} {d : Done}
    (h : f.map (scanned m slot stop) = .ok d) : ∀ u ∈ d.next, u.lowest = slot + 1 := by
  cases f with
  | error p => cases h
  | ok x =>
    cases h
    intro u hu
    rw [List.mem_singleton.1 hu]
    rfl

theorem worksWithin_scan {m : Bool} (hslot : first ≤ slot)
    (h : (Task.scan m slot stop).work positions (List.replicate first none ++ (cells ++ [])) = .ok x)
    (hx : ∀ i cause, x ≠ .error (.inconsistent i cause)) :
    ∃ y, WorksWithin positions first (.scan m slot stop) cells y := by
  by_cases hs : stop < slot
  · exact ⟨.ok { cells }, fun pre post _ => if_pos hs, by rintro d ⟨⟩ u ⟨⟩⟩
  rw [Nat.not_lt] at hs
  by_cases hend : slot < first + cells.length
  · obtain ⟨before, c, after, rfl, rfl⟩ := exists_split hslot hend
    rw [work_scan_inRow List.length_replicate hs] at h
    cases ho : operatorOf m c with
    | none =>
      refine ⟨.ok { cells := before ++ c :: after, next := [.scan m (first + before.length + 1) stop] }, ?_, ?_⟩
      · intro pre post hpre
        rw [work_scan_inRow hpre hs, ho]
        rfl
      · rintro d ⟨⟩ u hu
        rw [List.mem_singleton.1 hu]
        exact Nat.le_succ_of_le hslot
    | some op =>
      rw [ho] at h
      dsimp only at h
      rw [List.append_nil, List.reverse_replicate] at h
      -- around the stretch nothing is to be found, so both neighbours are in it
      have hfold := @foldOperator_append_of_bare (positionAt positions (first + before.length)) first op before.reverse
        after fun he => by
          rw [he] at h
          exact hx _ _ (Except.ok.inj h).symm
      refine ⟨(foldOperator (positionAt positions (first + before.length)) op before.reverse after).map
        (scanned m (first + before.length) stop), ?_, ?_⟩
      · intro pre post hpre
        rw [work_scan_inRow hpre hs, ho]
        dsimp only
        rw [hfold]
        cases foldOperator (positionAt positions (first + before.length)) op before.reverse after <;>
          simp [Except.map, Done.inRow, scanned]
      · intro d hd u hu
        rw [lowest_of_scanned hd u hu]
        exact Nat.le_succ_of_le hslot
  · rw [Task.work, scan, if_neg (Nat.not_lt.2 hs), read_beyond hend] at h
    cases h

theorem lowest_scans {u : Task} (hu : u ∈ scans slot stop) : u.lowest = slot := by
  rcases List.mem_cons.1 hu with rfl | hu
  · rfl
  · rw [List.mem_singleton.1 hu]
    rfl

theorem signed_inRow (pre before : List Cell) (c : Cell) (after post : List Cell) :
    signed slot stop (pre ++ before) c (after ++ post) = (signed slot stop before c after).inRow pre post := by
  unfold signed
  split <;> simp [Done.inRow]

theorem le_lowest_of_signed {before after : List Cell} {c : Cell} :
    ∀ u ∈ (signed slot stop before c after).next, slot ≤ u.lowest := by
  intro u hu
  unfold signed at hu
  split at hu
  · rw [lowest_scans hu]
    exact Nat.le_succ slot
  · rw [List.mem_singleton.1 hu]
    exact Nat.le_succ slot
  · exact Nat.le_of_eq (lowest_scans hu).symm

theorem worksWithin_sign (hslot : first ≤ slot)
    (h : (Task.sign slot stop).work positions (List.replicate first none ++ (cells ++ [])) = .ok x) :
    ∃ y, WorksWithin positions first (.sign slot stop) cells y := by
  by_cases hend : slot < first + cells.length
  · obtain ⟨before, c, after, rfl, rfl⟩ := exists_split hslot hend
    refine ⟨.ok (signed (first + before.length) stop before c after), ?_, ?_⟩
    · rintro pre post rfl
      rw [append_inRow, ← List.length_append, work_sign, signed_inRow]
      rfl
    · rintro d ⟨⟩ u hu
      exact Nat.le_trans hslot (le_lowest_of_signed u hu)
  · rw [Task.work, sign, read_beyond hend] at h
    cases h

theorem negated_inRow (pre before : List Cell) (c : Cell) (after post : List Cell) :
    negated positions slot stop (pre ++ before) c (after ++ post) =
      (negated positions slot stop before c after).map (Done.inRow pre post) := by
  unfold negated
  split
  · simp [Except.map, Done.inRow]
  · rfl
  · split
    · simp [Except.map, Done.inRow]
    · rfl

theorem le_lowest_of_negated {before after : List Cell} {c : Cell} {d : Done}
    (h : negated positions slot stop before c after = .ok d) : ∀ u ∈ d.next, slot ≤ u.lowest := by
  intro u hu
  unfold negated at h
  split at h
  · cases h
    rw [lowest_scans hu]
    exact Nat.le_succ slot
  · cases h
  · split at h
    · cases h
      rw [List.mem_singleton.1 hu]
      exact Nat.le_succ slot
    · cases h

theorem worksWithin_negate (hslot : first ≤ slot)
    (h : (Task.negate slot stop).work positions (List.replicate first none ++ (cells ++ [])) = .ok x)
    (hx : ∀ i cause, x ≠ .error (.inconsistent i cause)) :
    ∃ y, WorksWithin positions first (.negate slot stop) cells y := by
  by_cases hend : slot < first + cells.length
  · obtain ⟨before, c, after, rfl, rfl⟩ := exists_split hslot hend
    refine ⟨negated positions (first + before.length) stop before c after, ?_, ?_⟩
    · rintro pre post rfl
      rw [append_inRow, ← List.length_append, work_negate, negated_inRow]
    · intro d hd u hu
      exact Nat.le_trans hslot (le_lowest_of_negated hd u hu)
  · rw [Task.work, negate, isLive, getElem?_beyond hend, negateAt, getElem?_beyond hend] at h
    split at h
    · cases h
    · exact absurd (Except.ok.inj h).symm (hx _ _)

theorem set_inRow {pre : List Cell} (hpre : pre.length = first) (h₁ : first ≤ slot) (h₂ : slot < first + cells.length)
    (c : Cell) (post : List Cell) :
    (pre ++ (cells ++ post)).set slot c = pre ++ (cells.set (slot - first) c ++ post) := by
  subst hpre
  rw [List.set_append_right _ _ h₁, List.set_append_left _ _ (by omega)]

/-- The cells of a stretch once the parentheses of a span in it are spent. -/
def spentWithin (first : Nat) (s : Span) (cells : List Cell) : List Cell :=
  if s.isRoot then cells else (cells.set (s.start - 1 - first) none).set (s.stop + 1 - first) none

theorem spendParentheses_inRow {pre : List Cell} (hpre : pre.length = first) {s : Span} (hs : first ≤ s.first)
    (hfits : s.fits (first + cells.length) = true) (post : List Cell) :
    spendParentheses s (pre ++ (cells ++ post)) = pre ++ (spentWithin first s cells ++ post) := by
  unfold spendParentheses spentWithin
  split
  · rfl
  · rename_i hroot
    rw [Span.first, if_neg hroot] at hs
    rw [Span.fits, if_neg hroot] at hfits
    simp only [Bool.and_eq_true, decide_eq_true_eq] at hfits
    rw [set_inRow hpre hs (by omega), set_inRow hpre (by omega) (by rw [List.length_set]; omega)]

theorem slice_inRow {pre : List Cell} (hpre : pre.length = first) {start : Nat} (h₁ : first ≤ start)
    (h₂ : start ≤ stop) (h₃ : stop < first + cells.length) (post : List Cell) :
    ((pre ++ (cells ++ post)).drop start).take (stop + 1 - start) =
      (cells.drop (start - first)).take (stop + 1 - start) := by
  subst hpre
  rw [List.drop_append, List.drop_eq_nil_of_le h₁, List.nil_append, List.drop_append_of_le_length (by omega),
    List.take_append_of_le_length (by rw [List.length_drop]; omega)]

theorem worksWithin_enter {s : Span} (hs : first ≤ s.first)
    (h : (Task.enter s).work positions (List.replicate first none ++ (cells ++ [])) = .ok x)
    (hx : ∀ i cause, x ≠ .error (.inconsistent i cause)) :
    ∃ y, WorksWithin positions first (.enter s) cells y := by
  have hstart : first ≤ s.start := Nat.le_trans hs s.first_le_start
  by_cases hfits : s.fits (first + cells.length) = true
  · obtain ⟨hle, hlt⟩ := Span.bounds_of_fits hfits
    refine ⟨.ok { cells := spentWithin first s cells
                  events := [.entered s ((cells.drop (s.start - first)).take (s.stop + 1 - s.start))]
                  next := [.sign s.start s.stop] }, ?_, ?_⟩
    · intro pre post hpre
      have hlen : first + cells.length ≤ (pre ++ (cells ++ post)).length := by
        rw [List.length_append, List.length_append, hpre]
        omega
      rw [work_enter (Span.fits_mono hlen hfits), spendParentheses_inRow hpre hs hfits, slice_inRow hpre hstart hle hlt]
      rfl
    · rintro d ⟨⟩ u hu
      rw [List.mem_singleton.1 hu]
      exact hstart
  · rw [work_enter_outside (by simpa using hfits)] at h
    exact absurd (Except.ok.inj h).symm (hx _ _)

/-- **What a piece of work comes to among spent cells, it comes to in every row**, unless it is inconsistent there. -/
theorem worksWithin_of_bare {t : Task} (ht : first ≤ t.lowest)
    (h : t.work positions (List.replicate first none ++ (cells ++ [])) = .ok x)
    (hx : ∀ i cause, x ≠ .error (.inconsistent i cause)) :
    ∃ y, WorksWithin positions first t cells y ∧ x = y.map (Done.inRow (List.replicate first none) []) := by
  obtain ⟨y, hy⟩ : ∃ y, WorksWithin positions first t cells y := by
    cases t with
    | enter s => exact worksWithin_enter ht h hx
    | sign start stop => exact worksWithin_sign ht h
    | negate slot stop => exact worksWithin_negate ht h hx
    | scan m slot stop => exact worksWithin_scan ht h hx
  exact ⟨y, hy, Except.ok.inj (h.symm.trans (hy.same _ [] List.length_replicate))⟩

end

/-! ## Runs -/

/-- A step that is the same whatever cells stand around the stretch that starts in slot `first`, and leaves them as they
are.  So it depends on none of them; as none need stand after the stretch, there it does not even look. -/
def GoesWithin (positions : List Nat) (first : Nat) (s t : State) : Prop :=
  ∀ pre post : List Cell, pre.length = first → Goes positions (s.inRow pre post) (t.inRow pre post)

/-- A run of such steps. -/
def ReachesWithin (positions : List Nat) (first : Nat) : State → State → Prop :=
  Relation.ReflTransGen (GoesWithin positions first)

/-- A run within a stretch does a folding: `Completes`, whatever cells stand around the stretch. -/
def CompletesWithin (positions : List Nat) (first : Nat) (s : State) (f : Folding) (ts : List Task) : Prop :=
  ∃ rest, ReachesWithin positions first s ⟨f.cells, s.events ++ f.events, rest⟩ ∧
    match f.problem with
    | none   => rest = ts
    | some p => ∀ pre post : List Cell, pre.length = first →
      State.step positions (State.inRow pre post ⟨f.cells, s.events ++ f.events, rest⟩) = .ok (.ends (.error p))

section
variable {positions : List Nat} {first : Nat} {cells : List Cell} {events : List Event}

theorem CompletesWithin.completes {s : State} {f : Folding} {ts : List Task}
    (h : CompletesWithin positions first s f ts) {pre : List Cell} (hpre : pre.length = first) (post : List Cell) :
    Completes positions (s.inRow pre post) { f with cells := pre ++ (f.cells ++ post) } ts := by
  obtain ⟨rest, hreaches, hend⟩ := h
  refine ⟨rest, hreaches.lift (State.inRow pre post) fun _ _ h => h pre post hpre, ?_⟩
  dsimp only
  cases hp : f.problem with
  | none =>
    rw [hp] at hend
    exact hend
  | some p =>
    rw [hp] at hend
    exact hend pre post hpre

theorem step_cons {t : Task} {ts : List Task} {outcome : Outcome}
    (h : State.step positions ⟨cells, events, t :: ts⟩ = .ok outcome) : ∃ x, t.work positions cells = .ok x ∧
      outcome = match x with
        | .error p => .ends (.error p)
        | .ok d    => .goesOn ⟨d.cells, events ++ d.events, d.next ++ ts⟩ := by
  cases hw : t.work positions cells with
  | error f =>
    simp only [State.step, hw, bind, Except.bind] at h
    cases h
  | ok x =>
    refine ⟨x, rfl, ?_⟩
    cases x with
    | error p | ok d =>
      simp only [State.step, hw, bind, Except.bind, pure, Except.pure] at h
      exact (Except.ok.inj h).symm

/-- A step among spent cells is one within the stretch, also with more tasks behind. -/
theorem goesWithin_of_bare {s t : State} (hs : ∀ u ∈ s.tasks, first ≤ u.lowest)
    (h : Goes positions (s.inRow (List.replicate first none) []) t) :
    ∃ t' : State, t = t'.inRow (List.replicate first none) [] ∧ (∀ u ∈ t'.tasks, first ≤ u.lowest) ∧
      ∀ ts, GoesWithin positions first { s with tasks := s.tasks ++ ts } { t' with tasks := t'.tasks ++ ts } := by
  obtain ⟨cells, events, _ | ⟨u, us⟩⟩ := s
  · exact absurd h (not_goes_of_ends rfl t)
  · obtain ⟨x, hw, hx⟩ := step_cons h
    cases x with
    | error p => cases hx
    | ok d =>
      injection hx with hx
      subst hx
      obtain ⟨y, ⟨hsame, hnext⟩, hy⟩ := worksWithin_of_bare (hs u List.mem_cons_self) hw fun _ _ h => by cases h
      cases y with
      | error p => cases hy
      | ok d' =>
        injection hy with hy
        subst hy
        refine ⟨⟨d'.cells, events ++ d'.events, d'.next ++ us⟩, rfl, fun v hv => ?_, fun ts pre post hpre => ?_⟩
        · rcases List.mem_append.1 hv with hv | hv
          · exact hnext d' rfl v hv
          · exact hs v (List.mem_cons_of_mem u hv)
        · have hgoes := @goes_of_work positions _ events u (us ++ ts) _ (hsame pre post hpre)
          rw [← List.append_assoc (d'.inRow pre post).next] at hgoes
          exact hgoes

/-- A run among spent cells is one within the stretch, also with more tasks behind. -/
theorem reachesWithin_of_bare {s t : State} (hs : ∀ u ∈ s.tasks, first ≤ u.lowest)
    (h : Reaches positions (s.inRow (List.replicate first none) []) t) :
    ∃ t' : State, t = t'.inRow (List.replicate first none) [] ∧ (∀ u ∈ t'.tasks, first ≤ u.lowest) ∧
      ∀ ts, ReachesWithin positions first { s with tasks := s.tasks ++ ts } { t' with tasks := t'.tasks ++ ts } := by
  induction h with
  | refl => exact ⟨s, rfl, hs, fun _ => .refl⟩
  | tail _ hgoes ih =>
    obtain ⟨t', rfl, ht', hreaches⟩ := ih
    obtain ⟨u', rfl, hu', hgoes⟩ := goesWithin_of_bare ht' hgoes
    exact ⟨u', rfl, hu', fun ts => (hreaches ts).tail (hgoes ts)⟩

theorem ends_within_of_bare {s : State} {p : Problem} (hs : ∀ u ∈ s.tasks, first ≤ u.lowest)
    (h : State.step positions (s.inRow (List.replicate first none) []) = .ok (.ends (.error p)))
    (hp : ∀ i cause, p ≠ .inconsistent i cause) (ts : List Task) (pre post : List Cell) (hpre : pre.length = first) :
    State.step positions (State.inRow pre post { s with tasks := s.tasks ++ ts }) = .ok (.ends (.error p)) := by
  obtain ⟨cells, events, _ | ⟨u, us⟩⟩ := s
  · have hsole : soleNumber positions (List.replicate first none ++ (cells ++ [])) = .error p := by
      injection h with h
      injection h
    obtain ⟨i, cause, rfl⟩ := inconsistent_of_soleNumber hsole
    exact absurd rfl (hp i cause)
  · obtain ⟨x, hw, hx⟩ := step_cons h
    cases x with
    | ok d => cases hx
    | error q =>
      injection hx with hx
      injection hx with hx
      subst hx
      obtain ⟨y, ⟨hsame, -⟩, hy⟩ := worksWithin_of_bare (hs u List.mem_cons_self) hw fun i cause he => by
        injection he with he
        exact hp i cause he
      cases y with
      | ok d' => cases hy
      | error q =>
        injection hy with hy
        subst hy
        have hwork := hsame pre post hpre
        simp only [State.inRow, State.step, List.cons_append, hwork, Except.map, bind, Except.bind, pure, Except.pure]

/-- **A span that folds among spent cells folds within the stretch**, unless it is inconsistent there. -/
theorem completesWithin_of_bare {s : Span} (hs : first ≤ s.first) {f : Folding}
    (hf : foldSpan positions s (List.replicate first none ++ (cells ++ [])) = f)
    (hp : ∀ i cause, f.problem ≠ some (.inconsistent i cause)) (events : List Event) (ts : List Task) :
    ∃ cells', f.cells = List.replicate first none ++ (cells' ++ []) ∧
      CompletesWithin positions first ⟨cells, events, .enter s :: ts⟩ { f with cells := cells' } ts := by
  subst hf
  have hlowest : ∀ u ∈ [Task.enter s], first ≤ u.lowest := fun u hu => by rwa [List.mem_singleton.1 hu]
  obtain ⟨rest, hreaches, hend⟩ := @completes_foldSpan positions _ events [] s
  obtain ⟨⟨cells', events', tasks⟩, hlast, hrest, hwithin⟩ :=
    @reachesWithin_of_bare positions first ⟨cells, events, [.enter s]⟩ _ hlowest hreaches
  injection hlast with hcells hevents htasks
  subst htasks
  dsimp only at hevents
  refine ⟨cells', hcells, rest ++ ts, ?_, ?_⟩
  · rw [hevents]
    exact hwithin ts
  · cases hproblem : (foldSpan positions s (List.replicate first none ++ (cells ++ []))).problem with
    | none =>
      rw [hproblem] at hend
      rw [hend]
      rfl
    | some p =>
      rw [hproblem, hcells, hevents] at hend
      rw [hevents]
      exact ends_within_of_bare hrest hend (fun i cause he => hp i cause (he ▸ hproblem)) ts

/-- There is one row and one list of events that a run comes to. -/
theorem Completes.unique {s : State} {f g : Folding} (hf : Completes positions s f [])
    (hg : Completes positions s g []) : f.cells = g.cells ∧ f.events = g.events := by
  obtain ⟨rest, hreaches, hend⟩ := hf.ends
  obtain ⟨rest', hreaches', hend'⟩ := hg.ends
  have h := last_unique hreaches hend hreaches' hend'
  injection h with hcells hevents
  exact ⟨hcells.symm, (List.append_cancel_left hevents).symm⟩

end

end Slots
end ExactCalc
