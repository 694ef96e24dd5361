import ExactCalc.Proofs.Safety
/-!
# The row that is left shows the problem

Whatever the row and the table, a folding that ends with a problem leaves a row in which the problem can still be seen
(`Folded.Certifies`): nothing is changed between the last piece of work that was done and the check that failed
(`answer_error_certified`).
-/
namespace ExactCalc

/-! ## Neighbours in a row -/

section
variable (cells : List Cell) (slot : Nat)

/-- The nearest live cell to the left of a slot is in slot `g` and holds `t`. -/
def NearestLeft (g : Nat) (t : Token) : Prop :=
  g < slot ∧ cells[g]? = some (some t) ∧ ∀ k, g < k → k < slot → cells[k]? = some none

/-- The nearest live cell to the right of a slot is in slot `d` and holds `t`. -/
def NearestRight (d : Nat) (t : Token) : Prop :=
  slot < d ∧ cells[d]? = some (some t) ∧ ∀ k, slot < k → k < d → cells[k]? = some none

def NoneLeft : Prop :=
  ∀ k < slot, cells[k]? = some none

def NoneRight : Prop :=
  ∀ k, slot < k → k < cells.length → cells[k]? = some none

end

theorem getElem?_of_replicate (pre post : List Cell) {n k : Nat} (h : pre.length ≤ k) (h' : k < pre.length + n) :
    (pre ++ (List.replicate n none ++ post))[k]? = some none := by
  rw [List.getElem?_append_right h, List.getElem?_append_left (by rw [List.length_replicate]; omega),
    List.getElem?_replicate, if_pos (by omega)]

section
variable {left left' right right' : List Cell} {t : Token}

theorem nearestLeft_of_takeNearest (h : takeNearest left = some (t, left')) (right : List Cell) :
    ∃ g, NearestLeft (left.reverse ++ right) left.length g t := by
  obtain ⟨n, far, rfl, -⟩ := takeNearest_eq_some_iff.1 h
  have hrow : (List.replicate n none ++ some t :: far).reverse ++ right =
      far.reverse ++ [some t] ++ (List.replicate n none ++ right) := by simp
  have hlen : (List.replicate n none ++ some t :: far).length = far.length + 1 + n := by
    simp only [List.length_append, List.length_replicate, List.length_cons]
    omega
  rw [hrow, hlen]
  refine ⟨far.length, by omega, by simp, fun k hk hk' => getElem?_of_replicate _ _ ?_ ?_⟩
  · simp only [List.length_append, List.length_reverse, List.length_singleton]
    omega
  · simp only [List.length_append, List.length_reverse, List.length_singleton]
    omega

theorem nearestRight_of_takeNearest (h : takeNearest right = some (t, right')) (left : List Cell) (c : Cell) :
    ∃ d, NearestRight (left.reverse ++ c :: right) left.length d t := by
  obtain ⟨n, far, rfl, -⟩ := takeNearest_eq_some_iff.1 h
  have hrow : left.reverse ++ c :: (List.replicate n none ++ some t :: far) =
      left.reverse ++ [c] ++ (List.replicate n none ++ some t :: far) := by simp
  have hlen : (left.reverse ++ [c]).length = left.length + 1 := by simp
  rw [hrow]
  refine ⟨left.length + 1 + n, by omega, ?_, fun k hk hk' => getElem?_of_replicate _ _ ?_ ?_⟩
  · rw [← hlen, List.getElem?_append_right (Nat.le_add_right _ _), Nat.add_sub_cancel_left]
    simp
  · rw [hlen]
    omega
  · rw [hlen]
    omega

theorem noneLeft_of_takeNearest (h : takeNearest left = none) (right : List Cell) :
    NoneLeft (left.reverse ++ right) left.length := by
  intro k hk
  rw [eq_replicate_of_takeNearest h, List.reverse_replicate]
  exact getElem?_of_replicate [] right (Nat.zero_le k) (by simpa using hk)

theorem noneRight_of_takeNearest (h : takeNearest right = none) (left : List Cell) (c : Cell) :
    NoneRight (left.reverse ++ c :: right) left.length := by
  intro k hk hk'
  have hright := eq_replicate_of_takeNearest h
  have hrow : left.reverse ++ c :: right = left.reverse ++ [c] ++ (List.replicate right.length none ++ []) := by
    rw [List.append_nil, ← hright, List.append_assoc, List.singleton_append]
  have hlen : (left.reverse ++ [c]).length = left.length + 1 := by simp
  rw [List.length_append, List.length_reverse, List.length_cons] at hk'
  rw [hrow]
  exact getElem?_of_replicate _ _ (by rw [hlen]; omega) (by rw [hlen]; omega)

end

/-! ## The first live cells -/

theorem liveTokens_eq_nil : ∀ {cells : List Cell} {slot : Nat}, liveTokens slot cells = [] → ∀ c ∈ cells, c = none
  | [],             _,    _ => fun _ h => (List.not_mem_nil h).elim
  | none :: cells,  slot, h => by
    have h : liveTokens (slot + 1) cells = [] := h
    exact fun c hc => (List.mem_cons.1 hc).elim id (liveTokens_eq_nil h c)
  | some _ :: cells, _,   h => by cases h

theorem liveTokens_eq_cons : ∀ {cells : List Cell} {slot k : Nat} {t : Token} {rest : List (Nat × Token)},
    liveTokens slot cells = (k, t) :: rest →
      ∃ n far, cells = List.replicate n none ++ some t :: far ∧ k = slot + n ∧ rest = liveTokens (k + 1) far
  | [],              _,    _, _, _, h => by cases h
  | none :: cells,   slot, k, t, rest, h => by
    have h : liveTokens (slot + 1) cells = (k, t) :: rest := h
    obtain ⟨n, far, rfl, rfl, hrest⟩ := liveTokens_eq_cons h
    exact ⟨n + 1, far, rfl, by omega, hrest⟩
  | some u :: cells, slot, _, _, _, h => by
    cases h
    exact ⟨0, cells, rfl, rfl, rfl⟩

/-! ## Certificates -/

/-- **What a row shows of the problem that folding ended with.**  `cells` is the row before, and the spans of the table
were folded deepest first. -/
def Folded.Certifies (positions : List Nat) (spans : SpanTable) (cells : List Cell) (f : Folded) : Problem → Prop
  | .divisionByZero i =>
    ∃ slot g a d, positionAt positions slot = i ∧ f.cells[slot]? = some (some (.op .div)) ∧
      NearestLeft f.cells slot g (.num a) ∧ NearestRight f.cells slot d (.num 0)
  | .inconsistent i .missingOperand =>
    ∃ slot op, positionAt positions slot = i ∧ f.cells[slot]? = some (some (.op op)) ∧
      (NoneLeft f.cells slot ∨ NoneRight f.cells slot)
  | .inconsistent i .operandNotNumber =>
    ∃ slot op g t d u, positionAt positions slot = i ∧ f.cells[slot]? = some (some (.op op)) ∧
      NearestLeft f.cells slot g t ∧ NearestRight f.cells slot d u ∧ ((∀ a, t ≠ .num a) ∨ ∀ b, u ≠ .num b)
  | .inconsistent i .spanOutsideRow =>
    ∃ done s rest, spans.deepestFirst = done ++ s :: rest ∧ positionAt positions s.start = i ∧
      s.fits cells.length = false ∧ foldSpans positions done cells = { cells := f.cells, events := f.events }
  | .inconsistent i .signWithoutNumber =>
    -- the `-` in `s.start` is the last thing that was spent, and `k` spent cells follow it
    ∃ done s rest row events k, spans.deepestFirst = done ++ s :: rest ∧ s.fits cells.length = true ∧
      foldSpans positions done cells = { cells := row, events := events } ∧
      f.steps = events.filterMap Event.step? ∧
      (spendParentheses s row)[s.start]? = some (some (.op .sub)) ∧
      f.cells = (spendParentheses s row).set s.start none ∧
      (∀ j < k, f.cells[s.start + 1 + j]? = some none) ∧ s.start + k ≤ s.stop ∧
      (s.start + k < s.stop → f.cells[s.start + 1 + k]? ≠ some none) ∧
      (∀ r, f.cells[s.start + 1 + k]? ≠ some (some (.num r))) ∧ positionAt positions (s.start + 1 + k) = i
  | .inconsistent i .tokensLeft =>
    ∃ slot t, positionAt positions slot = i ∧ f.cells[slot]? = some (some t) ∧ NoneLeft f.cells slot ∧
      ((∃ d u, NearestRight f.cells slot d u) ∨ ∀ r, t ≠ .num r)
  | .inconsistent i .nothingLeft => i = 0 ∧ ∀ c ∈ f.cells, c = none
  | _ => False

section
variable {positions : List Nat} {spans : SpanTable} {cells : List Cell} {f : Folded} {p : Problem}

theorem StuckOperator.certifies (h : StuckOperator positions p f.cells) : f.Certifies positions spans cells p := by
  obtain ⟨left, op, right, hrow, hf⟩ := h
  have hop : f.cells[left.length]? = some (some (.op op)) := by
    rw [hrow, ← List.length_reverse, List.getElem?_append_right (Nat.le_refl _), Nat.sub_self]
    rfl
  rcases foldOperator_eq_error hf with ⟨rfl, hl | hr⟩ | ⟨t, left', u, right', hl, hr, hcause⟩
  · exact ⟨_, op, rfl, hop, .inl (hrow ▸ noneLeft_of_takeNearest hl _)⟩
  · exact ⟨_, op, rfl, hop, .inr (hrow ▸ noneRight_of_takeNearest hr left _)⟩
  · obtain ⟨g, hg⟩ := nearestLeft_of_takeNearest hl (some (.op op) :: right)
    obtain ⟨d, hd⟩ := nearestRight_of_takeNearest hr left (some (.op op))
    rw [← hrow] at hg hd
    rcases hcause with ⟨rfl, hnum⟩ | ⟨rfl, rfl, ⟨a, rfl⟩, rfl⟩
    · exact ⟨_, op, g, t, d, u, rfl, hop, hg, hd, hnum⟩
    · exact ⟨_, g, a, d, rfl, hop, hg, hd⟩

theorem certifies_of_soleNumber (h : soleNumber positions f.cells = .error p) :
    f.Certifies positions spans cells p := by
  unfold soleNumber at h
  split at h
  · rename_i hlive
    cases h
    exact ⟨rfl, liveTokens_eq_nil hlive⟩
  · cases h
  · rename_i slot t rest hnum hlive
    cases h
    obtain ⟨n, far, hrow, hslot, hrest⟩ := liveTokens_eq_cons hlive
    rw [Nat.zero_add] at hslot
    subst hslot
    refine ⟨slot, t, rfl, ?_, fun k hk => ?_, ?_⟩
    · rw [hrow]
      simp
    · rw [hrow]
      exact getElem?_of_replicate [] _ (Nat.zero_le k) (by simpa using hk)
    · cases rest with
      | nil => exact .inr fun r ht => hnum r rfl ht
      | cons other rest =>
        obtain ⟨m, far', hfar, -, -⟩ := liveTokens_eq_cons hrest.symm
        obtain ⟨d, hd⟩ := nearestRight_of_takeNearest (takeNearest_eq_some_iff.2 ⟨m, far', hfar, rfl⟩)
          (List.replicate slot none) (some t)
        rw [List.reverse_replicate, List.length_replicate, ← hrow] at hd
        exact .inl ⟨d, _, hd⟩

/-- A row whose folding stopped in a span. -/
theorem certifies_of_foldSpans {f : Folded} (hf : foldTable positions spans cells = f)
    (h : (foldSpans positions spans.deepestFirst cells).problem = some p) : f.Certifies positions spans cells p := by
  obtain ⟨done, s, rest, row, events, hspans, hdone, hp, hcells, hevents⟩ := foldSpans_stops h
  have hrow : row.length = cells.length := by
    have hlen := length_foldSpans positions done cells
    rwa [hdone] at hlen
  have hfcells : f.cells = (foldSpan positions s row).cells := by
    rw [← hf, ← hcells]
    rfl
  have hfevents : f.events = events ++ (foldSpan positions s row).events := by
    rw [← hf, ← hevents]
    rfl
  rcases foldSpan_stops hp with ⟨hfits, rfl, hspan⟩ | ⟨hfits, hstuck | ⟨g, hsign, hg, hsteps⟩⟩
  · rw [hspan] at hfcells hfevents
    refine ⟨done, s, rest, hspans, rfl, hrow ▸ hfits, ?_⟩
    rw [hdone, hfcells, hfevents, List.append_nil]
  · rw [← hfcells] at hstuck
    exact hstuck.certifies
  · obtain ⟨before, after, k, hbefore, hstart, hk, rfl, rfl⟩ := hsign
    obtain ⟨hle, hspent, hlive, hnum⟩ := negateFirst_eq_error hk
    have hleft : f.cells = before ++ none :: after := hfcells.trans hg
    have hget (j : Nat) : f.cells[s.start + 1 + j]? = after[j]? := by
      rw [hleft, ← hstart, List.getElem?_append_right (by omega), show before.length + 1 + j - before.length = j + 1 by
        omega]
      rfl
    obtain ⟨hbounds, -⟩ := Span.bounds_of_fits hfits
    refine ⟨done, s, rest, row, events, k, hspans, hrow ▸ hfits, hdone, ?_, ?_, ?_, fun j hj => ?_, by omega,
      fun hlt => ?_, fun r => ?_, rfl⟩
    · rw [Folded.steps, hfevents, List.filterMap_append, hsteps, List.append_nil]
    · rw [hbefore, ← hstart, List.getElem?_append_right (Nat.le_refl _), Nat.sub_self]
      rfl
    · rw [hleft, hbefore, ← hstart]
      simp
    · rw [hget]
      exact hspent j hj
    · rw [hget]
      exact hlive (by omega)
    · rw [hget]
      exact hnum r

end

/-- **A folding that ends with a problem leaves a row that shows it**, whatever the row, the positions, the table and the
trace before.  The check that failed has changed nothing: the row and the events, and so the trace, are those of the
last state that the machine came to before it. -/
theorem answer_error_certified {positions : List Nat} {spans : SpanTable} {cells : List Cell} {p : Problem}
    (h : (foldTable positions spans cells).answer = .error p) (before : String) :
    let f := foldTable positions spans cells
    f.Certifies positions spans cells p ∧
      ∃ last, Slots.Reaches positions (.start spans cells) last ∧ last.step positions = .ok (.ends (.error p)) ∧
        last.cells = f.cells ∧ last.events = f.events ∧
        f.trace before = extendTrace before ((last.events.filterMap Event.step?).map Step.text) := by
  intro f
  obtain ⟨tasks, hlast, hend⟩ := Slots.exists_reaches_ends positions spans cells
  refine ⟨?_, _, hlast, h ▸ hend, rfl, rfl, rfl⟩
  rcases foldTable_error_cases h with hp | ⟨-, hp⟩
  · exact certifies_of_foldSpans rfl hp
  · exact certifies_of_soleNumber hp

theorem answer_error_certified_short_positions :
    let cells : List Cell := [.num 2, .op .mul, .num 3, .op .add, .num 4, .op .div, .opening, .num 1, .op .sub, .num 1,
      .closing].map some
    let spans := SpanTable.ofList [⟨1, 7, 9⟩, ⟨0, 0, 10⟩]
    let f := foldTable [20, 21, 22] spans cells
    f.answer = .error (.divisionByZero 0) ∧ f.Certifies [20, 21, 22] spans cells (.divisionByZero 0) ∧
      ∃ last, Slots.Reaches [20, 21, 22] (.start spans cells) last ∧
        last.step [20, 21, 22] = .ok (.ends (.error (.divisionByZero 0))) ∧
        last.cells = f.cells ∧ last.events = f.events ∧
        f.trace "1 - 1 = 0" = extendTrace "1 - 1 = 0" ((last.events.filterMap Event.step?).map Step.text) := by
  intro cells spans f
  have h : f.answer = .error (.divisionByZero 0) := by
    cbv
  exact ⟨h, answer_error_certified h "1 - 1 = 0"⟩

end ExactCalc
