import ExactCalc.Fold.Row
import ExactCalc.Proofs.Chain
import ExactCalc.Proofs.Layout
/-!
# Folding a flat row

A row that holds a chain, with spent cells anywhere between its tokens, folds as the chain does: the same operations in
the same order, the same division by zero, and at the end the value of the chain in a single live cell
(`passes_chain`).  Nothing outside the row is read or changed, whatever stands there.
-/
namespace ExactCalc

/-- Cells of which one is live, and holds a number. -/
def HoldsNumber (v : Rat) (cells : List Cell) : Prop :=
  ∃ k m, cells = List.replicate k none ++ some (.num v) :: List.replicate m none

/-- Cells that hold links; the first cell is in `slot`.  The position of a `/` is the one that its slot stands for. -/
inductive HoldsLinks (positions : List Nat) : Nat → List Link → List Cell → Prop
  | spent (slot n : Nat) : HoldsLinks positions slot [] (List.replicate n none)
  | link {slot k m : Nat} {l : Link} {ls : List Link} {cells : List Cell} :
      (l.op = .div → positionAt positions (slot + k) = l.pos) → HoldsLinks positions (slot + k + 1 + m + 1) ls cells →
      HoldsLinks positions slot (l :: ls) (List.replicate k none ++ some (.op l.op) ::
        (List.replicate m none ++ some (.num l.operand) :: cells))

def HoldsChain (positions : List Nat) (slot : Nat) (c : Chain) (cells : List Cell) : Prop :=
  ∃ k rest, cells = List.replicate k none ++ some (.num c.first) :: rest ∧
    HoldsLinks positions (slot + k + 1) c.links rest

section
variable {positions : List Nat}

theorem replicate_append {α : Type} (k n : Nat) (x : α) (xs : List α) :
    List.replicate k x ++ (List.replicate n x ++ xs) = List.replicate (k + n) x ++ xs := by
  rw [← List.append_assoc, List.replicate_append_replicate]

theorem HoldsLinks.of_spent {ls : List Link} {cells : List Cell} {slot n : Nat}
    (h : HoldsLinks positions (slot + n) ls cells) : HoldsLinks positions slot ls (List.replicate n none ++ cells) := by
  cases h with
  | spent _ m =>
    rw [List.replicate_append_replicate]
    exact .spent slot (n + m)
  | @link _ k m l ls cells hp h =>
    rw [replicate_append]
    refine .link (fun ho => ?_) ?_
    · rw [← hp ho, Nat.add_assoc]
    · rwa [← Nat.add_assoc slot n k]

theorem HoldsLinks.cons {ls : List Link} {a b : List Cell} {slot : Nat} {op : Op} {pos : Nat} {v : Rat}
    (hp : op = .div → positionAt positions slot = pos) (ha : HoldsNumber v a)
    (hb : HoldsLinks positions (slot + 1 + a.length) ls b) :
    HoldsLinks positions slot (⟨op, pos, v⟩ :: ls) (some (.op op) :: (a ++ b)) := by
  obtain ⟨k, m, rfl⟩ := ha
  have hs : slot + 1 + (List.replicate k none ++ some (Token.num v) :: List.replicate m none).length =
      slot + 0 + 1 + k + 1 + m := by
    simp only [List.length_append, List.length_replicate, List.length_cons]
    omega
  rw [hs] at hb
  have h : HoldsLinks positions slot (⟨op, pos, v⟩ :: ls) (List.replicate 0 none ++ some (.op op) ::
      (List.replicate k none ++ some (.num v) :: (List.replicate m none ++ b))) := .link hp hb.of_spent
  simpa using h

theorem HoldsChain.of_spent {c : Chain} {cells : List Cell} {slot n : Nat}
    (h : HoldsChain positions (slot + n) c cells) : HoldsChain positions slot c (List.replicate n none ++ cells) := by
  obtain ⟨k, rest, rfl, h⟩ := h
  refine ⟨n + k, rest, replicate_append n k _ _, ?_⟩
  rwa [← Nat.add_assoc slot n k]

theorem HoldsChain.holdsNumber {a : Rat} {cells : List Cell} {slot : Nat}
    (h : HoldsChain positions slot ⟨a, []⟩ cells) : HoldsNumber a cells := by
  obtain ⟨k, rest, rfl, h⟩ := h
  cases h with
  | spent _ m => exact ⟨k, m, rfl⟩

theorem HoldsChain.link {slot k j : Nat} {op : Op} {pos : Nat} {a : Rat} {c : Chain} {cells : List Cell}
    (hp : op = .div → positionAt positions (slot + 1 + k) = pos)
    (h : HoldsChain positions (slot + 1 + k + 1 + j) c cells) :
    HoldsChain positions slot ⟨a, ⟨op, pos, c.first⟩ :: c.links⟩
      (some (.num a) :: (List.replicate k none ++ some (.op op) :: (List.replicate j none ++ cells))) := by
  obtain ⟨i, rest, rfl, h⟩ := h
  rw [replicate_append]
  refine ⟨0, _, rfl, .link hp ?_⟩
  rwa [Nat.add_assoc _ j i] at h

/-! ## One sweep -/

variable (m : Bool)

theorem sweep_append : ∀ (u : List Cell) (n : Nat) (left right : List Cell), (∀ c ∈ u, operatorOf m c = none) →
    sweep positions m (u.length + n) left (u ++ right) = sweep positions m n (u.reverse ++ left) right
  | [],     n, left, right, _ => by simp
  | c :: u, n, left, right, h => by
    rw [List.length_cons, Nat.add_right_comm, List.cons_append, sweep, h c List.mem_cons_self]
    rw [sweep_append u n (c :: left) right fun d hd => h d (List.mem_cons_of_mem _ hd)]
    simp

theorem takeNearest_replicate (k : Nat) (t : Token) (far : List Cell) :
    takeNearest (List.replicate k none ++ some t :: far) = some (t, List.replicate (k + 1) none ++ far) := by
  rw [takeNearest_eq_some_iff]
  refine ⟨k, far, rfl, ?_⟩
  rw [List.replicate_succ', List.append_assoc, List.singleton_append]

theorem sweep_operator {op : Op} (ho : op.isMultiplicative = m) (n j k : Nat) (a b : Rat) (rest right : List Cell) :
    sweep positions m (n + 1) (List.replicate j none ++ some (.num a) :: rest)
        (some (.op op) :: (List.replicate k none ++ some (.num b) :: right)) =
      match op.apply a b with
      | some r =>
        let f := sweep positions m n (some (Token.num r) :: (List.replicate (j + 1) none ++ rest))
          (List.replicate (k + 1) none ++ right)
        { f with events := .folded ⟨a, op, b, r⟩ :: f.events }
      | none =>
        { cells := (List.replicate j none ++ some (Token.num a) :: rest).reverse ++ some (.op op) ::
            (List.replicate k none ++ some (.num b) :: right)
          problem := some (.divisionByZero (positionAt positions (j + (rest.length + 1)))) } := by
  rw [sweep]
  simp only [operatorOf, ho, ↓reduceIte, foldOperator, takeNearest_replicate, List.length_append, List.length_replicate,
    List.length_cons]
  cases op.apply a b <;> rfl

def Chain.Passed.folding (p : Chain.Passed) (cells : List Cell) : Folding where
  cells   := cells
  events  := p.steps.map .folded
  problem := p.zero.map .divisionByZero

/-- A sweep of `n` cells has done a pass over a chain whose first number and the `gap` spent cells after it lie to the
left: `rest` stands before that number, nearest first, and `post` after the cells.  The cells before the first link are
left without an operator. -/
def Swept (positions : List Nat) (p : Chain.Passed) (gap n : Nat) (rest post : List Cell) (f : Folding) : Prop :=
  ∃ u v, u.length = gap + 1 ∧ v.length = n ∧ (∀ c ∈ u, ∀ m, operatorOf m c = none) ∧
    f = p.folding (rest.reverse ++ (u ++ v) ++ post) ∧
    (p.zero = none → HoldsChain positions rest.length p.chain (u ++ v))

section
variable {m}

theorem operatorOf_of_mem_replicate {k : Nat} {c : Cell} (hc : c ∈ List.replicate k none) (m : Bool) :
    operatorOf m c = none := by
  rw [List.eq_of_mem_replicate hc]
  rfl

theorem operatorOf_of_mem_number {k : Nat} {a : Rat} {c : Cell} (hc : c ∈ some (Token.num a) :: List.replicate k none)
    (m : Bool) : operatorOf m c = none := by
  rcases List.mem_cons.1 hc with rfl | hc
  · rfl
  · exact operatorOf_of_mem_replicate hc m

theorem operatorOf_of_mem_replicate_number {k : Nat} {a : Rat} {c : Cell}
    (hc : c ∈ List.replicate k none ++ [some (Token.num a)]) (m : Bool) : operatorOf m c = none := by
  rcases List.mem_append.1 hc with hc | hc
  · exact operatorOf_of_mem_replicate hc m
  · rw [List.mem_singleton.1 hc]
    rfl

theorem sweep_gap (m : Bool) (k n gap : Nat) (left right : List Cell) :
    sweep positions m (k + n) (List.replicate gap none ++ left) (List.replicate k none ++ right) =
      sweep positions m n (List.replicate (k + gap) none ++ left) right := by
  have h := @sweep_append positions m (List.replicate k none) n (List.replicate gap none ++ left) right
    fun c hc => operatorOf_of_mem_replicate hc m
  rw [List.length_replicate, List.reverse_replicate, replicate_append] at h
  exact h

/-- An operator of the other kind is passed over, with its operand. -/
theorem sweep_other {l : Link} (ho : ¬l.op.isMultiplicative = m) (j n : Nat) (left right : List Cell) :
    sweep positions m (j + 1 + n + 1) left
        (some (.op l.op) :: (List.replicate j none ++ some (.num l.operand) :: right)) =
      sweep positions m n (some (.num l.operand) :: (List.replicate j none ++ some (.op l.op) :: left)) right := by
  have hu : ∀ c ∈ some (Token.op l.op) :: (List.replicate j none ++ [some (Token.num l.operand)]),
      operatorOf m c = none := by
    intro c hc
    rcases List.mem_cons.1 hc with rfl | hc
    · exact if_neg ho
    · exact operatorOf_of_mem_replicate_number hc m
  have hlen : (some (Token.op l.op) :: (List.replicate j none ++ [some (Token.num l.operand)])).length + n =
      j + 1 + n + 1 := by
    simp only [List.length_append, List.length_replicate, List.length_cons, List.length_nil]
    omega
  have h := @sweep_append positions m _ n left right hu
  rw [hlen] at h
  simpa only [List.cons_append, List.append_assoc, List.nil_append, List.reverse_cons, List.reverse_append,
    List.reverse_replicate, List.reverse_nil] using h

theorem swept_spent (m : Bool) (a : Rat) (gap n : Nat) (rest post : List Cell) :
    Swept positions (Chain.pass m a []) gap n rest post
      (sweep positions m n (List.replicate gap none ++ some (.num a) :: rest) (List.replicate n none ++ post)) := by
  refine ⟨some (.num a) :: List.replicate gap none, List.replicate n none, by simp, by simp, ?_, ?_, ?_⟩
  · exact fun c hc => operatorOf_of_mem_number hc
  · have h := @sweep_gap positions m n 0 gap (some (.num a) :: rest) post
    rw [Nat.add_zero] at h
    rw [h, sweep]
    simp [Chain.Passed.folding, Chain.pass, Nat.add_comm n gap]
  · intro _
    refine ⟨0, List.replicate (gap + n) none, ?_, .spent _ _⟩
    simp [Chain.pass]

theorem swept_stop {l : Link} (ho : l.op.isMultiplicative = m) {a : Rat} (hr : l.op.apply a l.operand = none)
    (ls : List Link) (n gap j : Nat) (rest right : List Cell)
    (hp : positionAt positions (gap + (rest.length + 1)) = l.pos) :
    sweep positions m (n + 1) (List.replicate gap none ++ some (.num a) :: rest)
        (some (.op l.op) :: (List.replicate j none ++ some (.num l.operand) :: right)) =
      (Chain.pass m a (l :: ls)).folding (rest.reverse ++ some (.num a) :: (List.replicate gap none ++
        some (.op l.op) :: (List.replicate j none ++ some (.num l.operand) :: right))) := by
  rw [sweep_operator m ho, hr]
  simp [Chain.Passed.folding, Chain.pass, ho, hr, hp]

/-- A fold moves the number into the slot of the operator. -/
theorem Swept.fold {l : Link} (ho : l.op.isMultiplicative = m) {a r : Rat} (hr : l.op.apply a l.operand = some r)
    {ls : List Link} {gap k j n : Nat} {rest post : List Cell} {f : Folding}
    (h : Swept positions (Chain.pass m r ls) 0 (j + 1 + n) (List.replicate (k + gap + 1) none ++ rest) post f) :
    Swept positions (Chain.pass m a (l :: ls)) gap (k + 1 + (j + 1 + n)) rest post
      { f with events := .folded ⟨a, l.op, l.operand, r⟩ :: f.events } := by
  obtain ⟨u, v, hu, hv, -, rfl, hch⟩ := h
  refine ⟨List.replicate (gap + 1) none, List.replicate k none ++ (u ++ v), by simp, ?_, ?_, ?_, ?_⟩
  · simp only [List.length_append, List.length_replicate, hu, hv]
    omega
  · exact fun c hc => operatorOf_of_mem_replicate hc
  · have hc : (List.replicate (k + gap + 1) (none : Cell) ++ rest).reverse ++ (u ++ v) ++ post =
        rest.reverse ++ (List.replicate (gap + 1) none ++ (List.replicate k none ++ (u ++ v))) ++ post := by
      rw [replicate_append, show gap + 1 + k = k + gap + 1 by omega]
      simp
    rw [hc]
    simp [Chain.Passed.folding, Chain.pass, if_pos ho, hr]
  · simp only [Chain.pass, if_pos ho, hr]
    intro hz
    have hl : (List.replicate (k + gap + 1) (none : Cell) ++ rest).length = rest.length + (gap + 1 + k) := by
      simp only [List.length_append, List.length_replicate]
      omega
    rw [hl] at hch
    rw [replicate_append]
    exact (hch hz).of_spent

/-- An operator of the other kind stays, and its operand is the number to the left from there on. -/
theorem Swept.skip {l : Link} (ho : ¬l.op.isMultiplicative = m) {a : Rat} {ls : List Link} {gap k j n : Nat}
    {rest post : List Cell} (hp : l.op = .div → positionAt positions (rest.length + 1 + (k + gap)) = l.pos)
    {f : Folding} (h : Swept positions (Chain.pass m l.operand ls) 0 n
      (List.replicate j none ++ some (.op l.op) :: (List.replicate (k + gap) none ++ some (.num a) :: rest)) post f) :
    Swept positions (Chain.pass m a (l :: ls)) gap (k + 1 + (j + 1 + n)) rest post f := by
  obtain ⟨u, v, hu, hv, -, rfl, hch⟩ := h
  refine ⟨some (.num a) :: List.replicate gap none,
    List.replicate k none ++ some (.op l.op) :: (List.replicate j none ++ (u ++ v)), by simp, ?_, ?_, ?_, ?_⟩
  · simp only [List.length_append, List.length_replicate, List.length_cons, hu, hv]
    omega
  · exact fun c hc => operatorOf_of_mem_number hc
  · simp [Chain.Passed.folding, Chain.pass, ho, Nat.add_comm k gap, replicate_append]
  · simp only [Chain.pass, if_neg ho]
    intro hz
    have hl : (List.replicate j (none : Cell) ++ some (Token.op l.op) ::
        (List.replicate (k + gap) none ++ some (.num a) :: rest)).length = rest.length + 1 + (k + gap) + 1 + j := by
      simp only [List.length_append, List.length_replicate, List.length_cons]
      omega
    rw [hl] at hch
    rw [List.cons_append, replicate_append, Nat.add_comm gap k]
    exact (hch hz).link hp

theorem sweep_links (m : Bool) : ∀ {ls : List Link} {slot : Nat} {cells : List Cell},
    HoldsLinks positions slot ls cells → ∀ (gap : Nat) (a : Rat) (rest post : List Cell),
    slot = rest.length + 1 + gap → Swept positions (Chain.pass m a ls) gap cells.length rest post
      (sweep positions m cells.length (List.replicate gap none ++ some (.num a) :: rest) (cells ++ post))
  | _, _, _, .spent slot n, gap, a, rest, post, _ => by
    rw [List.length_replicate]
    exact swept_spent m a gap n rest post
  | _, _, _, @HoldsLinks.link _ slot k j l ls cells hp h, gap, a, rest, post, hs => by
    have hlen : (List.replicate k none ++ some (Token.op l.op) ::
        (List.replicate j none ++ some (Token.num l.operand) :: cells)).length = k + 1 + (j + 1 + cells.length) := by
      simp only [List.length_append, List.length_replicate, List.length_cons]
      omega
    -- the spent cells before the operator widen the gap
    have hk := @sweep_gap positions m k (1 + (j + 1 + cells.length)) gap (some (.num a) :: rest)
      (some (.op l.op) :: (List.replicate j none ++ some (.num l.operand) :: (cells ++ post)))
    rw [← Nat.add_assoc k, Nat.add_comm 1] at hk
    rw [hlen]
    simp only [List.append_assoc, List.cons_append, hk]
    by_cases ho : l.op.isMultiplicative = m
    · cases hr : l.op.apply a l.operand with
      | none =>
        have hz := Op.apply_eq_none_iff.1 hr
        have hpos : positionAt positions (k + gap + (rest.length + 1)) = l.pos := by
          rw [← hp hz.1]
          congr 1
          omega
        refine ⟨some (.num a) :: List.replicate gap none, List.replicate k none ++ some (.op l.op) ::
          (List.replicate j none ++ some (.num l.operand) :: cells), by simp, hlen, ?_, ?_, ?_⟩
        · exact fun c hc => operatorOf_of_mem_number hc
        · rw [swept_stop ho hr ls _ _ _ _ _ hpos]
          simp [Nat.add_comm k gap, replicate_append]
        · simp [Chain.pass, ho, hr]
      | some r =>
        have ih := sweep_links m (h.of_spent (n := j + 1)) 0 r (List.replicate (k + gap + 1) none ++ rest) post
          (by simp; omega)
        rw [List.replicate_zero, List.nil_append, List.append_assoc, List.length_append, List.length_replicate] at ih
        rw [sweep_operator m ho, hr]
        exact ih.fold ho hr
    · have ih := sweep_links m h 0 l.operand
        (List.replicate j none ++ some (.op l.op) :: (List.replicate (k + gap) none ++ some (.num a) :: rest)) post
        (by simp; omega)
      rw [List.replicate_zero, List.nil_append] at ih
      rw [sweep_other ho]
      refine ih.skip ho fun h => ?_
      rw [← hp h]
      congr 1
      omega

/-! ## The passes over a chain -/

/-- A pass may start later, where it skips no operator. -/
theorem pass_skip {n stop : Nat} {pre u : List Cell} (right : List Cell) (hu : ∀ c ∈ u, operatorOf m c = none)
    (hn : n ≤ u.length) (hs : pre.length + n ≤ stop + 1) :
    pass positions m (pre.length + n) stop (pre ++ (u ++ right)) =
      pass positions m pre.length stop (pre ++ (u ++ right)) := by
  have hl : (u.take n).length = n := List.length_take_of_le hn
  have hrow : pre ++ (u ++ right) = pre ++ u.take n ++ (u.drop n ++ right) := by
    rw [List.append_assoc, ← List.append_assoc (u.take n), List.take_append_drop]
  have h := @sweep_append positions m (u.take n) (stop + 1 - (pre.length + n)) pre.reverse (u.drop n ++ right)
    fun c hc => hu c (List.mem_of_mem_take hc)
  rw [hl, show n + (stop + 1 - (pre.length + n)) = stop + 1 - pre.length by omega] at h
  have hlen : (pre ++ u.take n).length = pre.length + n := by rw [List.length_append, hl]
  rw [hrow, pass, pass, ← hlen, List.take_left, List.drop_left, hlen, List.append_assoc, List.take_left, List.drop_left,
    h, List.reverse_append]

theorem pass_chain {k stop : Nat} {c : Chain} {rest : List Cell} (pre post : List Cell)
    (h : HoldsLinks positions (pre.length + k + 1) c.links rest) (hs : stop = pre.length + k + rest.length) :
    ∃ u v, u.length = k + 1 ∧ v.length = rest.length ∧ (∀ c ∈ u, ∀ m', operatorOf m' c = none) ∧
      pass positions m pre.length stop (pre ++ (List.replicate k none ++ some (.num c.first) :: rest ++ post)) =
        (Chain.pass m c.first c.links).folding (pre ++ (u ++ v ++ post)) ∧
      ((Chain.pass m c.first c.links).zero = none →
        HoldsChain positions pre.length (Chain.pass m c.first c.links).chain (u ++ v)) := by
  obtain ⟨u, v, hu, hv, hn, hf, hch⟩ :=
    sweep_links m h 0 c.first (List.replicate k none ++ pre.reverse) post (by simp; omega)
  refine ⟨List.replicate k none ++ u, v, by simp [hu], hv, ?_, ?_, ?_⟩
  · intro d hd m'
    rcases List.mem_append.1 hd with hd | hd
    · exact operatorOf_of_mem_replicate hd m'
    · exact hn d hd m'
  · have hsk := @sweep_append positions m (List.replicate k none ++ [some (.num c.first)]) rest.length pre.reverse
      (rest ++ post) fun d hd => operatorOf_of_mem_replicate_number hd m
    have hlen : (List.replicate k none ++ [some (Token.num c.first)]).length + rest.length =
        stop + 1 - pre.length := by
      simp only [List.length_append, List.length_replicate, List.length_singleton]
      omega
    rw [hlen] at hsk
    simp only [List.append_assoc, List.singleton_append, List.reverse_append, List.reverse_replicate,
      List.reverse_singleton] at hsk
    rw [List.replicate_zero, List.nil_append] at hf
    simp only [pass, List.drop_left, List.take_left, List.append_assoc, List.cons_append, hsk, hf]
    simp
  · intro hz
    have hl : (List.replicate k (none : Cell) ++ pre.reverse).length = pre.length + k := by
      simp only [List.length_append, List.length_replicate, List.length_reverse]
      omega
    rw [hl] at hch
    rw [List.append_assoc]
    exact (hch hz).of_spent

end

end

def Chain.folding (c : Chain) (cells : List Cell) : Folding where
  cells   := cells
  events  := c.steps.map .folded
  problem := c.zeroDivision?.map .divisionByZero

/-- The second pass leaves a single number. -/
theorem pass_sums {positions : List Nat} {n stop : Nat} {c : Chain} {u v : List Cell} (pre post : List Cell)
    (hc : ∀ l ∈ c.links, l.op.isMultiplicative = false) (h : HoldsChain positions pre.length c (u ++ v))
    (hu : ∀ d ∈ u, operatorOf false d = none) (hn : n ≤ u.length) (hs : stop + 1 = pre.length + (u ++ v).length) :
    ∃ cells, cells.length = (u ++ v).length ∧ HoldsNumber (Chain.total c.first c.links) cells ∧
      pass positions false (pre.length + n) stop (pre ++ (u ++ v ++ post)) =
        { cells := pre ++ (cells ++ post), events := (Chain.accumulate c.first c.links).map .folded } := by
  obtain ⟨k, rest, huv, h⟩ := h
  have hlen := congrArg List.length huv
  simp only [List.length_append, List.length_replicate, List.length_cons] at hlen hs
  have hs' : stop = pre.length + k + rest.length := by omega
  obtain ⟨u', v', hu', hv', -, hp, hch⟩ := pass_chain (m := false) pre post h hs'
  rw [Chain.pass_false c.first c.links hc] at hp hch
  refine ⟨u' ++ v', ?_, (hch rfl).holdsNumber, ?_⟩
  · rw [List.length_append, List.length_append, hu', hv']
    omega
  · rw [List.append_assoc u, pass_skip (v ++ post) hu hn (by omega), ← List.append_assoc u, huv, hp]
    rfl

/-- **The two passes over a row do what its chain does**, from any start up to the first link; nothing else changes. -/
theorem passes_chain {positions : List Nat} {k n stop : Nat} {c : Chain} {rest : List Cell} (pre post : List Cell)
    (h : HoldsLinks positions (pre.length + k + 1) c.links rest) (hn : n ≤ k + 1)
    (hs : stop = pre.length + k + rest.length) :
    ∃ cells, cells.length = k + 1 + rest.length ∧
      passes positions (pre.length + n) stop
        (pre ++ (List.replicate k none ++ some (.num c.first) :: rest ++ post)) = c.folding (pre ++ (cells ++ post)) ∧
      ∀ v, c.value = some v → HoldsNumber v cells := by
  have hrow : List.replicate k none ++ some (Token.num c.first) :: rest ++ post =
      List.replicate k none ++ [some (.num c.first)] ++ (rest ++ post) := by simp
  obtain ⟨hst, hz, hch⟩ := Chain.pass_true c.first c.links
  obtain ⟨u, v, hu, hv, hno, hp, hc⟩ := pass_chain (m := true) pre post h hs
  have hfirst : pass positions true (pre.length + n) stop
      (pre ++ (List.replicate k none ++ some (Token.num c.first) :: rest ++ post)) =
        (Chain.pass true c.first c.links).folding (pre ++ (u ++ v ++ post)) := by
    rw [← hp, hrow, pass_skip (rest ++ post) (fun d hd => operatorOf_of_mem_replicate_number hd true)
      (by simpa using hn) (by omega)]
  rw [passes, hfirst]
  cases hzero : c.zeroDivision? with
  | some i =>
    have hz : (Chain.pass true c.first c.links).zero = some i := hz.trans hzero
    refine ⟨u ++ v, by rw [List.length_append, hu, hv], ?_, fun w hw => ?_⟩
    · simp [Folding.andThen, Chain.Passed.folding, Chain.folding, Chain.steps, hz, hst, hzero]
    · rw [Chain.value, hzero] at hw
      cases hw
  | none =>
    have hz : (Chain.pass true c.first c.links).zero = none := hz.trans hzero
    have hholds := hc hz
    rw [hch hz] at hholds
    have hstop : stop + 1 = pre.length + (u ++ v).length := by
      rw [List.length_append, hu, hv]
      omega
    obtain ⟨cells, hlen, hnum, hp₂⟩ := pass_sums pre post (Chain.additive_products c.first c.links) hholds
      (fun d hd => hno d hd false) (hu ▸ hn) hstop
    refine ⟨cells, by rw [hlen, List.length_append, hu, hv], ?_, fun w hw => ?_⟩
    · simp only [Folding.andThen, Chain.Passed.folding, hz, Option.map_none, hp₂, Chain.folding, Chain.steps, hst,
        hzero, Option.isSome_none, Bool.false_eq_true, ↓reduceIte, List.map_append]
    · rw [Chain.value, hzero] at hw
      cases hw
      exact hnum

/-! ## The leading sign -/

def Sign.cells : Option Sign → List Cell
  | none   => []
  | some s => [some (.op s.op)]

theorem negateFirst_replicate : ∀ {k n : Nat}, k ≤ n → ∀ (a : Rat) (rest : List Cell),
    negateFirst n (List.replicate k none ++ some (.num a) :: rest) =
      .ok (k + 1, List.replicate k none ++ some (.num (-a)) :: rest)
  | 0,     n,     _, a, rest => by
    cases n <;> simp [negateFirst]
  | k + 1, n + 1, h, a, rest => by
    rw [List.replicate_succ, List.cons_append, negateFirst, negateFirst_replicate (Nat.le_of_succ_le_succ h)]
    rfl

/-- A leading sign is spent, and a `-` negates the number after it, before the passes start. -/
theorem foldSigned_sign (positions : List Nat) {k stop : Nat} (sign : Option Sign) (a : Rat) (pre right : List Cell)
    (hs : pre.length + (Sign.cells sign).length + k ≤ stop) :
    ∃ n ≤ (Sign.cells sign).length + k + 1, foldSigned positions pre.length stop
        (pre ++ (Sign.cells sign ++ (List.replicate k none ++ some (.num a) :: right))) =
      passes positions (pre.length + n) stop (pre ++ (List.replicate ((Sign.cells sign).length + k) none ++
        some (.num (Sign.number sign a)) :: right)) := by
  match sign with
  | none =>
    refine ⟨0, Nat.zero_le _, ?_⟩
    unfold foldSigned
    rw [List.take_left, List.drop_left]
    cases k <;> simp [Sign.cells, Sign.number, List.replicate_succ]
  | some ⟨false, i⟩ =>
    refine ⟨1, by simp, ?_⟩
    unfold foldSigned
    rw [List.take_left, List.drop_left]
    simp [Sign.cells, Sign.number, Sign.op, Nat.add_comm 1 k, List.replicate_succ]
  | some ⟨true, i⟩ =>
    simp only [Sign.cells, List.length_singleton] at hs ⊢
    refine ⟨k + 2, by omega, ?_⟩
    unfold foldSigned
    rw [List.take_left, List.drop_left]
    simp only [Sign.op, ↓reduceIte, List.singleton_append,
      negateFirst_replicate (show k ≤ stop - pre.length by omega)]
    simp [Sign.number, Nat.add_comm 1 k, List.replicate_succ, Nat.add_comm 1 (k + 1), Nat.add_assoc]

/-- **The fold of a group in which every operand has come to a number**: what its chain does, and nothing outside it
changes. -/
theorem foldSigned_chain {positions : List Nat} {stop : Nat} {sign : Option Sign} {a : Rat} {links : List Link}
    {first rest : List Cell} (pre post : List Cell) (hf : HoldsNumber a first)
    (hr : HoldsLinks positions (pre.length + (Sign.cells sign).length + first.length) links rest)
    (hs : stop + 1 = pre.length + (Sign.cells sign ++ first ++ rest).length) :
    ∃ cells, cells.length = (Sign.cells sign ++ first ++ rest).length ∧
      foldSigned positions pre.length stop (pre ++ (Sign.cells sign ++ first ++ rest ++ post)) =
        (Chain.mk (Sign.number sign a) links).folding (pre ++ (cells ++ post)) ∧
      ∀ v, (Chain.mk (Sign.number sign a) links).value = some v → HoldsNumber v cells := by
  obtain ⟨k, m, rfl⟩ := hf
  simp only [List.length_append, List.length_replicate, List.length_cons] at hr hs ⊢
  have hk : pre.length + (Sign.cells sign).length + k ≤ stop := by omega
  obtain ⟨n, hn, hsign⟩ := foldSigned_sign positions sign a pre (List.replicate m none ++ rest ++ post) hk
  have hl : HoldsLinks positions (pre.length + ((Sign.cells sign).length + k) + 1) links
      (List.replicate m none ++ rest) := by
    apply HoldsLinks.of_spent
    rwa [show pre.length + ((Sign.cells sign).length + k) + 1 + m =
      pre.length + (Sign.cells sign).length + (k + (m + 1)) by omega]
  have hstop : stop = pre.length + ((Sign.cells sign).length + k) + (List.replicate m none ++ rest).length := by
    rw [List.length_append, List.length_replicate]
    omega
  obtain ⟨cells, hlen, hp, hv⟩ := passes_chain (c := ⟨Sign.number sign a, links⟩) pre post hl hn hstop
  refine ⟨cells, ?_, ?_, hv⟩
  · rw [hlen, List.length_append, List.length_replicate]
    omega
  · simp only [List.append_assoc, List.cons_append] at hsign hp ⊢
    rw [hsign, hp]

end ExactCalc
