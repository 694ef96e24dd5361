import ExactCalc.Proofs.Layout
import ExactCalc.Proofs.Table
/-!
# The blocks of an expression

Where the blocks of an expression lie: each strictly inside the group around it (`Expr.inside_of_mem_inner`), no two
with one span (`Expr.nodup_blocks`), and the blocks of a block among those of the whole (`Expr.nested_blocks`).  So the
table of an expression is folded in an order that takes the groups inside a group before it (`Expr.ready_mergeSort`).
-/
namespace ExactCalc

/-- A span that lies, with its parentheses, in the `n` slots from `slot` on, and deeper than `depth`. -/
structure Span.Inside (depth slot n : Nat) (s : Span) : Prop where
  deeper : depth < s.depth
  left   : slot < s.start
  le     : s.start ≤ s.stop
  right  : s.stop + 1 < slot + n

theorem Span.Inside.mono {depth depth' slot slot' n n' : Nat} {s : Span} (h : s.Inside depth' slot' n')
    (hd : depth ≤ depth') (hl : slot ≤ slot') (hr : slot' + n' ≤ slot + n) : s.Inside depth slot n := by
  obtain ⟨h₁, h₂, h₃, h₄⟩ := h
  exact ⟨by omega, by omega, h₃, by omega⟩

theorem Span.Inside.ne {depth depth' slot slot' n n' : Nat} {s t : Span} (hs : s.Inside depth slot n)
    (ht : t.Inside depth' slot' n') (h : slot + n ≤ slot') : s ≠ t := by
  rintro rfl
  have := hs.le
  have := hs.right
  have := ht.left
  omega

mutual
theorem Operand.inside_of_mem_blocks : ∀ {o : Operand} {depth slot : Nat}, ∀ b ∈ o.blocks depth slot,
    b.1.Inside depth slot o.lexemes.length
  | .group i e j, depth, slot, b, hb => by
    have hlen : (Operand.group i e j).lexemes.length = e.lexemes.length + 2 := by simp [Operand.lexemes]
    rcases List.mem_append.1 hb with hb | hb
    · exact (e.inside_of_mem_inner b hb).mono (Nat.le_succ depth) (Nat.le_succ slot) (by omega)
    · have := e.length_lexemes_pos
      rw [List.mem_singleton.1 hb, Expr.span]
      exact ⟨Nat.lt_succ_self depth, Nat.lt_succ_self slot, by dsimp only; omega, by dsimp only; omega⟩

theorem Expr.inside_of_mem_inner : ∀ (e : Expr) {depth slot : Nat}, ∀ b ∈ e.inner depth slot,
    b.1.Inside depth slot e.lexemes.length
  | .mk sign first rest, depth, slot, b, hb => by
    have hlen : (Expr.mk sign first rest).lexemes.length =
        (Sign.lexemes sign).length + first.lexemes.length + rest.lexemes.length := by simp [Expr.lexemes, Nat.add_assoc]
    rcases List.mem_append.1 hb with hb | hb
    · exact (Operand.inside_of_mem_blocks b hb).mono (Nat.le_refl depth) (by omega) (by omega)
    · exact (Links.inside_of_mem_blocks b hb).mono (Nat.le_refl depth) (by omega) (by omega)

theorem Links.inside_of_mem_blocks : ∀ {ls : Links} {depth slot : Nat}, ∀ b ∈ ls.blocks depth slot,
    b.1.Inside depth slot ls.lexemes.length
  | .cons j o ls, depth, slot, b, hb => by
    have hlen : (Links.cons j o ls).lexemes.length = 1 + o.lexemes.length + ls.lexemes.length := by
      simp only [Links.lexemes, List.length_cons, List.length_append]
      omega
    rcases List.mem_append.1 hb with hb | hb
    · exact (Operand.inside_of_mem_blocks b hb).mono (Nat.le_refl depth) (by omega) (by omega)
    · exact (Links.inside_of_mem_blocks b hb).mono (Nat.le_refl depth) (by omega) (by omega)
end

theorem Expr.span_ne_of_mem_inner {e : Expr} {depth slot : Nat} {b : Span × Expr} (hb : b ∈ e.inner depth slot) :
    b.1 ≠ e.span depth slot := by
  intro h
  have := (e.inside_of_mem_inner b hb).deeper
  rw [h] at this
  exact Nat.lt_irrefl _ this

/-! ## No two blocks have one span -/

theorem nodup_map_append {xs ys : List (Span × Expr)} (hx : (xs.map Prod.fst).Nodup) (hy : (ys.map Prod.fst).Nodup)
    (h : ∀ a ∈ xs, ∀ b ∈ ys, a.1 ≠ b.1) : ((xs ++ ys).map Prod.fst).Nodup := by
  rw [List.map_append, List.nodup_append]
  refine ⟨hx, hy, fun s hs t ht => ?_⟩
  obtain ⟨a, ha, rfl⟩ := List.mem_map.1 hs
  obtain ⟨b, hb, rfl⟩ := List.mem_map.1 ht
  exact h a ha b hb

mutual
theorem Operand.nodup_blocks : ∀ (o : Operand) (depth slot : Nat), ((o.blocks depth slot).map Prod.fst).Nodup
  | .number _,    _,     _    => List.nodup_nil
  | .group _ e _, depth, slot => by
    refine nodup_map_append (e.nodup_inner (depth + 1) (slot + 1)) (List.pairwise_singleton _ _) fun a ha b hb => ?_
    rw [List.mem_singleton.1 hb]
    exact Expr.span_ne_of_mem_inner ha

theorem Expr.nodup_inner : ∀ (e : Expr) (depth slot : Nat), ((e.inner depth slot).map Prod.fst).Nodup
  | .mk _ first rest, depth, _ =>
    nodup_map_append (first.nodup_blocks depth _) (rest.nodup_blocks depth _) fun a ha b hb =>
      (Operand.inside_of_mem_blocks a ha).ne (Links.inside_of_mem_blocks b hb) (Nat.le_refl _)

theorem Links.nodup_blocks : ∀ (ls : Links) (depth slot : Nat), ((ls.blocks depth slot).map Prod.fst).Nodup
  | .nil,         _,     _ => List.nodup_nil
  | .cons _ o ls, depth, _ =>
    nodup_map_append (o.nodup_blocks depth _) (ls.nodup_blocks depth _) fun a ha b hb =>
      (Operand.inside_of_mem_blocks a ha).ne (Links.inside_of_mem_blocks b hb) (Nat.le_refl _)
end

theorem Expr.nodup_blocks (e : Expr) (depth slot : Nat) : ((e.blocks depth slot).map Prod.fst).Nodup := by
  refine nodup_map_append (e.nodup_inner depth slot) (List.pairwise_singleton _ _) fun a ha b hb => ?_
  rw [List.mem_singleton.1 hb]
  exact span_ne_of_mem_inner ha

/-! ## Blocks of blocks -/

/-- A block is a group with its own span, and the blocks inside it are in the list as well. -/
def Nested (bs : List (Span × Expr)) (b : Span × Expr) : Prop :=
  b.2.span b.1.depth b.1.start = b.1 ∧ ∀ b' ∈ b.2.inner b.1.depth b.1.start, b' ∈ bs

theorem Nested.mono {bs bs' : List (Span × Expr)} {b : Span × Expr} (h : Nested bs b) (hs : ∀ b ∈ bs, b ∈ bs') :
    Nested bs' b :=
  ⟨h.1, fun b' hb => hs b' (h.2 b' hb)⟩

mutual
theorem Operand.nested_blocks : ∀ {o : Operand} {depth slot : Nat}, ∀ b ∈ o.blocks depth slot,
    Nested (o.blocks depth slot) b
  | .number _,    _, _ => fun _ hb => absurd hb List.not_mem_nil
  | .group _ e _, _, _ => Expr.forall_mem_blocks
      (fun b hb => (e.nested_inner b hb).mono fun _ h => List.mem_append_left _ h)
      ⟨rfl, fun _ h => List.mem_append_left _ h⟩

theorem Expr.nested_inner : ∀ (e : Expr) {depth slot : Nat}, ∀ b ∈ e.inner depth slot, Nested (e.inner depth slot) b
  | .mk sign first rest, depth, slot, b, hb => by
    rcases List.mem_append.1 hb with hb | hb
    · exact (Operand.nested_blocks b hb).mono fun _ h => List.mem_append_left _ h
    · exact (Links.nested_blocks b hb).mono fun _ h => List.mem_append_right _ h

theorem Links.nested_blocks : ∀ {ls : Links} {depth slot : Nat}, ∀ b ∈ ls.blocks depth slot,
    Nested (ls.blocks depth slot) b
  | .cons j o ls, depth, slot, b, hb => by
    rcases List.mem_append.1 hb with hb | hb
    · exact (Operand.nested_blocks b hb).mono fun _ h => List.mem_append_left _ h
    · exact (Links.nested_blocks b hb).mono fun _ h => List.mem_append_right _ h
end

theorem Expr.nested_blocks (e : Expr) {depth slot : Nat} :
    ∀ b ∈ e.blocks depth slot, Nested (e.blocks depth slot) b :=
  forall_mem_blocks (fun b hb => (e.nested_inner b hb).mono fun _ h => List.mem_append_left _ h)
    ⟨rfl, fun _ h => List.mem_append_left _ h⟩

/-! ## The order in which groups are folded -/

mutual
theorem Operand.groups_eq : ∀ (o : Operand) (depth slot : Nat),
    o.groups depth = (o.blocks depth slot).map fun b => (b.1.depth, b.2)
  | .number _,    _,     _    => rfl
  | .group _ e _, depth, slot => by
    rw [Operand.groups, Operand.blocks_group, e.groups_eq (depth + 1) (slot + 1)]

theorem Expr.groups_eq : ∀ (e : Expr) (depth slot : Nat),
    e.groups depth = (e.blocks depth slot).map fun b => (b.1.depth, b.2)
  | .mk sign first rest, depth, slot => by
    rw [Expr.groups, Expr.blocks, Expr.inner, first.groups_eq depth, rest.groups_eq depth, List.map_append,
      List.map_append]
    rfl

theorem Links.groups_eq : ∀ (ls : Links) (depth slot : Nat),
    ls.groups depth = (ls.blocks depth slot).map fun b => (b.1.depth, b.2)
  | .nil,         _,     _    => rfl
  | .cons j o ls, depth, slot => by
    rw [Links.groups, Links.blocks, o.groups_eq depth, ls.groups_eq depth, List.map_append]
end

def Expr.schedule (e : Expr) : List (Span × Expr) :=
  (e.blocks 0 0).mergeSort fun a b => a.1.deeper b.1

theorem map_fst_mergeSort (bs : List (Span × Expr)) :
    (bs.mergeSort fun a b => a.1.deeper b.1).map Prod.fst = (SpanTable.ofList (bs.map Prod.fst)).deepestFirst := by
  rw [SpanTable.deepestFirst_ofList]
  exact List.map_mergeSort fun _ _ _ _ => rfl

theorem Expr.map_snd_schedule (e : Expr) : e.schedule.map Prod.snd = e.orderedGroups := by
  have h := @List.map_mergeSort _ _ (fun a b : Span × Expr => a.1.deeper b.1)
    (fun a b : Nat × Expr => decide (b.1 ≤ a.1)) (fun b => (b.1.depth, b.2)) (e.blocks 0 0) fun _ _ _ _ => rfl
  rw [orderedGroups, e.groups_eq 0 0, ← h, List.map_map]
  rfl

/-- A block that can be folded after those of `done`: it is not among them, and the blocks inside it are. -/
def IsNext (done : List Span) (b : Span × Expr) : Prop :=
  b.1 ∉ done ∧ ∀ b' ∈ b.2.inner b.1.depth b.1.start, b'.1 ∈ done

/-- Blocks in an order in which each can be folded after those before it; those of `done` came first. -/
def Ready : List Span → List (Span × Expr) → Prop
  | _,    []      => True
  | done, b :: bs => IsNext done b ∧ Ready (b.1 :: done) bs

theorem ready_append : ∀ {bs bs' : List (Span × Expr)} {done : List Span}, Ready done (bs ++ bs') ↔
    Ready done bs ∧ Ready ((bs.map Prod.fst).reverse ++ done) bs'
  | [],      _,   _    => by simp [Ready]
  | b :: bs, bs', done => by
    rw [List.cons_append, Ready, Ready, ready_append, and_assoc, List.map_cons, List.reverse_cons, List.append_assoc,
      List.singleton_append]

theorem ready_of_pairwise : ∀ {bs : List (Span × Expr)} {done : List Span},
    bs.Pairwise (fun a b => b.1.depth ≤ a.1.depth) → (bs.map Prod.fst).Nodup → (∀ b ∈ bs, b.1 ∉ done) →
    (∀ b ∈ bs, ∀ b' ∈ b.2.inner b.1.depth b.1.start, b'.1 ∈ done ∨ b' ∈ bs) → Ready done bs
  | [],      _,    _,  _,  _,  _  => trivial
  | b :: bs, done, hp, hn, hd, hi => by
    obtain ⟨hb, hp⟩ := List.pairwise_cons.1 hp
    rw [List.map_cons] at hn
    obtain ⟨hnb, hn⟩ := List.nodup_cons.1 hn
    refine ⟨⟨hd b List.mem_cons_self, fun b' hb' => ?_⟩, ready_of_pairwise hp hn ?_ ?_⟩
    -- a block inside `b` is deeper than `b`, and those that come later are not
    · have hdeep := (b.2.inside_of_mem_inner b' hb').deeper
      rcases hi b List.mem_cons_self b' hb' with h | h
      · exact h
      · rcases List.mem_cons.1 h with rfl | h
        · exact (Nat.lt_irrefl _ hdeep).elim
        · exact absurd (hb b' h) (Nat.not_le.2 hdeep)
    · intro c hc hcd
      rcases List.mem_cons.1 hcd with h | h
      · exact hnb (h ▸ List.mem_map_of_mem hc)
      · exact hd c (List.mem_cons_of_mem b hc) h
    · intro c hc c' hc'
      rcases hi c (List.mem_cons_of_mem b hc) c' hc' with h | h
      · exact .inl (List.mem_cons_of_mem _ h)
      · rcases List.mem_cons.1 h with rfl | h
        · exact .inl List.mem_cons_self
        · exact .inr h

/-- **Every group is folded once, after the groups inside it**, in whatever order the groups are recorded. -/
theorem Expr.ready_mergeSort {e : Expr} {bs : List (Span × Expr)} (h : bs.Perm (e.blocks 0 0)) :
    Ready [] (bs.mergeSort fun a b => a.1.deeper b.1) := by
  have hperm : (bs.mergeSort fun a b => a.1.deeper b.1).Perm (e.blocks 0 0) := (List.mergeSort_perm _ _).trans h
  apply ready_of_pairwise
  · have h := SpanTable.mergeSort_deeper (bs.map Prod.fst)
    rw [← SpanTable.deepestFirst_ofList, ← map_fst_mergeSort] at h
    exact List.pairwise_map.1 h
  · exact ((hperm.map Prod.fst).nodup_iff).2 (e.nodup_blocks 0 0)
  · exact fun _ _ => List.not_mem_nil
  · intro b hb b' hb'
    exact .inr (hperm.mem_iff.2 ((e.nested_blocks b (hperm.mem_iff.1 hb)).2 b' hb'))

end ExactCalc
