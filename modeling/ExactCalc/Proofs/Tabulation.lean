import ExactCalc.Proofs.Acceptance
import ExactCalc.Proofs.Blocks
import ExactCalc.Proofs.Nesting
import ExactCalc.Proofs.Reach
/-!
# The table of an accepted text

The spans of an accepted text are those of its matching parentheses and the root, filed by depth in the order in which
they are closed.  The layout of an expression is a walk over its tokens, so what a walk finds is what the table holds.
The scan of any text counts the parentheses that are open on the way (`Scan.Reaches.counts`).
-/
namespace ExactCalc

def Token.bracket : Token → Bracket
  | opening => .opening
  | closing => .closing
  | _       => .plain

/-- A table files exactly the root and the insides of the matching parentheses of some tokens. -/
structure SpanTable.Tabulates (t : SpanTable) (tokens : List Token) : Prop where
  root : 0 < tokens.length ∧ t.level 0 = [⟨0, 0, tokens.length - 1⟩]
  /-- Each pair of matching parentheses, nested `k` deep, has exactly one span, and there is something in it. -/
  pair : ∀ a b, Bracket.Matching (tokens.map Token.bracket) a b →
    ∃ k, 1 ≤ k ∧ Bracket.height (tokens.map Token.bracket) (a + 1) = (k : Nat) ∧ a + 1 ≤ b - 1 ∧
      (t.level k).count ⟨k, a + 1, b - 1⟩ = 1
  /-- There are no other spans. -/
  only : ∀ k, 1 ≤ k → ∀ s ∈ t.level k, ∃ a b, Bracket.Matching (tokens.map Token.bracket) a b ∧
    Bracket.height (tokens.map Token.bracket) (a + 1) = (k : Nat) ∧ s = ⟨k, a + 1, b - 1⟩
  sorted : ∀ k, (t.level k).Pairwise fun s s' => s.stop < s'.stop
  inhabited : ∀ k ≤ t.maxDepth, t.level k ≠ []
  /-- Two spans of one level do not even share a parenthesis. -/
  apart : ∀ k, ∀ s ∈ t.level k, ∀ s' ∈ t.level k, s ≠ s' → s.stop + 1 < s'.start - 1 ∨ s'.stop + 1 < s.start - 1
  /-- A span of a deeper level lies, with its parentheses, in exactly one span of the level above. -/
  enclosed : ∀ k, ∀ s ∈ t.level (k + 1), ∃ s' ∈ t.level k, (s'.start ≤ s.start - 1 ∧ s.stop + 1 ≤ s'.stop) ∧
    ∀ s'' ∈ t.level k, s''.start ≤ s.start - 1 ∧ s.stop + 1 ≤ s''.stop → s'' = s'

/-! ## The layout is a walk -/

def brackets (ls : List Lexeme) : List Bracket :=
  ls.map fun l => l.token.bracket

def Span.pair (s : Span) : Bracket.Pair :=
  ⟨s.depth, s.start - 1, s.stop + 1⟩

def pairs (bs : List (Span × Expr)) : List Bracket.Pair :=
  bs.map fun b => b.1.pair

theorem length_brackets (ls : List Lexeme) : (brackets ls).length = ls.length :=
  List.length_map _

mutual
theorem Operand.walk : ∀ (o : Operand) {bs ps qs}, Bracket.Walk bs ps qs →
    Bracket.Walk (bs ++ brackets o.lexemes) ps (qs ++ pairs (o.blocks ps.length bs.length))
  | .number _,    bs, ps, qs, h => by
    rw [Operand.blocks, pairs, List.map_nil, List.append_nil]
    exact h.plain
  | .group i e j, bs, ps, qs, h => by
    have hpos := e.length_lexemes_pos
    have hw := (e.walk h.opening).closing
    have hb : brackets (Operand.group i e j).lexemes = .opening :: (brackets e.lexemes ++ [.closing]) := by
      simp [brackets, Operand.lexemes, Token.bracket]
    have hp : (e.span (ps.length + 1) (bs.length + 1)).pair =
        ⟨ps.length + 1, bs.length, (bs ++ [Bracket.opening] ++ brackets e.lexemes).length⟩ := by
      simp only [Span.pair, Expr.span, List.length_append, List.length_singleton, length_brackets,
        Bracket.Pair.mk.injEq]
      refine ⟨trivial, ?_, ?_⟩ <;> omega
    rw [hb, Operand.blocks, pairs, List.map_append, List.map_singleton, hp]
    simpa [pairs] using hw

theorem Expr.walk : ∀ (e : Expr) {bs ps qs}, Bracket.Walk bs ps qs →
    Bracket.Walk (bs ++ brackets e.lexemes) ps (qs ++ pairs (e.inner ps.length bs.length))
  | .mk sign first rest, bs, ps, qs, h => by
    have hs : Bracket.Walk (bs ++ brackets (Sign.lexemes sign)) ps qs := by
      cases sign with
      | none   => rwa [Sign.lexemes, brackets, List.map_nil, List.append_nil]
      | some s => exact h.plain
    have hw := rest.walk (first.walk hs)
    simpa [brackets, pairs, Expr.lexemes, Expr.inner, Nat.add_assoc] using hw

theorem Links.walk : ∀ (ls : Links) {bs ps qs}, Bracket.Walk bs ps qs →
    Bracket.Walk (bs ++ brackets ls.lexemes) ps (qs ++ pairs (ls.blocks ps.length bs.length))
  | .nil,         bs, ps, qs, h => by simpa [brackets, pairs, Links.lexemes, Links.blocks] using h
  | .cons j o ls, bs, ps, qs, h => by
    have hj : (j.lexeme o.pos).token.bracket = .plain := by
      rw [j.token_lexeme]
      rfl
    have hw := ls.walk (o.walk h.plain)
    simpa [brackets, pairs, Links.lexemes, Links.blocks, hj, Nat.add_assoc, Nat.add_comm 1] using hw
end

theorem Expr.walk_lexemes (e : Expr) : Bracket.Walk (brackets e.lexemes) [] (pairs (e.inner 0 0)) :=
  e.walk .nil

/-! ## What the table holds -/

section
variable {e : Expr} {s s' : Span} {k : Nat}

theorem Expr.tokens_brackets (e : Expr) : e.reading.tokens.map Token.bracket = brackets e.lexemes :=
  List.map_map

theorem Expr.level_zero (e : Expr) : e.reading.spans.level 0 = [⟨0, 0, e.lexemes.length - 1⟩] := by
  have hi : ((e.inner 0 0).map Prod.fst).filter (fun s => 0 = s.depth) = [] := by
    rw [List.filter_eq_nil_iff]
    intro s hs
    obtain ⟨b, hb, rfl⟩ := List.mem_map.1 hs
    have := (e.inside_of_mem_inner b hb).deeper
    simp only [decide_eq_true_eq]
    omega
  rw [reading, SpanTable.level_ofList, Expr.blocks, List.map_append, List.filter_append, hi]
  simp [Expr.span]

theorem Expr.level_pos (e : Expr) (hk : 1 ≤ k) :
    e.reading.spans.level k = ((e.inner 0 0).map Prod.fst).filter (fun s => k = s.depth) := by
  have hr : ([e.span 0 0]).filter (fun s => k = s.depth) = [] := by
    rw [List.filter_eq_nil_iff]
    intro s hs
    rw [List.mem_singleton.1 hs, decide_eq_true_eq, Expr.span]
    exact Nat.ne_of_gt hk
  rw [reading, SpanTable.level_ofList, Expr.blocks, List.map_append, List.filter_append, List.map_singleton, hr,
    List.append_nil]

theorem Expr.mem_level (hk : 1 ≤ k) :
    s ∈ e.reading.spans.level k ↔ (∃ b ∈ e.inner 0 0, b.1 = s) ∧ s.depth = k := by
  rw [e.level_pos hk, List.mem_filter, List.mem_map, decide_eq_true_eq, eq_comm (a := k)]

/-- A span below the root stands for a pair of matching parentheses. -/
theorem Expr.matching_of_mem_level (hk : 1 ≤ k) (hs : s ∈ e.reading.spans.level k) :
    Bracket.Matching (brackets e.lexemes) (s.start - 1) (s.stop + 1) ∧
      Bracket.height (brackets e.lexemes) (s.start - 1 + 1) = (k : Nat) ∧ s.Inside 0 0 e.lexemes.length := by
  obtain ⟨⟨b, hb, rfl⟩, rfl⟩ := (mem_level hk).1 hs
  obtain ⟨hm, hh, -⟩ := e.walk_lexemes.matching b.1.pair (List.mem_map_of_mem hb)
  exact ⟨hm, hh, e.inside_of_mem_inner b hb⟩

theorem Expr.sorted_level (e : Expr) (k : Nat) : (e.reading.spans.level k).Pairwise fun s s' => s.stop < s'.stop := by
  by_cases hk : 1 ≤ k
  · have h : ((e.inner 0 0).map fun b => b.1.pair).Pairwise fun q q' => q.right < q'.right := e.walk_lexemes.sorted
    rw [e.level_pos hk]
    refine List.Pairwise.filter _ (List.pairwise_map.2 ((List.pairwise_map.1 h).imp fun {b b'} hlt => ?_))
    exact Nat.lt_of_succ_lt_succ hlt
  · rw [show k = 0 by omega, e.level_zero]
    exact List.pairwise_singleton _ _

theorem Expr.apart_level (hk : 1 ≤ k) (hs : s ∈ e.reading.spans.level k) (hs' : s' ∈ e.reading.spans.level k)
    (hne : s ≠ s') : s.stop + 1 < s'.start - 1 ∨ s'.stop + 1 < s.start - 1 := by
  obtain ⟨hm, hh, hi⟩ := matching_of_mem_level hk hs
  obtain ⟨hm', hh', hi'⟩ := matching_of_mem_level hk hs'
  rcases Nat.lt_trichotomy (s.start - 1) (s'.start - 1) with hlt | heq | hlt
  · exact .inl (hm.apart hm' (hh.trans hh'.symm) hlt)
  · rw [← heq] at hm'
    have hstop := hm.right_unique hm'
    have hd : s.depth = s'.depth := by rw [((mem_level hk).1 hs).2, ((mem_level hk).1 hs').2]
    have h₁ := hi.left
    have h₂ := hi'.left
    refine absurd ?_ hne
    obtain ⟨d, a, b⟩ := s
    obtain ⟨d', a', b'⟩ := s'
    simp only [Span.mk.injEq] at *
    exact ⟨hd, by omega, by omega⟩
  · exact .inr (hm'.apart hm (hh'.trans hh.symm) hlt)

theorem Expr.exists_enclosing (hs : s ∈ e.reading.spans.level (k + 1)) :
    ∃ s' ∈ e.reading.spans.level k, s'.start ≤ s.start - 1 ∧ s.stop + 1 ≤ s'.stop := by
  obtain ⟨⟨b, hb, rfl⟩, hd⟩ := (mem_level (Nat.le_add_left 1 k)).1 hs
  by_cases hk : 1 ≤ k
  · rcases e.walk_lexemes.enclosed b.1.pair (List.mem_map_of_mem hb) k hk hd with ⟨q, hq, hqd, hl, hr⟩ | ⟨p, hp, -⟩
    · obtain ⟨b', hb', rfl⟩ := List.mem_map.1 hq
      have := (e.inside_of_mem_inner b' hb').left
      simp only [Span.pair] at hl hr
      exact ⟨b'.1, (mem_level hk).2 ⟨⟨b', hb', rfl⟩, hqd⟩, by omega, by omega⟩
    · exact absurd hp List.not_mem_nil
  · have hi := (e.inside_of_mem_inner b hb).right
    rw [show k = 0 by omega, e.level_zero]
    refine ⟨_, List.mem_singleton_self _, ?_⟩
    dsimp only
    omega

/-- From the deepest level, which holds a span, each span leads to one of the level above. -/
theorem Expr.inhabited_level (e : Expr) : ∀ j ≤ e.reading.spans.maxDepth,
    e.reading.spans.level (e.reading.spans.maxDepth - j) ≠ []
  | 0,     _  => by
    rw [Nat.sub_zero]
    by_cases hl : SpanTable.empty.levels.length < e.reading.spans.levels.length
    · obtain ⟨s, hs, hd⟩ := SpanTable.exists_depth_of_length_levels _ _ hl
      have hm : s ∈ e.reading.spans.level s.depth := by
        rw [reading, SpanTable.level_ofList]
        exact List.mem_filter.2 ⟨hs, by simp⟩
      have hd : s.depth = e.reading.spans.maxDepth := Nat.eq_sub_of_add_eq hd
      exact List.ne_nil_of_mem (hd ▸ hm)
    · have hz : e.reading.spans.maxDepth = 0 := Nat.sub_eq_zero_of_le (Nat.le_of_not_lt hl)
      rw [hz, e.level_zero]
      exact List.cons_ne_nil _ _
  | j + 1, hj => by
    obtain ⟨s, hs⟩ := List.exists_mem_of_ne_nil _ (e.inhabited_level j (Nat.le_of_succ_le hj))
    rw [show e.reading.spans.maxDepth - j = e.reading.spans.maxDepth - (j + 1) + 1 by omega] at hs
    obtain ⟨s', hs', -⟩ := exists_enclosing hs
    exact List.ne_nil_of_mem hs'

/-- **The table of an expression files its matching parentheses.** -/
theorem Expr.tabulates (e : Expr) : e.reading.spans.Tabulates e.reading.tokens where
  root := by
    have hl : e.reading.tokens.length = e.lexemes.length := List.length_map _
    rw [hl]
    exact ⟨e.length_lexemes_pos, e.level_zero⟩
  pair a b hm := by
    rw [e.tokens_brackets] at hm ⊢
    obtain ⟨q, hq, rfl, rfl⟩ := e.walk_lexemes.matching_iff.1 hm
    obtain ⟨-, hh, hd⟩ := e.walk_lexemes.matching q hq
    obtain ⟨b, hb, rfl⟩ := List.mem_map.1 hq
    have hi := e.inside_of_mem_inner b hb
    have h₁ := hi.left
    have h₂ := hi.le
    have hs : (⟨b.1.pair.depth, b.1.pair.left + 1, b.1.pair.right - 1⟩ : Span) = b.1 := by
      simp only [Span.pair, Nat.add_sub_cancel, Nat.sub_add_cancel (Nat.one_le_of_lt h₁)]
    have hmem : b.1 ∈ e.reading.spans.level b.1.pair.depth := (mem_level hd).2 ⟨⟨b, hb, rfl⟩, rfl⟩
    have hnd : (e.reading.spans.level b.1.pair.depth).Nodup :=
      (e.sorted_level _).imp fun hlt heq => absurd hlt (by rw [heq]; exact Nat.lt_irrefl _)
    refine ⟨b.1.pair.depth, hd, hh, ?_, ?_⟩
    · simp only [Span.pair]
      omega
    · rw [hs, hnd.count, if_pos hmem]
  only k hk s hs := by
    rw [e.tokens_brackets]
    obtain ⟨hm, hh, hi⟩ := matching_of_mem_level hk hs
    refine ⟨_, _, hm, hh, ?_⟩
    have := hi.left
    have hd := ((mem_level hk).1 hs).2
    obtain ⟨d, a, b⟩ := s
    simp only [Span.mk.injEq, Nat.add_sub_cancel, and_true] at *
    omega
  sorted := e.sorted_level
  inhabited k hk := by
    have h := e.inhabited_level (e.reading.spans.maxDepth - k) (Nat.sub_le _ _)
    rwa [Nat.sub_sub_self hk] at h
  apart k s hs s' hs' hne := by
    by_cases hk : 1 ≤ k
    · exact apart_level hk hs hs' hne
    · rw [show k = 0 by omega, e.level_zero] at hs hs'
      exact absurd ((List.mem_singleton.1 hs).trans (List.mem_singleton.1 hs').symm) hne
  enclosed k s hs := by
    obtain ⟨s', hs', h₁, h₂⟩ := exists_enclosing hs
    refine ⟨s', hs', ⟨h₁, h₂⟩, fun s'' hs'' h => ?_⟩
    by_cases hk : 1 ≤ k
    · refine Classical.byContradiction fun hne => ?_
      have hi := (matching_of_mem_level (Nat.le_add_left 1 k) hs).2.2.le
      have := apart_level hk hs'' hs' hne
      omega
    · rw [show k = 0 by omega, e.level_zero] at hs' hs''
      rw [List.mem_singleton.1 hs', List.mem_singleton.1 hs'']

end

/-! ## The counter of the scan -/

/-- The depth that a scan counts is the number of parentheses that are open, and nothing is taken from a count of zero:
not from the depth when a parenthesis is closed, and not from the number of tokens when a span is recorded. -/
structure Scan.Counts (s : Scan) : Prop where
  depth   : s.depth = s.pending.length
  closing : ∀ i s', s.closing i = .ok s' → 1 ≤ s.depth ∧ 1 ≤ s.lexemes.length
  finish  : ∀ r, s.finish = .ok r → 1 ≤ s.lexemes.length

/-- The tokens before the innermost group are among those that a scan has. -/
theorem Draft.base_le_length_lexemes (d : Draft) : base d.outer ≤ d.scan.lexemes.length := by
  obtain ⟨outer, lead, last⟩ := d
  cases last with
  | none =>
    rw [length_lexemes_none]
    exact Nat.le_add_right _ _
  | some x =>
    rw [length_lexemes_some, Nat.add_assoc]
    exact Nat.le_add_right _ _

theorem Draft.counts (d : Draft) : d.scan.Counts := by
  have hdepth : d.scan.depth = d.scan.pending.length := by rw [depth_scan, pending_scan, length_openings]
  refine ⟨hdepth, fun i s' h => ?_, fun r h => ?_⟩
  · have hne : d.outer ≠ [] := by
      intro ho
      simp [Scan.closing, pending_scan, ho, openings] at h
    obtain ⟨⟨l, j⟩, fs, ho⟩ := List.exists_cons_of_ne_nil hne
    have hbase := d.base_le_length_lexemes
    rw [ho, base] at hbase
    rw [depth_scan, ho, List.length_cons]
    exact ⟨Nat.le_add_left 1 _, Nat.le_trans (Nat.le_add_left 1 _) hbase⟩
  · cases hx : d.scan.lexemes with
    | nil =>
      rw [Scan.finish, hx] at h
      cases h
    | cons x xs => exact Nat.le_add_left 1 _

/-- **On the way through any text, accepted or not, the scan keeps count** of the open parentheses. -/
theorem Scan.Reaches.counts {cs : List Char} {i : Nat} {s : Scan} (h : Scan.Reaches cs i s) : s.Counts := by
  obtain ⟨d, -, rfl, -⟩ := h.exists_draft
  exact d.counts

/-- **The table of an accepted text** files exactly its matching parentheses, in order and by depth; and on the way
through it the scan keeps count of the open parentheses. -/
theorem tabulates_of_ofString_eq_ok {text : String} {r : Reading} (h : Reading.ofString text = .ok r) :
    r.spans.Tabulates r.tokens ∧ ∀ i s, Scan.Reaches text.toList i s → s.Counts := by
  obtain ⟨e, -, rfl⟩ := ofChars_eq_ok_iff_spells.1 h
  exact ⟨e.tabulates, fun i s hs => hs.counts⟩

theorem tabulates_nested :
    ∃ r, Reading.ofString "(1)((2)3)" = .ok r ∧ r.spans.Tabulates r.tokens ∧
      ∀ i s, Scan.Reaches "(1)((2)3)".toList i s → s.Counts :=
  ⟨_, rfl, tabulates_of_ofString_eq_ok rfl⟩

end ExactCalc
