import Mathlib
/-!
# Matching brackets

Pairs of brackets that match, said by the height of a word (how many brackets are open): between them the height never
falls below that just after the opening one.  A walk from left to right with a stack of open brackets finds exactly
these pairs, with their depths, in the order in which they are closed (`Walk.matching_iff`).
-/
namespace ExactCalc

inductive Bracket where
  | opening
  | closing
  | plain
deriving DecidableEq

namespace Bracket

def weight : Bracket → Int
  | opening => 1
  | closing => -1
  | plain   => 0

/-- How many brackets are open before slot `n`, those closed too often counted as negative. -/
def height (bs : List Bracket) (n : Nat) : Int :=
  ((bs.take n).map weight).sum

/-- The brackets in two slots match: as much is open before the closing one as after the opening one, and never less in
between. -/
structure Matching (bs : List Bracket) (a b : Nat) : Prop where
  lt     : a < b
  opens  : bs[a]? = some opening
  closes : bs[b]? = some closing
  level  : height bs b = height bs (a + 1)
  above  : ∀ n, a < n → n ≤ b → height bs (a + 1) ≤ height bs n

theorem height_succ {bs : List Bracket} {n : Nat} {b : Bracket} (h : bs[n]? = some b) :
    height bs (n + 1) = height bs n + b.weight := by
  unfold height
  rw [List.take_add_one, h, List.map_append, List.sum_append]
  simp

theorem height_append {bs : List Bracket} {n : Nat} (h : n ≤ bs.length) (cs : List Bracket) :
    height (bs ++ cs) n = height bs n := by
  unfold height
  rw [List.take_append_of_le_length h]

theorem height_concat (bs : List Bracket) (b : Bracket) :
    height (bs ++ [b]) (bs.length + 1) = height bs bs.length + b.weight := by
  rw [height_succ (b := b) (by simp), height_append (Nat.le_refl _)]

namespace Matching
variable {bs : List Bracket} {a b a' b' : Nat}

theorem height_after (h : Matching bs a b) : height bs (b + 1) = height bs (a + 1) - 1 := by
  rw [height_succ h.closes, h.level]
  rfl

theorem not_lt (h : Matching bs a b) (h' : Matching bs a b') : ¬b < b' := by
  intro hlt
  have := h'.above (b + 1) (Nat.lt_succ_of_lt h.lt) hlt
  have := h.height_after
  omega

/-- **An opening bracket matches at most one closing bracket.** -/
theorem right_unique (h : Matching bs a b) (h' : Matching bs a b') : b = b' :=
  Nat.le_antisymm (Nat.le_of_not_lt (h'.not_lt h)) (Nat.le_of_not_lt (h.not_lt h'))

/-- **Pairs of one depth are apart.** -/
theorem apart (h : Matching bs a b) (h' : Matching bs a' b') (hd : height bs (a + 1) = height bs (a' + 1))
    (hlt : a < a') : b < a' := by
  apply Nat.lt_of_not_le
  intro hle
  have h₁ := h.above a' hlt hle
  have h₂ := height_succ h'.opens
  simp only [weight] at h₂
  omega

theorem append (h : Matching bs a b) (cs : List Bracket) : Matching (bs ++ cs) a b := by
  have hb : b < bs.length := (List.getElem?_eq_some_iff.1 h.closes).1
  have ha : a < bs.length := Nat.lt_trans h.lt hb
  refine ⟨h.lt, ?_, ?_, ?_, fun n hn hnb => ?_⟩
  · rw [List.getElem?_append_left ha, h.opens]
  · rw [List.getElem?_append_left hb, h.closes]
  · rw [height_append (Nat.le_of_lt hb), height_append ha, h.level]
  · rw [height_append ha, height_append (Nat.le_trans hnb (Nat.le_of_lt hb))]
    exact h.above n hn hnb

end Matching

/-! ## Walking with a stack -/

/-- Two matching brackets, with the number of brackets that are open between them. -/
structure Pair where
  depth : Nat
  left  : Nat
  right : Nat

/-- A word is walked over with a stack: the slots of its open brackets, the innermost first, and the pairs in the order
in which they were closed.  No closing bracket comes on an empty stack. -/
inductive Walk : List Bracket → List Nat → List Pair → Prop
  | nil : Walk [] [] []
  | plain {bs : List Bracket} {ps : List Nat} {qs : List Pair} : Walk bs ps qs → Walk (bs ++ [.plain]) ps qs
  | opening {bs : List Bracket} {ps : List Nat} {qs : List Pair} :
      Walk bs ps qs → Walk (bs ++ [.opening]) (bs.length :: ps) qs
  | closing {bs : List Bracket} {p : Nat} {ps : List Nat} {qs : List Pair} :
      Walk bs (p :: ps) qs → Walk (bs ++ [.closing]) ps (qs ++ [⟨ps.length + 1, p, bs.length⟩])

/-- A bracket that is open at the end of a word, and the number of brackets that are open since. -/
structure Open (bs : List Bracket) (p : Nat) (d : Nat) : Prop where
  lt    : p < bs.length
  opens : bs[p]? = some opening
  depth : height bs (p + 1) = d
  above : ∀ n, p < n → n ≤ bs.length → (d : Int) ≤ height bs n

theorem Open.concat {bs : List Bracket} {p d : Nat} (h : Open bs p d) {b : Bracket}
    (hb : (d : Int) ≤ height (bs ++ [b]) (bs.length + 1)) : Open (bs ++ [b]) p d := by
  refine ⟨?_, ?_, ?_, fun n hn hnb => ?_⟩
  · rw [List.length_append]
    exact Nat.lt_add_right _ h.lt
  · rw [List.getElem?_append_left h.lt, h.opens]
  · rw [height_append h.lt, h.depth]
  · rw [List.length_append, List.length_singleton] at hnb
    by_cases hl : n ≤ bs.length
    · rw [height_append hl]
      exact h.above n hn hl
    · rwa [show n = bs.length + 1 by omega]

/-- The slots of a stack hold open brackets, the innermost first. -/
def Stack (bs : List Bracket) : List Nat → Prop
  | []      => True
  | p :: ps => Open bs p (ps.length + 1) ∧ (∀ q ∈ ps, q < p) ∧ Stack bs ps

theorem Stack.concat {bs : List Bracket} {b : Bracket} : ∀ {ps : List Nat}, Stack bs ps →
    (ps.length : Int) ≤ height (bs ++ [b]) (bs.length + 1) → Stack (bs ++ [b]) ps
  | [],      _, _  => trivial
  | p :: ps, h, hb => by
    rw [List.length_cons] at hb
    exact ⟨h.1.concat hb, h.2.1, h.2.2.concat (by omega)⟩

theorem Stack.exists_open {bs : List Bracket} : ∀ {ps : List Nat}, Stack bs ps → ∀ p ∈ ps, ∃ d, Open bs p d
  | q :: qs, h, p, hp => by
    rcases List.mem_cons.1 hp with rfl | hp
    · exact ⟨_, h.1⟩
    · exact h.2.2.exists_open p hp

namespace Walk
variable {bs : List Bracket} {ps : List Nat} {qs : List Pair}

theorem height_length (h : Walk bs ps qs) : height bs bs.length = ps.length := by
  induction h with
  | nil => rfl
  | plain _ ih | opening _ ih | closing _ ih =>
    rw [List.length_append, List.length_singleton, height_concat, ih]
    simp only [weight, List.length_cons]
    omega

theorem stack (h : Walk bs ps qs) : Stack bs ps := by
  induction h with
  | nil => trivial
  | @plain bs ps qs h ih =>
    refine ih.concat ?_
    rw [height_concat, h.height_length]
    simp [weight]
  | @opening bs ps qs h ih =>
    have hh : height (bs ++ [.opening]) (bs.length + 1) = (ps.length + 1 : Nat) := by
      rw [height_concat, h.height_length]
      rfl
    refine ⟨⟨by simp, by simp, hh, fun n hn hnb => ?_⟩, fun q hq => ?_, ih.concat ?_⟩
    · rw [List.length_append, List.length_singleton] at hnb
      rw [show n = bs.length + 1 by omega]
      exact Int.le_of_eq hh.symm
    · obtain ⟨d, hd⟩ := ih.exists_open q hq
      exact hd.lt
    · rw [hh]
      omega
  | @closing bs p ps qs h ih =>
    refine ih.2.2.concat ?_
    rw [height_concat, h.height_length]
    simp only [weight, List.length_cons]
    omega

theorem matching (h : Walk bs ps qs) :
    ∀ q ∈ qs, Matching bs q.left q.right ∧ height bs (q.left + 1) = q.depth ∧ 1 ≤ q.depth := by
  have grow {bs : List Bracket} {q : Pair} (b : Bracket)
      (h : Matching bs q.left q.right ∧ height bs (q.left + 1) = q.depth ∧ 1 ≤ q.depth) :
      Matching (bs ++ [b]) q.left q.right ∧ height (bs ++ [b]) (q.left + 1) = q.depth ∧ 1 ≤ q.depth := by
    obtain ⟨hm, hd, h₁⟩ := h
    have hl : q.left < bs.length := (List.getElem?_eq_some_iff.1 hm.opens).1
    refine ⟨hm.append [b], ?_, h₁⟩
    rw [height_append hl, hd]
  induction h with
  | nil => exact fun _ h => (List.not_mem_nil h).elim
  | plain _ ih | opening _ ih => exact fun q hq => grow _ (ih q hq)
  | @closing bs p ps qs h ih =>
    intro q hq
    rcases List.mem_append.1 hq with hq | hq
    · exact grow _ (ih q hq)
    · rw [List.mem_singleton.1 hq]
      have ho := h.stack.1
      have hd : height (bs ++ [.closing]) (p + 1) = (ps.length + 1 : Nat) := by rw [height_append ho.lt, ho.depth]
      refine ⟨⟨ho.lt, ?_, by simp, ?_, fun n hn hnb => ?_⟩, hd, Nat.le_add_left 1 _⟩
      · rw [List.getElem?_append_left ho.lt, ho.opens]
      · rw [hd, height_append (Nat.le_refl _), h.height_length]
        rfl
      · rw [hd, height_append hnb]
        exact ho.above n hn hnb

theorem open_or_closed (h : Walk bs ps qs) {a : Nat} (ha : bs[a]? = some .opening) :
    a ∈ ps ∨ ∃ q ∈ qs, q.left = a := by
  have shorter {bs : List Bracket} {b : Bracket} (hb : b ≠ .opening) (ha : (bs ++ [b])[a]? = some .opening) :
      bs[a]? = some .opening := by
    by_cases hl : a < bs.length
    · rwa [List.getElem?_append_left hl] at ha
    · rw [List.getElem?_append_right (Nat.le_of_not_lt hl)] at ha
      exact absurd (List.mem_singleton.1 (List.mem_of_getElem? ha)).symm hb
  induction h with
  | nil => cases ha
  | plain _ ih => exact ih (shorter (by decide) ha)
  | @opening bs ps qs h ih =>
    by_cases hl : a < bs.length
    · rw [List.getElem?_append_left hl] at ha
      exact (ih ha).imp_left (List.mem_cons_of_mem _)
    · have := (List.getElem?_eq_some_iff.1 ha).1
      rw [List.length_append, List.length_singleton] at this
      left
      rw [show a = bs.length by omega]
      exact List.mem_cons_self
  | @closing bs p ps qs h ih =>
    rcases ih (shorter (by decide) ha) with hm | ⟨q, hq, rfl⟩
    · rcases List.mem_cons.1 hm with rfl | hm
      · exact .inr ⟨_, List.mem_append_right _ List.mem_cons_self, rfl⟩
      · exact .inl hm
    · exact .inr ⟨q, List.mem_append_left _ hq, rfl⟩

theorem not_matching_of_mem (h : Walk bs ps qs) {a : Nat} (ha : a ∈ ps) (b : Nat) : ¬Matching bs a b := by
  intro hm
  obtain ⟨d, ho⟩ := h.stack.exists_open a ha
  have hb : b < bs.length := (List.getElem?_eq_some_iff.1 hm.closes).1
  have := ho.above (b + 1) (Nat.lt_succ_of_lt hm.lt) hb
  have := hm.height_after
  have := ho.depth
  omega

/-- **A walk finds exactly the pairs that match.** -/
theorem matching_iff (h : Walk bs ps qs) {a b : Nat} : Matching bs a b ↔ ∃ q ∈ qs, q.left = a ∧ q.right = b := by
  constructor
  · intro hm
    rcases h.open_or_closed hm.opens with ha | ⟨q, hq, rfl⟩
    · exact absurd hm (h.not_matching_of_mem ha b)
    · exact ⟨q, hq, rfl, (h.matching q hq).1.right_unique hm⟩
  · rintro ⟨q, hq, rfl, rfl⟩
    exact (h.matching q hq).1

theorem sorted (h : Walk bs ps qs) : qs.Pairwise (fun q q' => q.right < q'.right) := by
  induction h with
  | nil => exact List.Pairwise.nil
  | plain _ ih | opening _ ih => exact ih
  | @closing bs p ps qs h ih =>
    rw [List.pairwise_append]
    refine ⟨ih, List.pairwise_singleton _ _, fun q hq q' hq' => ?_⟩
    rw [List.mem_singleton.1 hq']
    exact (List.getElem?_eq_some_iff.1 (h.matching q hq).1.closes).1

/-- A pair below the top is inside another one, which may still be open. -/
theorem enclosed (h : Walk bs ps qs) : ∀ q ∈ qs, ∀ d, 1 ≤ d → q.depth = d + 1 →
    (∃ q' ∈ qs, q'.depth = d ∧ q'.left < q.left ∧ q.right < q'.right) ∨
      ∃ p ∈ ps, height bs (p + 1) = d ∧ p < q.left := by
  have grow {bs : List Bracket} {ps : List Nat} {qs : List Pair} (h : Walk bs ps qs) (b : Bracket) {p : Nat}
      (hp : p ∈ ps) : height (bs ++ [b]) (p + 1) = height bs (p + 1) := by
    obtain ⟨d, ho⟩ := h.stack.exists_open p hp
    exact height_append ho.lt _
  induction h with
  | nil => exact fun _ h => (List.not_mem_nil h).elim
  | plain h ih =>
    intro q hq d hd hqd
    refine (ih q hq d hd hqd).imp_right ?_
    rintro ⟨p, hp, hh, hlt⟩
    exact ⟨p, hp, (grow h _ hp).trans hh, hlt⟩
  | opening h ih =>
    intro q hq d hd hqd
    refine (ih q hq d hd hqd).imp_right ?_
    rintro ⟨p, hp, hh, hlt⟩
    exact ⟨p, List.mem_cons_of_mem _ hp, (grow h _ hp).trans hh, hlt⟩
  | @closing bs p ps qs h ih =>
    obtain ⟨ho, hlt, hst⟩ := h.stack
    intro q hm d hd hqd
    rcases List.mem_append.1 hm with hq | hq
    · rcases ih q hq d hd hqd with ⟨q', hq', h'⟩ | ⟨p', hp', hh, hpl⟩
      · exact .inl ⟨q', List.mem_append_left _ hq', h'⟩
      · rcases List.mem_cons.1 hp' with rfl | hp'
        -- the bracket around the pair is the one that is closed now
        · refine .inl ⟨_, List.mem_append_right _ List.mem_cons_self, ?_, hpl, ?_⟩
          · have := ho.depth
            dsimp only
            omega
          · exact (List.getElem?_eq_some_iff.1 (h.matching q hq).1.closes).1
        · exact .inr ⟨p', hp', (grow h _ (List.mem_cons_of_mem _ hp')).trans hh, hpl⟩
    · rw [List.mem_singleton.1 hq] at hqd ⊢
      match ps, hst, hlt, hqd with
      | [],       _,   _,   hqd => simp at hqd; omega
      | p' :: ps, hst, hlt, hqd =>
        refine .inr ⟨p', List.mem_cons_self, ?_, hlt p' List.mem_cons_self⟩
        rw [height_append hst.1.lt, hst.1.depth]
        simp only [List.length_cons] at hqd
        omega

end Walk

end Bracket

end ExactCalc
