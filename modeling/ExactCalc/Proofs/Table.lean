import Mathlib
import ExactCalc.Span
/-!
# Filing spans

What the table of a list of spans files under a depth (`level_ofList`), how deep it goes (`maxDepth_ofList`), and the
order in which it is folded: the list, sorted by decreasing depth and otherwise left in order (`deepestFirst_ofList`).
So filing loses no span, doubles none and changes the order of no two that have one depth (`ofList_keeps_recorded`).
-/
namespace ExactCalc

def Span.deeper (s t : Span) : Bool :=
  decide (t.depth ≤ s.depth)

namespace SpanTable

theorem level_foldl (ss : List Span) (t : SpanTable) (d : Nat) :
    (ss.foldl record t).level d = t.level d ++ ss.filter (fun s => d = s.depth) := by
  induction ss generalizing t with
  | nil => simp
  | cons s ss ih =>
    rw [List.foldl_cons, ih, level_record, List.filter_cons, List.append_assoc]
    by_cases h : d = s.depth
    · rw [if_pos h, if_pos (by simpa using h)]
      rfl
    · rw [if_neg h, if_neg (by simpa using h)]
      rfl

/-- **A level holds the recorded spans of its depth**, in recording order. -/
theorem level_ofList (ss : List Span) (d : Nat) : (ofList ss).level d = ss.filter (fun s => d = s.depth) := by
  rw [ofList, level_foldl, level_empty, List.nil_append]

/-! ## How deep a table goes -/

theorem length_appendAt (s : Span) : ∀ (d : Nat) (ls : List (List Span)),
    (appendAt s d ls).length = max ls.length (d + 1)
  | 0,     []      => rfl
  | 0,     l :: ls => by simp [appendAt]
  | d + 1, []      => by simp [appendAt, length_appendAt s d []]
  | d + 1, l :: ls => by
    rw [appendAt, List.length_cons, length_appendAt s d ls, List.length_cons]
    omega

theorem length_levels_record (t : SpanTable) (s : Span) :
    (t.record s).levels.length = max t.levels.length (s.depth + 1) :=
  length_appendAt s s.depth t.levels

theorem depth_lt_length_levels (ss : List Span) (t : SpanTable) :
    t.levels.length ≤ (ss.foldl record t).levels.length ∧
      ∀ s ∈ ss, s.depth < (ss.foldl record t).levels.length := by
  induction ss generalizing t with
  | nil => exact ⟨Nat.le_refl _, fun _ h => (List.not_mem_nil h).elim⟩
  | cons s ss ih =>
    obtain ⟨h₁, h₂⟩ := ih (t.record s)
    rw [length_levels_record] at h₁
    rw [List.foldl_cons]
    refine ⟨by omega, fun u hu => ?_⟩
    rcases List.mem_cons.1 hu with rfl | hu
    · omega
    · exact h₂ u hu

theorem exists_depth_of_length_levels (ss : List Span) (t : SpanTable)
    (h : t.levels.length < (ss.foldl record t).levels.length) :
    ∃ s ∈ ss, s.depth + 1 = (ss.foldl record t).levels.length := by
  induction ss generalizing t with
  | nil => exact absurd h (Nat.lt_irrefl _)
  | cons s ss ih =>
    rw [List.foldl_cons] at h ⊢
    by_cases hs : (t.record s).levels.length < (ss.foldl record (t.record s)).levels.length
    · obtain ⟨u, hu, e⟩ := ih (t.record s) hs
      exact ⟨u, List.mem_cons_of_mem s hu, e⟩
    · have hle := (depth_lt_length_levels ss (t.record s)).1
      have e := length_levels_record t s
      exact ⟨s, List.mem_cons_self, by omega⟩

theorem maxDepth_ofList (ss : List Span) : (ofList ss).maxDepth = (ss.map Span.depth).max?.getD 0 := by
  obtain ⟨hle, hdepth⟩ := depth_lt_length_levels ss empty
  have hone : 1 ≤ (ofList ss).levels.length := hle
  cases ss with
  | nil => rfl
  | cons s ss =>
    have hmax : ((s :: ss).map Span.depth).max? = some (ofList (s :: ss)).maxDepth := by
      rw [List.max?_eq_some_iff, maxDepth]
      constructor
      · rcases Nat.eq_or_lt_of_le hone with hlen | hlen
        -- a table of one level holds spans of depth 0 only
        · have hs : s.depth < (ofList (s :: ss)).levels.length := hdepth s List.mem_cons_self
          exact List.mem_map.2 ⟨s, List.mem_cons_self, by omega⟩
        · obtain ⟨u, hu, he⟩ := exists_depth_of_length_levels (s :: ss) empty hlen
          exact List.mem_map.2 ⟨u, hu, Nat.eq_sub_of_add_eq he⟩
      · intro d hd
        obtain ⟨u, hu, rfl⟩ := List.mem_map.1 hd
        exact Nat.le_sub_one_of_lt (hdepth u hu)
    rw [hmax, Option.getD_some]

theorem level_beyond_maxDepth (t : SpanTable) (n : Nat) : t.level (t.maxDepth + 1 + n) = [] := by
  have hlen : t.levels.length ≤ t.maxDepth + 1 + n := by
    rw [maxDepth]
    omega
  rw [level, List.getElem?_eq_none hlen, Option.getD_none]

/-! ## The order of folding -/

theorem deepestFirst_eq (t : SpanTable) :
    t.deepestFirst = (List.range t.levels.length).reverse.flatMap t.level := by
  have h : t.levels = (List.range t.levels.length).map t.level := by
    apply List.ext_getElem (by simp)
    intro i h₁ h₂
    rw [List.getElem_map, List.getElem_range, level, List.getElem?_eq_getElem h₁, Option.getD_some]
  unfold deepestFirst
  conv => lhs; rw [h]
  rw [← List.map_reverse, ← List.flatMap_def]

/-- Two lists that are sorted by a key, and agree on the elements of each key, are equal. -/
theorem eq_of_filter_eq {α : Type} {f : α → Nat} : ∀ {xs ys : List α}, xs.Pairwise (fun a b => f b ≤ f a) →
    ys.Pairwise (fun a b => f b ≤ f a) → (∀ d, xs.filter (fun a => d = f a) = ys.filter (fun a => d = f a)) → xs = ys
  | [],      [],      _,  _,  _ => rfl
  | [],      y :: ys, _,  _,  h => by simpa using h (f y)
  | x :: xs, [],      _,  _,  h => by simpa using h (f x)
  | x :: xs, y :: ys, hx, hy, h => by
    have hmem : x ∈ y :: ys := by
      have hx : x ∈ (x :: xs).filter (fun a => f x = f a) := List.mem_filter.2 ⟨List.mem_cons_self, by simp⟩
      rw [h (f x)] at hx
      exact (List.mem_filter.1 hx).1
    have hmem' : y ∈ x :: xs := by
      have hy : y ∈ (y :: ys).filter (fun a => f y = f a) := List.mem_filter.2 ⟨List.mem_cons_self, by simp⟩
      rw [← h (f y)] at hy
      exact (List.mem_filter.1 hy).1
    have hxy : f x = f y := by
      have h₁ : f x ≤ f y := by
        rcases List.mem_cons.1 hmem with rfl | hm
        · exact Nat.le_refl _
        · exact (List.pairwise_cons.1 hy).1 x hm
      have h₂ : f y ≤ f x := by
        rcases List.mem_cons.1 hmem' with rfl | hm
        · exact Nat.le_refl _
        · exact (List.pairwise_cons.1 hx).1 y hm
      omega
    have hd := h (f x)
    rw [List.filter_cons_of_pos (by simp), List.filter_cons_of_pos (by simpa using hxy)] at hd
    obtain ⟨rfl, -⟩ := List.cons.inj hd
    congr 1
    refine eq_of_filter_eq (List.pairwise_cons.1 hx).2 (List.pairwise_cons.1 hy).2 fun d => ?_
    have hd := h d
    rw [List.filter_cons, List.filter_cons] at hd
    split at hd
    · exact (List.cons.inj hd).2
    · exact hd

theorem pairwise_flatMap_level {ss : List Span} : ∀ {ds : List Nat}, ds.Pairwise (fun a b => b ≤ a) →
    (ds.flatMap (ofList ss).level).Pairwise fun s t => t.depth ≤ s.depth
  | [],      _ => List.Pairwise.nil
  | d :: ds, h => by
    have hd : ∀ {k : Nat} {s : Span}, s ∈ (ofList ss).level k → s.depth = k := by
      intro k s hs
      rw [level_ofList] at hs
      simpa [eq_comm] using (List.mem_filter.1 hs).2
    rw [List.flatMap_cons, List.pairwise_append]
    refine ⟨?_, pairwise_flatMap_level (List.pairwise_cons.1 h).2, ?_⟩
    · exact List.pairwise_of_forall_mem_list fun s hs t ht => Nat.le_of_eq ((hd ht).trans (hd hs).symm)
    · intro s hs t ht
      obtain ⟨k, hk, ht⟩ := List.mem_flatMap.1 ht
      rw [hd hs, hd ht]
      exact (List.pairwise_cons.1 h).1 k hk

theorem filter_flatMap_level (ss : List Span) (d : Nat) : ∀ {ds : List Nat}, ds.Nodup →
    (ds.flatMap (ofList ss).level).filter (fun s => d = s.depth) = if d ∈ ds then (ofList ss).level d else []
  | [],      _ => rfl
  | k :: ds, h => by
    rw [List.flatMap_cons, List.filter_append, filter_flatMap_level ss d (List.nodup_cons.1 h).2, level_ofList,
      List.filter_filter]
    by_cases hk : d = k
    · subst hk
      rw [if_neg (List.nodup_cons.1 h).1, if_pos List.mem_cons_self, List.append_nil, level_ofList]
      simp
    · have he : ss.filter (fun s => decide (d = s.depth) && decide (k = s.depth)) = [] := by
        rw [List.filter_eq_nil_iff]
        intro s _
        simp only [Bool.and_eq_true, decide_eq_true_eq, not_and]
        rintro rfl rfl
        exact hk rfl
      rw [he, List.nil_append]
      by_cases hm : d ∈ ds
      · rw [if_pos hm, if_pos (List.mem_cons_of_mem k hm)]
      · rw [if_neg hm, if_neg fun h => (List.mem_cons.1 h).elim hk hm]

theorem mergeSort_deeper (ss : List Span) : (ss.mergeSort Span.deeper).Pairwise (fun s t => t.depth ≤ s.depth) := by
  have h := @List.pairwise_mergeSort Span Span.deeper (by simp only [Span.deeper, decide_eq_true_eq]; omega)
    (by simp only [Span.deeper, Bool.or_eq_true, decide_eq_true_eq]; omega) ss
  simpa [Span.deeper] using h

theorem filter_mergeSort_deeper (ss : List Span) (d : Nat) :
    (ss.mergeSort Span.deeper).filter (fun s => d = s.depth) = ss.filter (fun s => d = s.depth) := by
  have hp : (ss.filter fun s => d = s.depth).Pairwise (fun s t => Span.deeper s t = true) := by
    refine List.pairwise_of_forall_mem_list fun s hs t ht => ?_
    have hs : d = s.depth := by simpa using (List.mem_filter.1 hs).2
    have ht : d = t.depth := by simpa using (List.mem_filter.1 ht).2
    simp [Span.deeper, ← hs, ← ht]
  have hsub := @List.sublist_mergeSort Span Span.deeper ss (by simp only [Span.deeper, decide_eq_true_eq]; omega)
    (by simp only [Span.deeper, Bool.or_eq_true, decide_eq_true_eq]; omega) _ hp List.filter_sublist
  have hsub := hsub.filter fun s => d = s.depth
  rw [List.filter_filter] at hsub
  simp only [Bool.and_self] at hsub
  exact (hsub.eq_of_length ((List.mergeSort_perm ss Span.deeper).filter _).length_eq.symm).symm

/-- **The order of folding is the recorded order, sorted by decreasing depth.** -/
theorem deepestFirst_ofList (ss : List Span) : (ofList ss).deepestFirst = ss.mergeSort Span.deeper := by
  have hr : (List.range (ofList ss).levels.length).reverse.Pairwise fun a b => b ≤ a := by
    rw [List.pairwise_reverse]
    exact List.pairwise_le_range
  rw [deepestFirst_eq]
  refine eq_of_filter_eq (pairwise_flatMap_level hr) (mergeSort_deeper ss) fun d => ?_
  rw [filter_flatMap_level ss d ((List.reverse_perm _).nodup_iff.2 List.nodup_range), filter_mergeSort_deeper]
  split
  · exact level_ofList ss d
  · rename_i hd
    rw [List.mem_reverse, List.mem_range] at hd
    refine (List.filter_eq_nil_iff.2 fun s hs => ?_).symm
    have := (depth_lt_length_levels ss empty).2 s hs
    simp only [decide_eq_true_eq]
    rintro rfl
    exact hd this

/-! ## The whole table -/

/-- **A table keeps what is recorded**, whatever the order of recording and whatever depths have no span.  A level holds
the recorded spans of its depth in recording order, and there is none beyond the greatest recorded depth.  The order of
folding has every span as often as it was recorded: it is the recorded order, sorted by decreasing depth, with the spans
of one depth left in order. -/
theorem ofList_keeps_recorded (ss : List Span) :
    (∀ d, (ofList ss).level d = ss.filter fun s => d = s.depth) ∧
      (∀ n, (ofList ss).level ((ofList ss).maxDepth + 1 + n) = []) ∧
      (ofList ss).maxDepth = (ss.map Span.depth).max?.getD 0 ∧
      (ofList ss).deepestFirst.Perm ss ∧
      (ofList ss).deepestFirst.Pairwise (fun s t => t.depth ≤ s.depth) ∧
      (∀ d, ((ofList ss).deepestFirst.filter fun s => d = s.depth) = ss.filter fun s => d = s.depth) ∧
      (ofList ss).deepestFirst = ss.mergeSort Span.deeper := by
  have horder := deepestFirst_ofList ss
  refine ⟨level_ofList ss, level_beyond_maxDepth _, maxDepth_ofList ss, ?_, ?_, fun d => ?_, horder⟩
  · rw [horder]
    exact List.mergeSort_perm ss Span.deeper
  · rw [horder]
    exact mergeSort_deeper ss
  · rw [horder]
    exact filter_mergeSort_deeper ss d

example : (ofList [⟨0, 0, 9⟩, ⟨3, 4, 4⟩, ⟨1, 1, 2⟩, ⟨3, 7, 7⟩]).deepestFirst =
    [⟨3, 4, 4⟩, ⟨3, 7, 7⟩, ⟨1, 1, 2⟩, ⟨0, 0, 9⟩] := by
  decide

end SpanTable

end ExactCalc
