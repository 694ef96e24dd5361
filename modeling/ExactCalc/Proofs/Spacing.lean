import ExactCalc.Proofs.Localisation
import ExactCalc.Proofs.Relocation
/-!
# Blanks are only spacing

Two texts with the same visible characters are read alike: into the same tokens and spans, or with the same problem, at
characters that correspond to each other (`ofString_of_visible_eq`).  There is one place where they can drift apart.  An
operator that is the very last character is refused at once; if a blank follows it, the scan comes to its end, and there
it looks for an open parenthesis first.
-/
namespace ExactCalc

/-! ## Visible characters at any positions -/

theorem Problem.position?_relocate (f : Nat → Nat) (p : Problem) : (p.relocate f).position? = p.position?.map f := by
  cases p <;> rfl

theorem Problem.relocate_congr {f g : Nat → Nat} {p : Problem} (h : ∀ i, p.position? = some i → f i = g i) :
    p.relocate f = p.relocate g := by
  cases p <;> simp_all [position?, relocate]

theorem Problem.relocate_relocate (f g : Nat → Nat) (p : Problem) :
    (p.relocate f).relocate g = p.relocate fun i => g (f i) := by
  cases p <;> rfl

namespace Reading

/-- Reads visible characters at the given positions, none of them as the last of a text. -/
def ofPlaced (xs : List (Char × Nat)) : Except Problem Reading :=
  match Scan.feed {} xs with
  | .error p => .error p
  | .ok s    => s.finish

theorem ofPlaced_eq_ok_iff {xs : List (Char × Nat)} {r : Reading} :
    ofPlaced xs = .ok r ↔ ∃ s, Scan.feed {} xs = .ok s ∧ s.finish = .ok r := by
  unfold ofPlaced
  cases Scan.feed {} xs <;> simp

def relocated (f : Nat → Nat) : Except Problem Reading → Except Problem Reading
  | .error p => .error (p.relocate f)
  | .ok r    => .ok (r.relocate f)

theorem feed_empty_relocate (f : Nat → Nat) (xs : List (Char × Nat)) :
    Scan.feed {} (xs.map fun p => (p.1, f p.2)) = Scan.relocated f (Scan.feed {} xs) :=
  Scan.feed_relocate f xs {}

theorem ofPlaced_relocate (f : Nat → Nat) (xs : List (Char × Nat)) :
    ofPlaced (xs.map fun p => (p.1, f p.2)) = relocated f (ofPlaced xs) := by
  rw [ofPlaced, ofPlaced, feed_empty_relocate]
  cases Scan.feed {} xs with
  | error p => rfl
  | ok s =>
    dsimp only [Scan.relocated]
    rw [Scan.finish_relocate]
    cases s.finish <;> rfl

theorem tokens_relocate (r : Reading) (f : Nat → Nat) : (r.relocate f).tokens = r.tokens := by
  simp [tokens, relocate, Lexeme.relocate]

theorem positions_relocate (r : Reading) (f : Nat → Nat) : (r.relocate f).positions = r.positions.map f := by
  simp [positions, relocate, Lexeme.relocate]

/-- The same characters at other positions are read into the same tokens and spans. -/
theorem ofPlaced_of_map_fst {xs ys : List (Char × Nat)} (h : xs.map Prod.fst = ys.map Prod.fst) {r : Reading}
    (hr : ofPlaced xs = .ok r) : ∃ r', ofPlaced ys = .ok r' ∧ r'.tokens = r.tokens ∧ r'.spans = r.spans := by
  rw [eq_map_zipIdx xs, ofPlaced_relocate (placeOf xs), h] at hr
  rw [eq_map_zipIdx ys, ofPlaced_relocate (placeOf ys)]
  cases h₀ : ofPlaced (ys.map Prod.fst).zipIdx with
  | error p =>
    rw [h₀] at hr
    cases hr
  | ok r₀ =>
    rw [h₀] at hr
    cases hr
    exact ⟨_, rfl, (r₀.tokens_relocate _).trans (r₀.tokens_relocate _).symm, rfl⟩

/-! Moving a position at which no character stands changes nothing in what is read, and so nothing in the outcome: every
position in the outcome is that of a character. -/

def shiftAt (i n : Nat) : Nat :=
  if n = i then n + 1 else n

theorem shiftAt_self (i : Nat) : shiftAt i i = i + 1 :=
  if_pos rfl

section
variable {xs : List (Char × Nat)} {i : Nat}

theorem relocated_shiftAt (h : i ∉ xs.map Prod.snd) : relocated (shiftAt i) (ofPlaced xs) = ofPlaced xs := by
  have hx : (xs.map fun p => (p.1, shiftAt i p.2)) = xs.map id := by
    refine List.map_congr_left fun p hp => ?_
    have hne : p.2 ≠ i := fun e => h (e ▸ List.mem_map_of_mem hp)
    rw [shiftAt, if_neg hne]
    rfl
  rw [← ofPlaced_relocate, hx, List.map_id]

theorem mem_of_ofPlaced_eq_error {p : Problem} (h : ofPlaced xs = .error p) (hi : p.position? = some i) :
    i ∈ xs.map Prod.snd := by
  refine Classical.byContradiction fun hn => ?_
  have hp := relocated_shiftAt hn
  rw [h] at hp
  have he := congrArg Problem.position? (Except.error.inj hp)
  rw [Problem.position?_relocate, hi, Option.map_some, shiftAt_self] at he
  exact Nat.succ_ne_self i (Option.some.inj he)

theorem mem_of_ofPlaced_eq_ok {r : Reading} (h : ofPlaced xs = .ok r) (hi : i ∈ r.positions) :
    i ∈ xs.map Prod.snd := by
  refine Classical.byContradiction fun hn => ?_
  have hr := relocated_shiftAt hn
  rw [h] at hr
  have hl : r.lexemes.map (Lexeme.relocate (shiftAt i)) = r.lexemes := congrArg lexemes (Except.ok.inj hr)
  obtain ⟨l, hm, rfl⟩ := List.mem_map.1 hi
  obtain ⟨k, hk⟩ := List.mem_iff_getElem?.1 hm
  have he := hk
  rw [← hl, List.getElem?_map, hk, Option.map_some, Option.some.injEq] at he
  have he := congrArg Lexeme.pos he
  rw [Lexeme.relocate, shiftAt_self] at he
  exact Nat.succ_ne_self _ he

end

end Reading

/-! ## Corresponding characters -/

/-- In two texts, the same number of visible characters come before the visible characters at `i` and at `j`. -/
def Corresponds (cs ds : List Char) (i j : Nat) : Prop :=
  ∃ k : Nat, (placed cs)[k]?.map Prod.snd = some i ∧ (placed ds)[k]?.map Prod.snd = some j

/-- The same problem, at corresponding characters of two texts. -/
def Problem.Corresponds (cs ds : List Char) (p q : Problem) : Prop :=
  ∃ f : Nat → Nat, q = p.relocate f ∧ ∀ i, p.position? = some i → ExactCalc.Corresponds cs ds i (f i)

/-- The same tokens in the same spans, read from corresponding characters of two texts. -/
def Reading.Corresponds (cs ds : List Char) (r r' : Reading) : Prop :=
  r'.tokens = r.tokens ∧ r'.spans = r.spans ∧
    List.Forall₂ (ExactCalc.Corresponds cs ds) r.positions r'.positions

section
variable {cs ds : List Char}

theorem length_placed (cs : List Char) : (placed cs).length = (visible cs).length := by
  rw [← map_fst_placed, List.length_map]

theorem corresponds_getLast (h : visible cs = visible ds) {c d : Char} {i j : Nat}
    (hi : (placed cs).getLast? = some (c, i)) (hj : (placed ds).getLast? = some (d, j)) : Corresponds cs ds i j := by
  rw [List.getLast?_eq_getElem?] at hi hj
  rw [length_placed, ← h, ← length_placed cs] at hj
  exact ⟨(placed cs).length - 1, by rw [hi, Option.map_some], by rw [hj, Option.map_some]⟩

theorem corresponds_placeOf (h : visible cs = visible ds) {k : Nat} (hk : k ∈ (visible cs).zipIdx.map Prod.snd) :
    Corresponds cs ds (placeOf (placed cs) k) (placeOf (placed ds) k) := by
  rw [List.zipIdx_map_snd, List.mem_range'_1, Nat.zero_add] at hk
  have place {bs : List Char} (hb : (visible bs).length = (visible cs).length) :
      (placed bs)[k]?.map Prod.snd = some (placeOf (placed bs) k) := by
    have hl : k < (placed bs).length := by rw [length_placed, hb]; exact hk.2
    rw [placeOf, List.getElem?_eq_getElem hl]
    rfl
  exact ⟨k, place rfl, place (congrArg List.length h.symm)⟩

/-- The visible characters of a text are those of the text without its blanks, moved. -/
theorem placed_eq_map (cs : List Char) :
    placed cs = (visible cs).zipIdx.map fun p => (p.1, placeOf (placed cs) p.2) := by
  have h := eq_map_zipIdx (placed cs)
  rwa [map_fst_placed] at h

/-- **Texts with the same visible characters are read alike**, if neither is taken to end in its last one. -/
theorem ofPlaced_of_visible_eq (h : visible cs = visible ds) :
    match Reading.ofPlaced (placed cs), Reading.ofPlaced (placed ds) with
    | .ok r,    .ok r'   => r.Corresponds cs ds r'
    | .error p, .error q => p.Corresponds cs ds q
    | _,        _        => False := by
  rw [placed_eq_map cs, placed_eq_map ds, ← h, Reading.ofPlaced_relocate (placeOf (placed cs)),
    Reading.ofPlaced_relocate (placeOf (placed ds))]
  cases hr : Reading.ofPlaced (visible cs).zipIdx with
  | error p =>
    refine ⟨fun _ => placeOf (placed ds) (p.position?.getD 0), ?_, fun i hi => ?_⟩
    · rw [Problem.relocate_relocate]
      refine Problem.relocate_congr fun k hk => ?_
      rw [hk, Option.getD_some]
    · rw [Problem.position?_relocate, Option.map_eq_some_iff] at hi
      obtain ⟨k, hk, rfl⟩ := hi
      rw [hk, Option.getD_some]
      exact corresponds_placeOf h (Reading.mem_of_ofPlaced_eq_error hr hk)
  | ok r =>
    refine ⟨(r.tokens_relocate _).trans (r.tokens_relocate _).symm, rfl, ?_⟩
    rw [Reading.positions_relocate, Reading.positions_relocate, List.forall₂_map_left_iff,
      List.forall₂_map_right_iff, List.forall₂_same]
    exact fun k hk => corresponds_placeOf h (Reading.mem_of_ofPlaced_eq_ok hr hk)

/-! ## A text that ends in an operator -/

namespace Scan

/-- An operator that is the last character of a text stops a run. -/
theorem run_operator_ne_ok (o : Op) : ∀ (bs : List Char) (s s' : Scan) (i : Nat),
    s.run i (bs ++ [o.symbol]) ≠ .ok s'
  | [], s, s', i, h => by
    have hs : s.step i o.symbol true = s.operator i o true := s.step_char i true (.op o)
    rw [List.nil_append, run, List.isEmpty_nil, hs] at h
    cases hp : s.operator i o true with
    | error p => simp [hp] at h
    | ok t =>
      unfold operator at hp
      split at hp <;> simp at hp
  | b :: bs, s, s', i, h => by
    rw [List.cons_append, run] at h
    cases hs : s.step i b (bs ++ [o.symbol]).isEmpty with
    | error p => simp [hs] at h
    | ok t =>
      simp only [hs] at h
      exact run_operator_ne_ok o bs t s' (i + 1) h

theorem reaches_of_run {s : Scan} (h : run {} 0 cs = .ok s) : Reaches cs cs.length s := by
  have hr := (@Reaches.start cs).run List.drop_zero
  rwa [h] at hr

end Scan

/-- A text is cut short at `i` if its last character is an operator at `i` and nothing before it is refused. -/
def CutShort (cs : List Char) (i : Nat) : Prop :=
  ∃ bs o s, cs = bs ++ [Op.symbol o] ∧ i = bs.length ∧ Scan.feed {} (placed cs) = .ok s ∧
    s.lexemes.head? = some ⟨.op o, i⟩

theorem CutShort.ofChars_eq {i : Nat} (h : CutShort cs i) : Reading.ofChars cs = .error (.trailingOperator i) := by
  obtain ⟨bs, o, s, rfl, rfl, hf, -⟩ := h
  rw [← placedFrom_zero] at hf
  unfold Reading.ofChars
  rcases Scan.run_eq_feed (bs ++ [o.symbol]) {} 0 with e | ⟨bs', o', s', hb, -, -, e⟩
  · rw [hf] at e
    exact absurd e (Scan.run_operator_ne_ok o bs {} s 0)
  · have hl := congrArg List.length hb
    simp only [List.length_append, List.length_singleton, Nat.add_right_cancel_iff] at hl
    rw [e, hl, Nat.zero_add]

theorem run_eq_feed_of_not_cutShort (h : ∀ i, ¬CutShort cs i) : Scan.run {} 0 cs = Scan.feed {} (placed cs) := by
  rw [← placedFrom_zero]
  rcases Scan.run_eq_feed cs {} 0 with e | ⟨bs, o, s, hb, hf, hl, -⟩
  · exact e
  · rw [Nat.zero_add] at hl
    exact absurd ⟨bs, o, s, hb, rfl, hf, hl⟩ (h bs.length)

theorem ofChars_of_not_cutShort (h : ∀ i, ¬CutShort cs i) : Reading.ofChars cs = Reading.ofPlaced (placed cs) := by
  rw [Reading.ofChars, run_eq_feed_of_not_cutShort h]
  rfl

theorem CutShort.getLast?_placed {i : Nat} (h : CutShort cs i) :
    ∃ o : Op, cs[i]? = some o.symbol ∧ i + 1 = cs.length ∧ (placed cs).getLast? = some (o.symbol, i) := by
  obtain ⟨bs, o, s, rfl, rfl, -, -⟩ := h
  have hb : isBlank o.symbol = false := (Symbol.op o).isBlank_char
  refine ⟨o, List.getElem?_concat_length, by simp, ?_⟩
  rw [placed_append, placedFrom_cons, hb]
  simp

/-- The innermost parenthesis that is open at the end of a text. -/
def InnermostOpen (cs : List Char) (j : Nat) : Prop :=
  cs[j]? = some '(' ∧ (∀ b, ¬Matched cs j b) ∧ ∀ a, j < a → cs[a]? = some '(' → ∃ b, Matched cs a b

theorem Scan.Reaches.innermostOpen {s : Scan} (h : Reaches cs cs.length s) {o : Opening} {os : List Opening}
    (hp : s.pending = o :: os) : InnermostOpen cs o.pos := by
  have ho : o ∈ s.pending := by
    rw [hp]
    exact List.mem_cons_self
  have hc := h.getElem?_pending ho
  rcases h.located_unmatched_opening hp with ⟨hc', -⟩ | hl
  · rw [hc] at hc'
    cases hc'
  · exact hl

/-- Where two texts drift apart: `cs` ends in an operator, `ds` has blanks after the operator that corresponds to it,
and a parenthesis is open.  Then `cs` has the operator at fault, and `ds` its innermost open parenthesis. -/
def Drift (cs ds : List Char) (p q : Problem) : Prop :=
  ∃ i i' j, p = .trailingOperator i ∧ q = .unmatchedParenthesis j ∧
    (∃ o : Op, cs[i]? = some o.symbol) ∧ i + 1 = cs.length ∧
    Corresponds cs ds i i' ∧ i' + 1 < ds.length ∧ (∀ c ∈ ds.drop (i' + 1), isBlank c = true) ∧
    InnermostOpen ds j

theorem feed_of_visible_eq (h : visible cs = visible ds) {s : Scan} (hf : Scan.feed {} (placed cs) = .ok s) :
    ∃ t, Scan.feed {} (placed ds) = .ok t ∧ t.lexemes.map Lexeme.token = s.lexemes.map Lexeme.token := by
  rw [placed_eq_map cs, Reading.feed_empty_relocate (placeOf (placed cs))] at hf
  rw [placed_eq_map ds, ← h, Reading.feed_empty_relocate (placeOf (placed ds))]
  cases hs : Scan.feed {} (visible cs).zipIdx with
  | error p =>
    rw [hs] at hf
    cases hf
  | ok s₀ =>
    rw [hs] at hf
    cases hf
    exact ⟨_, rfl, by simp [Scan.relocate, Lexeme.relocate]⟩

/-- A text that is cut short, beside one that has the same visible characters and is not. -/
theorem CutShort.ofChars_of_visible_eq (h : visible cs = visible ds) {i : Nat} (hc : CutShort cs i)
    (hd : ∀ i', ¬CutShort ds i') :
    ∃ q, Reading.ofChars ds = .error q ∧
      ((∃ i', Corresponds cs ds i i' ∧ q = .trailingOperator i') ∨ Drift cs ds (.trailingOperator i) q) := by
  obtain ⟨o, hi, hlen, hlast⟩ := hc.getLast?_placed
  obtain ⟨-, x, s, -, -, hf, hl⟩ := hc
  obtain ⟨t, hf', htok⟩ := feed_of_visible_eq h hf
  obtain ⟨i', ls, ht⟩ : ∃ i' ls, t.lexemes = ⟨.op x, i'⟩ :: ls := by
    have hhead := congrArg List.head? htok
    rw [List.head?_map, List.head?_map, hl, Option.map_some, Option.map_eq_some_iff] at hhead
    obtain ⟨⟨u, i'⟩, hm, rfl⟩ := hhead
    exact ⟨i', List.head?_eq_some_iff.1 hm⟩
  have hrun : Scan.run {} 0 ds = .ok t := by rw [run_eq_feed_of_not_cutShort hd, hf']
  have hr := Scan.reaches_of_run hrun
  have hlast' := (hr.previous_eq ht rfl).2
  rw [List.take_length] at hlast'
  have hcorr := corresponds_getLast h hlast hlast'
  have hdi := (mem_placed_iff.1 (List.mem_of_getLast? hlast')).1
  have hlt : i' + 1 < ds.length := by
    obtain ⟨hlt, hget⟩ := List.getElem?_eq_some_iff.1 hdi
    refine Nat.lt_of_le_of_ne hlt fun he => hd i' ⟨ds.take i', x, t, ?_, ?_, hf', by rw [ht]; rfl⟩
    · rw [← hget, List.take_append_getElem hlt, he, List.take_length]
    · rw [List.length_take_of_le (Nat.le_of_lt hlt)]
  have hfin : Reading.ofChars ds = t.finish := by rw [Reading.ofChars, hrun]
  rw [hfin, Scan.finish, ht]
  cases hp : t.pending with
  | nil => exact ⟨_, rfl, .inl ⟨i', hcorr, rfl⟩⟩
  | cons q qs =>
    exact ⟨_, rfl, .inr ⟨i, i', q.pos, rfl, rfl, ⟨o, hi⟩, hlen, hcorr, hlt, isBlank_after_last hlast',
      hr.innermostOpen hp⟩⟩

theorem Problem.corresponds_trailingOperator {i j : Nat} (h : ExactCalc.Corresponds cs ds i j) :
    (trailingOperator i).Corresponds cs ds (trailingOperator j) := by
  refine ⟨fun _ => j, rfl, ?_⟩
  rintro _ ⟨⟩
  exact h

end

theorem Corresponds.symm {cs ds : List Char} {i j : Nat} (h : Corresponds cs ds i j) : Corresponds ds cs j i := by
  obtain ⟨k, hi, hj⟩ := h
  exact ⟨k, hj, hi⟩

/-- **Blanks are only spacing.**  Texts with the same visible characters are read into the same tokens and spans, from
corresponding characters, or are refused for the same problem, at corresponding characters.  They drift apart only if
one of them ends in an operator, the other has blanks after it, and a parenthesis is open. -/
theorem ofString_of_visible_eq {s t : String} (h : visible s.toList = visible t.toList) :
    match Reading.ofString s, Reading.ofString t with
    | .ok r,    .ok r'   => r.Corresponds s.toList t.toList r'
    | .error p, .error q =>
      p.Corresponds s.toList t.toList q ∨ Drift s.toList t.toList p q ∨ Drift t.toList s.toList q p
    | _,        _        => False := by
  unfold Reading.ofString
  by_cases hs : ∃ i, CutShort s.toList i
  · obtain ⟨i, hs⟩ := hs
    rw [hs.ofChars_eq]
    by_cases ht : ∃ j, CutShort t.toList j
    · obtain ⟨j, ht⟩ := ht
      rw [ht.ofChars_eq]
      obtain ⟨_, -, -, hi⟩ := hs.getLast?_placed
      obtain ⟨_, -, -, hj⟩ := ht.getLast?_placed
      exact .inl (Problem.corresponds_trailingOperator (corresponds_getLast h hi hj))
    · obtain ⟨q, hq, ⟨j, hj, rfl⟩ | hdrift⟩ := hs.ofChars_of_visible_eq h (not_exists.1 ht)
      · rw [hq]
        exact .inl (Problem.corresponds_trailingOperator hj)
      · rw [hq]
        exact .inr (.inl hdrift)
  · by_cases ht : ∃ j, CutShort t.toList j
    · obtain ⟨j, ht⟩ := ht
      rw [ht.ofChars_eq]
      obtain ⟨p, hp, ⟨i, hi, rfl⟩ | hdrift⟩ := ht.ofChars_of_visible_eq h.symm (not_exists.1 hs)
      · rw [hp]
        exact .inl (Problem.corresponds_trailingOperator hi.symm)
      · rw [hp]
        exact .inr (.inr hdrift)
    · rw [ofChars_of_not_cutShort (not_exists.1 hs), ofChars_of_not_cutShort (not_exists.1 ht)]
      have hc := ofPlaced_of_visible_eq h
      cases hp : Reading.ofPlaced (placed s.toList) with
      | ok r =>
        cases hq : Reading.ofPlaced (placed t.toList) with
        | ok r'   => rwa [hp, hq] at hc
        | error q => rwa [hp, hq] at hc
      | error p =>
        cases hq : Reading.ofPlaced (placed t.toList) with
        | ok r'   => rwa [hp, hq] at hc
        | error q =>
          rw [hp, hq] at hc
          exact .inl hc

theorem ofString_drift :
    visible "(2+".toList = visible "( 2 + ".toList ∧
      Reading.ofString "(2+" = .error (.trailingOperator 2) ∧
      Reading.ofString "( 2 + " = .error (.unmatchedParenthesis 0) ∧
      Drift "(2+".toList "( 2 + ".toList (.trailingOperator 2) (.unmatchedParenthesis 0) := by
  have hv : visible "(2+".toList = visible "( 2 + ".toList := by decide
  have h₁ : Reading.ofString "(2+" = .error (.trailingOperator 2) := by cbv
  have h₂ : Reading.ofString "( 2 + " = .error (.unmatchedParenthesis 0) := by cbv
  have h := ofString_of_visible_eq hv
  rw [h₁, h₂] at h
  refine ⟨hv, h₁, h₂, ?_⟩
  rcases h with ⟨f, hf, -⟩ | hd | ⟨_, _, _, hp, -⟩
  · cases hf
  · exact hd
  · cases hp

end ExactCalc
