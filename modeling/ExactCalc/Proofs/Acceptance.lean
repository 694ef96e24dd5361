import ExactCalc.Proofs.Draft
import ExactCalc.Proofs.Relocation
/-!
# Which texts are read

Soundness: a draft has been read from exactly its written form, so what is accepted spells an expression.  Completeness:
the written form of a well-formed expression leads from the empty draft to the expression.  Together they fix the result
of reading a text (`ofChars_eq_ok_iff_spells`), and no text spells two expressions (`Expr.Spells.unique`).  Positions do
not matter for acceptance: a text is read exactly if the grammar derives its visible characters.
-/
namespace ExactCalc
namespace Draft

/-- The draft after characters at the given positions, if they all fit. -/
def read (d : Draft) : List (Char × Nat) → Option Draft
  | []           => some d
  | (c, i) :: xs => (Symbol.ofChar? c).bind fun x => (d.put i x).bind fun d' => d'.read xs

theorem read_cons (d : Draft) (x : Symbol) (i : Nat) (xs : List (Char × Nat)) :
    d.read ((x.char, i) :: xs) = (d.put i x).bind fun d' => d'.read xs := by
  rw [read, Symbol.ofChar?_char]
  rfl

theorem read_append (d : Draft) : ∀ xs ys : List (Char × Nat),
    d.read (xs ++ ys) = (d.read xs).bind fun d' => d'.read ys
  | [],           _  => rfl
  | (c, i) :: xs, ys => by
    rw [List.cons_append, read, read]
    cases Symbol.ofChar? c with
    | none => rfl
    | some x =>
      simp only [Option.bind_some]
      cases d.put i x with
      | none    => rfl
      | some d' => exact read_append d' xs ys

/-! ## Soundness -/

theorem write_read : ∀ {xs : List (Char × Nat)} {d d' : Draft}, d.read xs = some d' → d'.write = d.write ++ xs
  | [],           _, _,  h => by
    cases h
    rw [List.append_nil]
  | (c, i) :: xs, d, d', h => by
    obtain ⟨x, hx, h⟩ := Option.bind_eq_some_iff.1 h
    obtain ⟨d₁, h₁, h⟩ := Option.bind_eq_some_iff.1 h
    rw [write_read h, write_put h₁, Symbol.ofChar?_eq_some_iff.1 hx, List.append_assoc, List.singleton_append]

theorem wellFormed_read : ∀ {xs : List (Char × Nat)} {d d' : Draft}, d.WellFormed → d.read xs = some d' → d'.WellFormed
  | [],           _, _,  hd, h => by
    cases h
    exact hd
  | (c, i) :: xs, d, d', hd, h => by
    obtain ⟨x, -, h⟩ := Option.bind_eq_some_iff.1 h
    obtain ⟨d₁, h₁, h⟩ := Option.bind_eq_some_iff.1 h
    exact wellFormed_read (wellFormed_put hd h₁) h

theorem wellFormed_empty : WellFormed {} :=
  ⟨fun _ h => (List.not_mem_nil h).elim, trivial⟩

theorem feed_scan : ∀ {xs : List (Char × Nat)} {d : Draft}, d.WellFormed → (∀ p ∈ xs, isBlank p.1 = false) →
    match d.read xs with
    | some d' => d.scan.feed xs = .ok d'.scan
    | none    => ∃ p, d.scan.feed xs = .error p
  | [],           _, _,  _  => rfl
  | (c, i) :: xs, d, hd, hx => by
    rw [read, Scan.feed]
    cases hc : Symbol.ofChar? c with
    | none =>
      have hb : isBlank c = false := hx _ List.mem_cons_self
      exact ⟨.invalidCharacter i c, by simp [Scan.step, hb, hc]⟩
    | some x =>
      rw [Symbol.ofChar?_eq_some_iff.1 hc]
      have h := scan_put hd i x
      cases hp : d.put i x with
      | none =>
        rw [hp] at h
        obtain ⟨p, h⟩ := h
        simp [h, hp]
      | some d₁ =>
        rw [hp] at h
        simp only [h, Option.bind_some, hp]
        exact feed_scan (wellFormed_put hd hp) fun p hp => hx p (List.mem_cons_of_mem _ hp)

/-- Only a draft without open groups and without a waiting operator is finished, and it is then a whole expression. -/
theorem finish_scan {d : Draft} (hd : d.WellFormed) {r : Reading} :
    d.scan.finish = .ok r ↔ ∃ l o, d = ⟨[], l, some o⟩ ∧ r = (l.plug o .nil).reading := by
  obtain ⟨fs, l, last⟩ := d
  obtain ⟨ho, hl⟩ := hd
  match fs, last with
  | [], none =>
    match l, hl with
    | .first none, _              => simp [Scan.finish, lexemes_start]
    | .first (some s), _          => simp [Scan.finish, lexemes_signed, pending_scan, openings]
    | .after l x (.written o p), _ => simp [Scan.finish, lexemes_joined, pending_scan, openings]
  | (l', j) :: fs, last =>
    have hp : (scan ⟨(l', j) :: fs, l, last⟩).pending ≠ [] := List.cons_ne_nil _ _
    unfold Scan.finish
    split <;> simp_all
  | [], some o =>
    have hr : (scan ⟨[], l, some o⟩).finish = .ok (l.plug o .nil).reading := by
      have hx : lexemes ⟨[], l, some o⟩ = (l.plug o .nil).lexemes := by
        simp [lexemes, outerLexemes, l.lexemes_plug, Links.lexemes]
      have hb : blocks ⟨[], l, some o⟩ = (l.plug o .nil).inner 0 0 := by
        simp [blocks, outerBlocks, base, l.inner_plug, Links.blocks]
      have hf : (scan ⟨[], l, some o⟩).finish = .ok ⟨(scan ⟨[], l, some o⟩).lexemes.reverse,
          (scan ⟨[], l, some o⟩).spans.record ⟨0, 0, (scan ⟨[], l, some o⟩).lexemes.length - 1⟩⟩ := by
        cases o with
        | number ds   => simp [Scan.finish, lexemes_number, pending_scan, openings]
        | group a e b => simp [Scan.finish, lexemes_group, pending_scan, openings]
      rw [hf]
      simp [scan, hx, hb, Expr.reading, Expr.blocks, Expr.span, ofList_concat]
    rw [hr]
    constructor
    · intro h
      cases h
      exact ⟨l, o, rfl, rfl⟩
    · rintro ⟨l', o', e, rfl⟩
      cases e
      rfl

/-! ## Completeness -/

/-- An operand that needs no written joint after a parenthesis can be read as if the implied `*` were there. -/
theorem read_implied {x : Operand} {s : Symbol} (hs : (∃ n, s = .digit n ∧ x.isGroup = true) ∨ s = .opening)
    (fs : List (Lead × Nat)) (l : Lead) (i : Nat) (xs : List (Char × Nat)) :
    read ⟨fs, l, some x⟩ ((s.char, i) :: xs) = read ⟨fs, .after l x .implied, none⟩ ((s.char, i) :: xs) := by
  rw [read_cons, read_cons]
  rcases hs with ⟨n, rfl, hx⟩ | rfl
  · cases x with
    | number ds   => cases hx
    | group a e b => rfl
  · rfl

theorem read_digits (fs : List (Lead × Nat)) (l : Lead) : ∀ ds es : List (Fin 10 × Nat),
    read ⟨fs, l, some (.number es)⟩ (ds.map fun d => ((Symbol.digit d.1).char, d.2)) =
      some ⟨fs, l, some (.number (es ++ ds))⟩
  | [],           es => by
    rw [List.append_nil]
    rfl
  | (n, i) :: ds, es => by
    rw [List.map_cons, read_cons]
    simp only [put, Option.bind_some]
    rw [read_digits fs l ds (es ++ [(n, i)]), List.append_assoc, List.singleton_append]

mutual
theorem read_operand (fs : List (Lead × Nat)) : ∀ (l : Lead) (o : Operand), l.WellFormed o → o.WellFormed →
    read ⟨fs, l, none⟩ o.write = some ⟨fs, l, some o⟩
  | _, .number [],             _,  ho => absurd rfl ho
  | l, .number ((n, i) :: ds), hl, _  => by
    rw [Operand.write, List.map_cons, read_cons]
    simp only [put, hl.not_refuses, Bool.false_eq_true, ↓reduceIte, Option.bind_some]
    exact read_digits fs l ds [(n, i)]
  | l, .group i e j,           hl, ho => by
    obtain ⟨l', o', he, hr⟩ := read_expr ((l, i) :: fs) e ho
    have h : read ⟨fs, l, none⟩ (('(', i) :: (e.write ++ [(')', j)])) =
        (read { outer := (l, i) :: fs } e.write).bind fun d' => d'.read [(')', j)] := by
      rw [show '(' = Symbol.opening.char from rfl, read_cons]
      simp only [put, Option.bind_some, read_append]
    rw [Operand.write, List.cons_append, h, hr, he]
    rfl

theorem read_expr (fs : List (Lead × Nat)) : ∀ e : Expr, e.WellFormed →
    ∃ l o, e = l.plug o .nil ∧ read { outer := fs } e.write = some ⟨fs, l, some o⟩
  | .mk none first rest, he => by
    obtain ⟨l, o, h, hr⟩ := read_links fs (.first none) first rest trivial he.1 he.2
    refine ⟨l, o, h, ?_⟩
    rw [Expr.write, read_append, Option.map_none, Option.getD_none, List.nil_append,
      read_operand fs (.first none) first trivial he.1, Option.bind_some, hr]
  | .mk (some s) first rest, he => by
    obtain ⟨l, o, h, hr⟩ := read_links fs (.first (some s)) first rest trivial he.1 he.2
    refine ⟨l, o, h, ?_⟩
    have hs : read { outer := fs } [(s.char, s.pos)] = some ⟨fs, .first (some s), none⟩ := by
      rw [← s.symbol_op, show s.op.symbol = (Symbol.op s.op).char from rfl, read_cons]
      obtain ⟨b, p⟩ := s
      cases b <;> rfl
    rw [Expr.write, read_append, read_append, Option.map_some, Option.getD_some, Sign.write, hs, Option.bind_some,
      read_operand fs (.first (some s)) first trivial he.1, Option.bind_some, hr]

theorem read_links (fs : List (Lead × Nat)) : ∀ (l : Lead) (x : Operand) (ls : Links), l.WellFormed x → x.WellFormed →
    ls.WellFormed x → ∃ l' o, l.plug x ls = l'.plug o .nil ∧ read ⟨fs, l, some x⟩ ls.write = some ⟨fs, l', some o⟩
  | l, x, .nil,         _,  _,  _  => ⟨l, x, rfl, rfl⟩
  | l, x, .cons j o ls, hl, hx, hs => by
    obtain ⟨hj, ho, hs⟩ := hs
    have hw : (Lead.after l x j).WellFormed o := ⟨hl, hx, hj⟩
    obtain ⟨l', o', h, hr⟩ := read_links fs (.after l x j) o ls hw ho hs
    have hread : read ⟨fs, l, some x⟩ (j.write ++ o.write) = some ⟨fs, .after l x j, some o⟩ := by
      rw [← read_operand fs (.after l x j) o hw ho]
      cases j with
      | written p i => exact read_cons ⟨fs, l, some x⟩ (.op p) i o.write
      | implied =>
        match o, hj, ho with
        | .number [],             _,       ho => exact absurd rfl ho
        | .number ((n, i) :: ds), .inl hg, _  => exact read_implied (.inl ⟨n, rfl, hg⟩) fs l i _
        | .group i e k,           _,       _  => exact read_implied (.inr rfl) fs l i _
    refine ⟨l', o', h, ?_⟩
    rw [Links.write, read_append, hread, Option.bind_some, hr]
end

theorem not_isBlank_of_read : ∀ {xs : List (Char × Nat)} {d d' : Draft}, d.read xs = some d' →
    ∀ p ∈ xs, isBlank p.1 = false
  | (c, i) :: xs, d, d', h, p, hp => by
    obtain ⟨x, hx, h⟩ := Option.bind_eq_some_iff.1 h
    obtain ⟨d₁, -, h⟩ := Option.bind_eq_some_iff.1 h
    rcases List.mem_cons.1 hp with rfl | hp
    · rw [Symbol.ofChar?_eq_some_iff.1 hx]
      exact x.isBlank_char
    · exact not_isBlank_of_read h p hp

/-- The written form of an expression, at any positions, is read into the reading of the expression. -/
theorem feed_write {e : Expr} (he : e.WellFormed) : ∃ s, Scan.feed {} e.write = .ok s ∧ s.finish = .ok e.reading := by
  obtain ⟨l, o, h, hr⟩ := read_expr [] e he
  have hf := feed_scan wellFormed_empty (not_isBlank_of_read hr)
  have hw := wellFormed_read wellFormed_empty hr
  rw [hr] at hf
  exact ⟨_, hf, (finish_scan hw).2 ⟨l, o, rfl, by rw [h]⟩⟩

theorem accepts_write {e : Expr} (he : e.WellFormed) : Scan.Accepts e.write := by
  obtain ⟨s, hf, hs⟩ := feed_write he
  exact ⟨s, e.reading, hf, hs⟩

end Draft

/-! ## What reading a text gives -/

theorem spells_iff_read {e : Expr} {cs : List Char} :
    e.Spells cs ↔ ∃ l o, e = l.plug o .nil ∧ Draft.read {} (placed cs) = some ⟨[], l, some o⟩ := by
  constructor
  · rintro ⟨hw, h⟩
    rw [← h]
    exact Draft.read_expr [] e hw
  · rintro ⟨l, o, rfl, h⟩
    have hw := Draft.wellFormed_read Draft.wellFormed_empty h
    have h := Draft.write_read h
    refine ⟨(l.wellFormed_plug o .nil).2 ⟨hw.2.1, hw.2.2, trivial⟩, ?_⟩
    simpa [Draft.write, Draft.outerWrite, Lead.write, l.write_plug, Links.write] using h

/-- **No text spells two expressions.** -/
theorem Expr.Spells.unique {e e' : Expr} {cs : List Char} (h : e.Spells cs) (h' : e'.Spells cs) : e = e' := by
  obtain ⟨l, o, rfl, hr⟩ := spells_iff_read.1 h
  obtain ⟨l', o', rfl, hr'⟩ := spells_iff_read.1 h'
  rw [hr] at hr'
  cases hr'
  rfl

/-- **A text is read into the reading of the expression that it spells**, and is refused if it spells none. -/
theorem ofChars_eq_ok_iff_spells {cs : List Char} {r : Reading} :
    Reading.ofChars cs = .ok r ↔ ∃ e : Expr, e.Spells cs ∧ r = e.reading := by
  have hb : ∀ p ∈ placed cs, isBlank p.1 = false := fun _ => not_isBlank_of_mem_placed
  have hf := Draft.feed_scan Draft.wellFormed_empty hb
  have h₀ : (Draft.scan {}) = {} := rfl
  rw [ofChars_eq_ok_iff]
  rw [h₀] at hf
  simp only [spells_iff_read]
  cases hd : Draft.read {} (placed cs) with
  | none =>
    rw [hd] at hf
    obtain ⟨p, hf⟩ := hf
    simp [hf]
  | some d =>
    rw [hd] at hf
    have hw := Draft.wellFormed_read Draft.wellFormed_empty hd
    simp only [hf, Except.ok.injEq, exists_eq_left', Draft.finish_scan hw, Option.some.injEq]
    constructor
    · rintro ⟨l, o, rfl, rfl⟩
      exact ⟨_, ⟨l, o, rfl, rfl⟩, rfl⟩
    · rintro ⟨e, ⟨l, o, rfl, rfl⟩, rfl⟩
      exact ⟨l, o, rfl, rfl⟩

/-- **The scan accepts exactly its grammar**: a text is read if and only if its visible characters are those of the
written form of a well-formed expression. -/
theorem ofString_isOk_iff_derivable (text : String) :
    (∃ r, Reading.ofString text = .ok r) ↔
      ∃ e : Expr, e.WellFormed ∧ e.write.map Prod.fst = visible text.toList := by
  constructor
  · rintro ⟨r, h⟩
    obtain ⟨e, ⟨hw, hs⟩, -⟩ := ofChars_eq_ok_iff_spells.1 h
    refine ⟨e, hw, ?_⟩
    rw [hs, map_fst_placed]
  · rintro ⟨e, hw, hv⟩
    exact (exists_ofChars_iff_of_map_fst hv).2 (Draft.accepts_write hw)

end ExactCalc
