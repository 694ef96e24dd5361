import ExactCalc.Proofs.Feed
import ExactCalc.Proofs.Layout
/-!
# Drafts

A draft is an expression in the course of being read: the groups that are still open, each with the operands before the
one that is being read, and in the innermost group perhaps an operand that may still grow.  A symbol turns a draft into
the next one or does not fit (`Draft.put`), and the state of the scan is a view of the draft (`Draft.scan_put`).
-/
namespace ExactCalc

/-! ## Leads -/

/-- What stands before an operand in its group: a sign at most, or an operand with what leads up to it and a joint. -/
inductive Lead where
  | first (sign : Option Sign)
  | after (lead : Lead) (operand : Operand) (joint : Joint)

namespace Lead

def plug : Lead → Operand → Links → Expr
  | first sign, o, ls  => .mk sign o ls
  | after l x j, o, ls => l.plug x (.cons j o ls)

def write : Lead → List (Char × Nat)
  | first sign  => (sign.map Sign.write).getD []
  | after l x j => l.write ++ x.write ++ j.write

/-- The lexemes of a lead; `next` is the position of the operand after it. -/
def lexemes : Lead → Nat → List Lexeme
  | first sign,  _    => Sign.lexemes sign
  | after l x j, next => l.lexemes x.pos ++ x.lexemes ++ [j.lexeme next]

def size (l : Lead) : Nat :=
  (l.lexemes 0).length

def blocks (depth slot : Nat) : Lead → List (Span × Expr)
  | first _     => []
  | after l x _ => l.blocks depth slot ++ x.blocks depth (slot + l.size)

/-- The rules for what stands before the operand `next`. -/
def WellFormed : Lead → Operand → Prop
  | first _,     _    => True
  | after l x j, next => l.WellFormed x ∧ x.WellFormed ∧ j.Joins x next

/-- A lead that waits for an operand: its last joint is written. -/
def Ready : Lead → Prop
  | first _                 => True
  | after l x (.written ..) => l.WellFormed x ∧ x.WellFormed
  | after _ _ .implied      => False

/-- Whether a number that starts with this digit may not follow. -/
def refuses : Lead → Fin 10 → Bool
  | after _ _ (.written .div _), d => d.val == 0
  | _,                           _ => false

theorem length_lexemes : ∀ (l : Lead) (next : Nat), (l.lexemes next).length = l.size
  | first _,     _ => rfl
  | after _ _ _, _ => by simp [size, lexemes]

theorem size_after (l : Lead) (x : Operand) (j : Joint) : (after l x j).size = l.size + x.lexemes.length + 1 := by
  rw [size, lexemes, List.length_append, List.length_append, length_lexemes]
  rfl

theorem Ready.lexemes_eq : ∀ {l : Lead}, l.Ready → ∀ m n, l.lexemes m = l.lexemes n
  | first _,                  _, _, _ => rfl
  | after _ _ (.written _ _), _, _, _ => rfl

theorem write_plug : ∀ (l : Lead) (o : Operand) (ls : Links), (l.plug o ls).write = l.write ++ o.write ++ ls.write
  | first _,     _, _  => rfl
  | after l x j, o, ls => by simp [plug, write_plug l x, write, Links.write]

theorem lexemes_plug : ∀ (l : Lead) (o : Operand) (ls : Links),
    (l.plug o ls).lexemes = l.lexemes o.pos ++ o.lexemes ++ ls.lexemes
  | first _,     _, _  => by rw [plug, Expr.lexemes, lexemes]
  | after l x j, o, ls => by simp [plug, lexemes_plug l x, lexemes, Links.lexemes]

theorem inner_plug (depth slot : Nat) : ∀ (l : Lead) (o : Operand) (ls : Links),
    (l.plug o ls).inner depth slot =
      l.blocks depth slot ++ o.blocks depth (slot + l.size) ++ ls.blocks depth (slot + l.size + o.lexemes.length)
  | first _,     _, _  => by
    rw [plug, Expr.inner, blocks]
    rfl
  | after l x j, o, ls => by
    rw [plug, inner_plug depth slot l x, blocks, Links.blocks, size_after]
    simp only [List.append_assoc, Nat.add_assoc]

theorem wellFormed_plug : ∀ (l : Lead) (o : Operand) (ls : Links),
    (l.plug o ls).WellFormed ↔ l.WellFormed o ∧ o.WellFormed ∧ ls.WellFormed o
  | first _,     _, _  => by simp [plug, Expr.WellFormed, WellFormed]
  | after l x j, o, ls => by
    simp only [plug, wellFormed_plug l x, WellFormed, Links.WellFormed, and_assoc]

/-! ### What may follow -/

theorem Ready.wellFormed_number {l : Lead} (h : l.Ready) {d : Fin 10} (hd : l.refuses d = false) (i : Nat)
    (ds : List (Fin 10 × Nat)) : l.WellFormed (.number ((d, i) :: ds)) := by
  match l, h with
  | first _, _ => trivial
  | after l x (.written o p), h =>
    refine ⟨h.1, h.2, ?_⟩
    rintro rfl
    exact hd

theorem Ready.wellFormed_group {l : Lead} (h : l.Ready) (i : Nat) (e : Expr) (j : Nat) :
    l.WellFormed (.group i e j) := by
  match l, h with
  | first _, _ => trivial
  | after l x (.written o p), h => exact ⟨h.1, h.2, fun _ => rfl⟩

theorem WellFormed.append_digit {l : Lead} {d : Fin 10 × Nat} {ds : List (Fin 10 × Nat)}
    (h : l.WellFormed (.number (d :: ds))) (es : List (Fin 10 × Nat)) : l.WellFormed (.number (d :: ds ++ es)) := by
  match l, h with
  | first _, _ => trivial
  | after l x (.written o p), h => exact ⟨h.1, h.2.1, h.2.2⟩
  | after l x .implied, h => exact ⟨h.1, h.2.1, h.2.2⟩

theorem WellFormed.not_refuses {l : Lead} {n : Fin 10} {i : Nat} {ds : List (Fin 10 × Nat)}
    (h : l.WellFormed (.number ((n, i) :: ds))) : l.refuses n = false := by
  unfold refuses
  split
  · exact h.2.2 rfl
  · rfl

end Lead

/-! ## Drafts -/

/-- An expression that is being read.  `outer` holds the open groups around the innermost one, nearest first, each by
the lead of the group within it and the position of its parenthesis; `last` is the operand read last, if one may
follow. -/
structure Draft where
  outer : List (Lead × Nat) := []
  lead  : Lead := .first none
  last  : Option Operand := none

namespace Draft

/-- The slot of the first token of the innermost group. -/
def base : List (Lead × Nat) → Nat
  | []           => 0
  | (l, _) :: fs => base fs + l.size + 1

def outerWrite : List (Lead × Nat) → List (Char × Nat)
  | []           => []
  | (l, i) :: fs => outerWrite fs ++ l.write ++ [('(', i)]

def outerLexemes : List (Lead × Nat) → List Lexeme
  | []           => []
  | (l, i) :: fs => outerLexemes fs ++ l.lexemes i ++ [⟨.opening, i⟩]

def outerBlocks : List (Lead × Nat) → List (Span × Expr)
  | []           => []
  | (l, _) :: fs => outerBlocks fs ++ l.blocks fs.length (base fs)

def openings : List (Lead × Nat) → List Opening
  | []           => []
  | (l, i) :: fs => ⟨base ((l, i) :: fs), fs.length + 1, i⟩ :: openings fs

def write (d : Draft) : List (Char × Nat) :=
  outerWrite d.outer ++ d.lead.write ++ (d.last.map Operand.write).getD []

def lexemes (d : Draft) : List Lexeme :=
  match d.last with
  | none   => outerLexemes d.outer ++ d.lead.lexemes 0
  | some o => outerLexemes d.outer ++ d.lead.lexemes o.pos ++ o.lexemes

def blocks (d : Draft) : List (Span × Expr) :=
  outerBlocks d.outer ++ d.lead.blocks d.outer.length (base d.outer) ++
    match d.last with
    | none   => []
    | some o => o.blocks d.outer.length (base d.outer + d.lead.size)

/-- The state of the scan that has read a draft. -/
def scan (d : Draft) : Scan where
  lexemes := d.lexemes.reverse
  pending := openings d.outer
  depth   := d.outer.length
  spans   := .ofList (d.blocks.map Prod.fst)

def WellFormed (d : Draft) : Prop :=
  (∀ f ∈ d.outer, ∀ i e j, f.1.WellFormed (.group i e j)) ∧
    match d.last with
    | none   => d.lead.Ready
    | some o => d.lead.WellFormed o ∧ o.WellFormed

/-- The draft after one more symbol, at position `i`; none if the symbol does not fit. -/
def put (d : Draft) (i : Nat) : Symbol → Option Draft
  | .digit n =>
    match d.last with
    | none               => if d.lead.refuses n then none else some { d with last := some (.number [(n, i)]) }
    | some (.number ds)  => some { d with last := some (.number (ds ++ [(n, i)])) }
    | some (.group a e b) =>
      some { d with lead := .after d.lead (.group a e b) .implied, last := some (.number [(n, i)]) }
  | .op o =>
    match d.last, d.lead with
    | some x, _           => some { d with lead := .after d.lead x (.written o i), last := none }
    | none,   .first none => if o.isMultiplicative then none else some { d with lead := .first (some ⟨o == .sub, i⟩) }
    | none,   _           => none
  | .opening =>
    match d.last with
    | none   => some { outer := (d.lead, i) :: d.outer }
    | some x => some { outer := (.after d.lead x .implied, i) :: d.outer }
  | .closing =>
    match d.last, d.outer with
    | some x, (l, j) :: fs => some { outer := fs, lead := l, last := some (.group j (d.lead.plug x .nil) i) }
    | _,      _            => none

theorem length_outerLexemes : ∀ fs : List (Lead × Nat), (outerLexemes fs).length = base fs
  | []           => rfl
  | (l, i) :: fs => by simp [outerLexemes, base, length_outerLexemes fs, l.length_lexemes, Nat.add_assoc]

theorem length_openings : ∀ fs : List (Lead × Nat), (openings fs).length = fs.length
  | []           => rfl
  | (l, i) :: fs => by simp [openings, length_openings fs]

theorem numeral_append (ds : List (Fin 10 × Nat)) (d : Fin 10) (i : Nat) :
    numeral (ds ++ [(d, i)]) = 10 * numeral ds + d.val := by
  simp [numeral]

theorem write_put {d d' : Draft} {i : Nat} {x : Symbol} (h : d.put i x = some d') :
    d'.write = d.write ++ [(x.char, i)] := by
  obtain ⟨outer, lead, last⟩ := d
  cases x with
  | digit n =>
    cases last with
    | none =>
      simp only [put] at h
      split at h
      · cases h
      · cases h
        simp [write, Operand.write]
    | some y =>
      cases y with
      | number ds =>
        cases h
        simp [write, Operand.write]
      | group a e b =>
        cases h
        simp [write, Operand.write, Lead.write, Joint.write]
  | op o =>
    cases last with
    | some y =>
      cases h
      simp [write, Lead.write, Joint.write, Symbol.char]
    | none =>
      -- only a sign may stand where an operand is expected
      cases lead with
      | after l y j => cases h
      | first sign =>
        cases sign with
        | some s => cases h
        | none =>
          simp only [put] at h
          split at h
          · cases h
          · rename_i ho
            cases h
            cases o with
            | add | sub => simp [write, Lead.write, Sign.write, Sign.char, Symbol.char, Op.symbol]
            | mul | div => simp [Op.isMultiplicative] at ho
  | opening =>
    cases last with
    | none =>
      cases h
      simp [write, outerWrite, Lead.write, Symbol.char]
    | some y =>
      cases h
      simp [write, outerWrite, Lead.write, Joint.write, Symbol.char]
  | closing =>
    cases last with
    | none => cases h
    | some y =>
      cases outer with
      | nil => cases h
      | cons f fs =>
        cases h
        simp [write, outerWrite, Operand.write, Lead.write_plug, Links.write, Symbol.char]

theorem wellFormed_put {d d' : Draft} {i : Nat} {x : Symbol} (hd : d.WellFormed) (h : d.put i x = some d') :
    d'.WellFormed := by
  obtain ⟨outer, lead, last⟩ := d
  obtain ⟨ho, hl⟩ := hd
  match x, last with
  | .digit n, none =>
    simp only [put] at h
    split at h
    · cases h
    · rename_i hr
      cases h
      exact ⟨ho, Lead.Ready.wellFormed_number hl (by simpa using hr) i [], by simp [Operand.WellFormed]⟩
  | .digit n, some (.number (e :: ds)) =>
    cases h
    exact ⟨ho, hl.1.append_digit [(n, i)], by simp [Operand.WellFormed]⟩
  | .digit n, some (.number []) => exact absurd rfl hl.2
  | .digit n, some (.group a e b) =>
    cases h
    exact ⟨ho, ⟨hl.1, hl.2, .inl rfl⟩, by simp [Operand.WellFormed]⟩
  | .op o, some y =>
    cases h
    exact ⟨ho, hl⟩
  | .op o, none =>
    match lead with
    | .first none =>
      simp only [put] at h
      split at h
      · cases h
      · cases h
        exact ⟨ho, trivial⟩
  | .opening, none =>
    cases h
    refine ⟨fun f hf => ?_, trivial⟩
    rcases List.mem_cons.1 hf with rfl | hf
    · exact hl.wellFormed_group
    · exact ho f hf
  | .opening, some y =>
    cases h
    refine ⟨fun f hf => ?_, trivial⟩
    rcases List.mem_cons.1 hf with rfl | hf
    · exact fun _ _ _ => ⟨hl.1, hl.2, .inr rfl⟩
    · exact ho f hf
  | .closing, some y =>
    match outer with
    | (l, j) :: fs =>
      cases h
      refine ⟨fun f hf => ho f (List.mem_cons_of_mem _ hf), ho _ List.mem_cons_self _ _ _, ?_⟩
      exact (lead.wellFormed_plug y .nil).2 ⟨hl.1, hl.2, trivial⟩

/-! ## The scan of a draft -/

theorem ofList_concat (ss : List Span) (s : Span) : SpanTable.ofList (ss ++ [s]) = (SpanTable.ofList ss).record s := by
  rw [SpanTable.ofList, List.foldl_append]
  rfl

theorem numeral_singleton (d : Fin 10) (i : Nat) : numeral [(d, i)] = d.val := by
  simp [numeral]

theorem pending_scan (d : Draft) : d.scan.pending = openings d.outer := rfl

theorem depth_scan (d : Draft) : d.scan.depth = d.outer.length := rfl

/-! The lexeme that the scan looks at, by the form of the draft. -/

theorem lexemes_start : (scan {}).lexemes = [] := rfl

theorem lexemes_opened (l : Lead) (i : Nat) (fs : List (Lead × Nat)) :
    (scan { outer := (l, i) :: fs }).lexemes = ⟨.opening, i⟩ :: (outerLexemes fs ++ l.lexemes i).reverse := by
  simp [scan, lexemes, outerLexemes, Lead.lexemes, Sign.lexemes]

theorem lexemes_signed (fs : List (Lead × Nat)) (s : Sign) :
    (scan ⟨fs, .first (some s), none⟩).lexemes = ⟨.op s.op, s.pos⟩ :: (outerLexemes fs).reverse := by
  simp [scan, lexemes, Lead.lexemes, Sign.lexemes]

theorem lexemes_joined (fs : List (Lead × Nat)) (l : Lead) (x : Operand) (o : Op) (p : Nat) :
    (scan ⟨fs, .after l x (.written o p), none⟩).lexemes =
      ⟨.op o, p⟩ :: (outerLexemes fs ++ l.lexemes x.pos ++ x.lexemes).reverse := by
  simp [scan, lexemes, Lead.lexemes, Joint.lexeme]

theorem lexemes_number (fs : List (Lead × Nat)) (l : Lead) (ds : List (Fin 10 × Nat)) :
    (scan ⟨fs, l, some (.number ds)⟩).lexemes =
      ⟨.num (numeral ds : Rat), (Operand.number ds).pos⟩ ::
        (outerLexemes fs ++ l.lexemes (Operand.number ds).pos).reverse := by
  simp [scan, lexemes, Operand.lexemes]

theorem lexemes_group (fs : List (Lead × Nat)) (l : Lead) (a b : Nat) (e : Expr) :
    (scan ⟨fs, l, some (.group a e b)⟩).lexemes =
      ⟨.closing, b⟩ :: (outerLexemes fs ++ l.lexemes a ++ ⟨.opening, a⟩ :: e.lexemes).reverse := by
  simp [scan, lexemes, Operand.lexemes, Operand.pos]

theorem scan_number {fs : List (Lead × Nat)} {l : Lead} (hl : l.Ready) (n : Fin 10) (i : Nat) :
    (scan ⟨fs, l, none⟩).push (.num (n.val : Rat)) i = scan ⟨fs, l, some (.number [(n, i)])⟩ := by
  simp only [scan, Scan.push, lexemes, blocks, Operand.pos, Operand.lexemes, Operand.blocks, numeral_singleton,
    hl.lexemes_eq i 0, List.reverse_append, List.reverse_singleton, List.singleton_append]

theorem scan_digit {d : Draft} (hd : d.WellFormed) (i : Nat) (n : Fin 10) :
    match d.put i (.digit n) with
    | some d' => d.scan.digit i n = .ok d'.scan
    | none    => ∃ p, d.scan.digit i n = .error p := by
  obtain ⟨fs, l, last⟩ := d
  obtain ⟨ho, hl⟩ := hd
  match last with
  | none =>
    have hn : (scan ⟨fs, l, none⟩).push (.num (n.val : Rat)) i = scan ⟨fs, l, some (.number [(n, i)])⟩ :=
      scan_number hl n i
    simp only [put, Scan.digit]
    match l, hl with
    | .first none, _ =>
      match fs with
      | []           => simp [Lead.refuses, lexemes_start, hn]
      | (l, j) :: fs => simp [Lead.refuses, lexemes_opened, hn]
    | .first (some ⟨b, p⟩), _ =>
      cases b <;> simp [Lead.refuses, lexemes_signed, Sign.op, hn]
    | .after l x (.written o p), _ =>
      cases o with
      | div =>
        rw [lexemes_joined]
        by_cases h : n.val = 0
        · simp [Lead.refuses, h]
        · simp [Lead.refuses, h, hn]
      | add | sub | mul => simp [Lead.refuses, lexemes_joined, hn]
  | some (.number (e :: ds)) =>
    have hr : ((numeral (e :: (ds ++ [(n, i)])) : Nat) : Rat) = 10 * (numeral (e :: ds) : Rat) + (n.val : Rat) := by
      rw [← List.cons_append, numeral_append, Rat.natCast_add, Rat.natCast_mul]
      rfl
    simp [put, Scan.digit, scan, lexemes, blocks, Operand.lexemes, Operand.blocks, Operand.pos, hr]
  | some (.group a e b) =>
    simp [put, Scan.digit, Scan.push, scan, lexemes, blocks, Lead.lexemes, Lead.blocks, Operand.lexemes,
      Operand.blocks, Operand.pos, Joint.lexeme, numeral_singleton]

theorem scan_operator {d : Draft} (hd : d.WellFormed) (i : Nat) (o : Op) :
    match d.put i (.op o) with
    | some d' => d.scan.operator i o false = .ok d'.scan
    | none    => ∃ p, d.scan.operator i o false = .error p := by
  obtain ⟨fs, l, last⟩ := d
  obtain ⟨ho, hl⟩ := hd
  match last with
  | none =>
    match l, hl with
    | .first none, _ =>
      have hs (s : Sign) : (scan ⟨fs, .first none, none⟩).push (.op s.op) s.pos = scan ⟨fs, .first (some s), none⟩ := by
        simp [scan, Scan.push, lexemes, blocks, Lead.lexemes, Lead.blocks, Sign.lexemes]
      match fs with
      | [] => cases o <;> simp [put, Scan.operator, lexemes_start, Op.isMultiplicative, ← hs, Sign.op]
      | (l, j) :: fs => cases o <;> simp [put, Scan.operator, lexemes_opened, Op.isMultiplicative, ← hs, Sign.op]
    | .first (some s), _ => simp [put, Scan.operator, lexemes_signed]
    | .after l x (.written o' p), _ => simp [put, Scan.operator, lexemes_joined]
  | some x =>
    have hs : (scan ⟨fs, l, some x⟩).push (.op o) i = scan ⟨fs, .after l x (.written o i), none⟩ := by
      simp [scan, Scan.push, lexemes, blocks, Lead.lexemes, Lead.blocks, Joint.lexeme]
    cases x with
    | number ds   => simp [put, Scan.operator, lexemes_number, hs]
    | group a e b => simp [put, Scan.operator, lexemes_group, hs]

theorem length_lexemes_none (fs : List (Lead × Nat)) (l : Lead) :
    (scan ⟨fs, l, none⟩).lexemes.length = base fs + l.size := by
  simp [scan, lexemes, length_outerLexemes, l.length_lexemes, Nat.add_comm]

theorem length_lexemes_some (fs : List (Lead × Nat)) (l : Lead) (x : Operand) :
    (scan ⟨fs, l, some x⟩).lexemes.length = base fs + l.size + x.lexemes.length := by
  simp only [scan, lexemes, List.length_reverse, List.length_append, length_outerLexemes, l.length_lexemes]

theorem scan_opening {d : Draft} (hd : d.WellFormed) (i : Nat) :
    ∃ d', d.put i .opening = some d' ∧ d.scan.opening i = d'.scan := by
  obtain ⟨fs, l, last⟩ := d
  obtain ⟨ho, hl⟩ := hd
  match last with
  | none =>
    refine ⟨_, rfl, ?_⟩
    have he : (scan ⟨fs, l, none⟩).enter i = scan { outer := (l, i) :: fs } := by
      simp only [Scan.enter, length_lexemes_none]
      simp [scan, lexemes, blocks, openings, outerLexemes, outerBlocks, base, Lead.lexemes, Lead.blocks, Sign.lexemes,
        Lead.Ready.lexemes_eq hl i 0]
    rw [← he]
    match l, hl with
    | .first none, _ =>
      match fs with
      | []           => rfl
      | (l, j) :: fs => simp [Scan.opening, lexemes_opened]
    | .first (some s), _ => simp [Scan.opening, lexemes_signed]
    | .after l x (.written o' p), _ => simp [Scan.opening, lexemes_joined]
  | some x =>
    refine ⟨_, rfl, ?_⟩
    have he : ((scan ⟨fs, l, some x⟩).push (.op .mul) i).enter i =
        scan { outer := (.after l x .implied, i) :: fs } := by
      simp only [Scan.enter, Scan.push, List.length_cons, length_lexemes_some]
      simp [scan, lexemes, blocks, openings, outerLexemes, outerBlocks, base, Lead.lexemes, Lead.blocks, Sign.lexemes,
        Joint.lexeme, Lead.size_after, Nat.add_assoc]
    rw [← he]
    cases x with
    | number ds   => simp [Scan.opening, lexemes_number]
    | group a e b => simp [Scan.opening, lexemes_group]

theorem scan_closing {d : Draft} (hd : d.WellFormed) (i : Nat) :
    match d.put i .closing with
    | some d' => d.scan.closing i = .ok d'.scan
    | none    => ∃ p, d.scan.closing i = .error p := by
  obtain ⟨fs, l, last⟩ := d
  obtain ⟨ho, hl⟩ := hd
  match fs, last with
  | [], none => simp [put, Scan.closing, scan, openings]
  | [], some x => simp [put, Scan.closing, scan, openings]
  | (l', j) :: fs, none =>
    match l, hl with
    | .first none, _ => simp [put, Scan.closing, lexemes_opened, pending_scan, openings]
    | .first (some s), _ => simp [put, Scan.closing, lexemes_signed, pending_scan, openings]
    | .after l x (.written o' p), _ => simp [put, Scan.closing, lexemes_joined, pending_scan, openings]
  | (l', j) :: fs, some x =>
    have hc : (Scan.closing (scan ⟨(l', j) :: fs, l, some x⟩) i) = .ok
        { lexemes := ⟨.closing, i⟩ :: (scan ⟨(l', j) :: fs, l, some x⟩).lexemes
          pending := openings fs
          depth := fs.length
          spans := (scan ⟨(l', j) :: fs, l, some x⟩).spans.record
            ⟨fs.length + 1, base ((l', j) :: fs), (scan ⟨(l', j) :: fs, l, some x⟩).lexemes.length - 1⟩ } := by
      cases x with
      | number ds   => simp [Scan.closing, lexemes_number, pending_scan, depth_scan, openings]
      | group a e b => simp [Scan.closing, lexemes_group, pending_scan, depth_scan, openings]
    have hx : lexemes ⟨fs, l', some (.group j (l.plug x .nil) i)⟩ =
        lexemes ⟨(l', j) :: fs, l, some x⟩ ++ [⟨.closing, i⟩] := by
      simp [lexemes, outerLexemes, Operand.lexemes, Operand.pos, l.lexemes_plug, Links.lexemes]
    have hb : blocks ⟨fs, l', some (.group j (l.plug x .nil) i)⟩ = blocks ⟨(l', j) :: fs, l, some x⟩ ++
        [((l.plug x .nil).span (fs.length + 1) (base ((l', j) :: fs)), l.plug x .nil)] := by
      simp [blocks, outerBlocks, base, Operand.blocks, l.inner_plug, Links.blocks]
    have hs : (l.plug x .nil).span (fs.length + 1) (base ((l', j) :: fs)) =
        ⟨fs.length + 1, base ((l', j) :: fs), (scan ⟨(l', j) :: fs, l, some x⟩).lexemes.length - 1⟩ := by
      rw [length_lexemes_some, Expr.span, l.lexemes_plug]
      simp [Links.lexemes, l.length_lexemes, Nat.add_assoc]
    simp only [put, hc]
    simp [scan, hx, hb, hs, ofList_concat]

/-- **The scan of a draft follows the draft**: a symbol that fits leads to the scan of the next draft, and one that does
not is a problem. -/
theorem scan_put {d : Draft} (hd : d.WellFormed) (i : Nat) (x : Symbol) :
    match d.put i x with
    | some d' => d.scan.step i x.char false = .ok d'.scan
    | none    => ∃ p, d.scan.step i x.char false = .error p := by
  rw [Scan.step_char]
  cases x with
  | digit n => exact scan_digit hd i n
  | op o    => exact scan_operator hd i o
  | opening =>
    obtain ⟨d', h, e⟩ := scan_opening hd i
    simp [h, e]
  | closing => exact scan_closing hd i

end Draft

end ExactCalc
