import ExactCalc.Proofs.Coherence
import ExactCalc.Proofs.Spacing
import ExactCalc.Proofs.Unplaced
/-!
# The keypad types a stack of symbols

Whatever is pressed, the entry is a stack of symbols, spaced out: a symbol key pushes, `DEL` pops, and the keys that
clear the entry empty it.  The spaces follow one layout (`LaidOut`), and since blanks are only spacing, the entry is
evaluated as the bare symbols are (`frames_typed`).
-/
namespace ExactCalc

/-! ## Blanks in an expression that is explained -/

theorem visible_filter_ne_space (cs : List Char) : visible (cs.filter fun c => c ≠ ' ') = visible cs := by
  rw [visible, List.filter_filter]
  refine List.filter_congr fun c _ => ?_
  by_cases h : c = ' '
  · rw [h]
    decide
  · simp [h]

/-- **Blanks change neither a value nor its working.** -/
theorem explain_of_visible_eq {s t : String} (h : visible s.toList = visible t.toList) {precision : Nat}
    {x : Value × Working} (hx : explain s precision = .ok x) : explain t precision = .ok x := by
  cases hr : Reading.ofString s with
  | error p => simp [explain, hr] at hx
  | ok r =>
    have hmap : (placed s.toList).map Prod.fst = (placed t.toList).map Prod.fst := by
      rw [map_fst_placed, map_fst_placed, h]
    obtain ⟨r', hr', htokens, hspans⟩ :=
      Reading.ofPlaced_of_map_fst hmap (Reading.ofPlaced_eq_ok_iff.2 (ofChars_eq_ok_iff.1 hr))
    have ht : Reading.ofString t = .ok r' := ofChars_eq_ok_iff.2 (Reading.ofPlaced_eq_ok_iff.1 hr')
    rw [← mapError_unplaced_eq_ok_iff, explain_unplaced hr ht htokens hspans, hx]
    rfl

/-! ## The layout of an entry -/

/-- How the keypad lays out symbols: single spaces between them, none at the start, and one at the end only after an
operator. -/
structure LaidOut (cs : List Char) (typed : List Symbol) : Prop where
  symbols : cs.filter (fun c => c ≠ ' ') = typed.map Symbol.char
  first   : cs.head? ≠ some ' '
  single  : ¬[' ', ' '] <:+: cs
  last    : cs.getLast? = some ' ' → ∃ o : Op, [o.symbol, ' '] <:+ cs

theorem Symbol.char_ne_space (s : Symbol) : s.char ≠ ' ' := by
  intro h
  have hb := s.isBlank_char
  rw [h] at hb
  exact absurd hb (by decide)

namespace Entry

/-- The entry holds the symbols of a stack, its top at the end, and every space in it stands after another character. -/
structure Holds (e : Entry) (stack : List Symbol) : Prop where
  symbols : e.reversed.filter (fun c => c ≠ ' ') = stack.map Symbol.char
  spaced  : ∀ cs, ' ' :: cs <:+ e.reversed → ∃ c, cs.head? = some c ∧ c ≠ ' '

/-- A space at the end of the entry stands after an operator. -/
def Rests (e : Entry) : Prop :=
  ∀ cs, e.reversed = ' ' :: cs → ∃ o : Op, cs.head? = some o.symbol

/-- What is true of the entry between two keys; in the middle of one it may end in any space. -/
structure Typed (e : Entry) (stack : List Symbol) : Prop where
  holds : e.Holds stack
  rests : e.Rests

theorem typed_empty : empty.Typed [] := by
  refine ⟨⟨rfl, fun cs hcs => ?_⟩, ?_⟩
  · cases List.suffix_nil.1 hcs
  · rintro _ ⟨⟩

theorem rests_of_head? {e : Entry} (h : e.reversed.head? ≠ some ' ') : e.Rests := by
  intro cs hcs
  rw [hcs] at h
  exact absurd rfl h

theorem rests_push (e : Entry) (s : Symbol) : (e.push s.char).Rests :=
  rests_of_head? fun h => s.char_ne_space (Option.some.inj h)

theorem head?_dropSpaces (e : Entry) : e.dropSpaces.reversed.head? ≠ some ' ' := by
  intro h
  have hn := List.head?_dropWhile_not (fun c => c == ' ') e.reversed
  rw [show e.reversed.dropWhile (fun c => c == ' ') = e.dropSpaces.reversed from rfl, h] at hn
  exact absurd hn (by decide)

theorem filter_dropWhile_space : ∀ cs : List Char,
    (cs.dropWhile fun c => c == ' ').filter (fun c => c ≠ ' ') = cs.filter fun c => c ≠ ' '
  | []      => rfl
  | c :: cs => by
    by_cases h : c = ' '
    · rw [List.dropWhile_cons_of_pos (by simpa using h), List.filter_cons_of_neg (by simpa using h),
        filter_dropWhile_space cs]
    · rw [List.dropWhile_cons_of_neg (by simpa using h)]

section
variable {e : Entry} {stack : List Symbol}

theorem Holds.push (h : e.Holds stack) (s : Symbol) : (e.push s.char).Holds (s :: stack) := by
  refine ⟨?_, fun cs hcs => ?_⟩
  · rw [Entry.push, List.filter_cons_of_pos (by simpa using s.char_ne_space), h.symbols, List.map_cons]
  · rcases List.suffix_cons_iff.1 hcs with hcs | hcs
    · exact absurd (List.cons.inj hcs).1.symm s.char_ne_space
    · exact h.spaced cs hcs

theorem Holds.pushSpace (h : e.Holds stack) {c : Char} (hc : e.reversed.head? = some c) (hne : c ≠ ' ') :
    (e.push ' ').Holds stack := by
  refine ⟨?_, fun cs hcs => ?_⟩
  · rw [Entry.push, List.filter_cons_of_neg (by decide), h.symbols]
  · rcases List.suffix_cons_iff.1 hcs with hcs | hcs
    · exact ⟨c, (List.cons.inj hcs).2 ▸ hc, hne⟩
    · exact h.spaced cs hcs

theorem Holds.dropSpaces (h : e.Holds stack) : e.dropSpaces.Holds stack := by
  refine ⟨?_, fun cs hcs => h.spaced cs (hcs.trans (List.dropWhile_suffix _))⟩
  rw [Entry.dropSpaces, filter_dropWhile_space, h.symbols]

theorem Holds.tail (h : e.Holds stack) (hh : e.reversed.head? ≠ some ' ') :
    (Entry.mk e.reversed.tail).Holds stack.tail := by
  refine ⟨?_, fun cs hcs => h.spaced cs (hcs.trans (List.tail_suffix _))⟩
  have hs := h.symbols
  cases hr : e.reversed with
  | nil =>
    rw [hr] at hs
    rw [List.map_eq_nil_iff.1 hs.symm]
    rfl
  | cons c cs =>
    rw [hr] at hh hs
    have hc : c ≠ ' ' := fun hc => hh (by rw [hc]; rfl)
    rw [List.filter_cons_of_pos (by simpa using hc)] at hs
    rw [List.tail_cons, List.map_tail, ← hs, List.tail_cons]

/-- What a `(` needs a space after is at the very end of the entry. -/
theorem Rests.head?_of_endsOperand (h : e.Rests) (he : e.endsOperand = true) :
    ∃ c, e.reversed.head? = some c ∧ c ≠ ' ' := by
  cases hr : e.reversed with
  | nil => simp [endsOperand, hr] at he
  | cons c cs =>
    refine ⟨c, rfl, ?_⟩
    rintro rfl
    obtain ⟨o, ho⟩ := h cs hr
    obtain ⟨cs', rfl⟩ := List.head?_eq_some_iff.1 ho
    have hblank : isBlank o.symbol = false := (Symbol.op o).isBlank_char
    have hfind : e.reversed.find? (fun c => !isBlank c) = some o.symbol := by
      rw [hr, List.find?_cons_of_neg (by decide), List.find?_cons_of_pos (by simpa using hblank)]
    rw [endsOperand, hfind] at he
    cases o <;> exact absurd he (by decide)

theorem Holds.typed_push (h : e.Holds stack) (s : Symbol) : (e.push s.char).Typed (s :: stack) :=
  ⟨h.push s, e.rests_push s⟩

theorem Holds.typed_pushOperator (h : e.Holds stack) (o : Op) :
    ((e.push o.symbol).push ' ').Typed (.op o :: stack) := by
  refine ⟨(h.push (.op o)).pushSpace rfl (Symbol.op o).char_ne_space, ?_⟩
  rintro cs hcs
  obtain rfl := (List.cons.inj hcs).2
  exact ⟨o, rfl⟩

/-- **A symbol key pushes its symbol.** -/
theorem Typed.press (h : e.Typed stack) : ∀ s : Symbol, (e.press s).Typed (s :: stack)
  | .digit d => h.holds.typed_push (.digit d)
  | .closing => h.holds.dropSpaces.typed_push .closing
  | .opening => by
    rw [Entry.press]
    split
    · rename_i he
      obtain ⟨c, hc, hne⟩ := h.rests.head?_of_endsOperand he
      exact (h.holds.pushSpace hc hne).typed_push .opening
    · exact h.holds.typed_push .opening
  | .op o => by
    rw [Entry.press]
    split
    · exact h.holds.dropSpaces.typed_pushOperator o
    · rename_i he
      cases hr : e.dropSpaces.reversed with
      | nil => simp [expectsSign, hr] at he
      | cons c cs =>
        have hne : c ≠ ' ' := fun hc => e.head?_dropSpaces (by rw [hr, hc]; rfl)
        exact (h.holds.dropSpaces.pushSpace (by rw [hr]; rfl) hne).typed_pushOperator o

/-- **`DEL` pops a symbol**, if there is one. -/
theorem Typed.deleteLast (h : e.Typed stack) : e.deleteLast.Typed stack.tail :=
  ⟨(h.holds.dropSpaces.tail e.head?_dropSpaces).dropSpaces, rests_of_head? (head?_dropSpaces _)⟩

/-- The layout, read from the start of the text. -/
theorem Typed.laidOut (h : e.Typed stack) : LaidOut e.text.toList stack.reverse := by
  rw [text, String.toList_ofList]
  refine ⟨?_, fun hf => ?_, fun hs => ?_, fun hl => ?_⟩
  · rw [List.filter_reverse, h.holds.symbols, List.map_reverse]
  · rw [List.head?_reverse] at hf
    obtain ⟨cs, hcs⟩ := List.getLast?_eq_some_iff.1 hf
    obtain ⟨c, hc, -⟩ := h.holds.spaced [] ⟨cs, hcs.symm⟩
    cases hc
  · obtain ⟨before, after, hs⟩ : [' ', ' '] <:+: e.reversed := List.reverse_infix.1 hs
    obtain ⟨c, hc, hne⟩ := h.holds.spaced (' ' :: after) ⟨before, by simpa using hs⟩
    exact hne (Option.some.inj hc).symm
  · rw [List.getLast?_reverse] at hl
    obtain ⟨cs, hcs⟩ := List.head?_eq_some_iff.1 hl
    obtain ⟨o, ho⟩ := h.rests cs hcs
    obtain ⟨cs', rfl⟩ := List.head?_eq_some_iff.1 ho
    exact ⟨o, cs'.reverse, by simp [hcs]⟩

end

end Entry

/-! ## Runs of the window -/

namespace Calculator

/-- What a gesture does to a stack of symbols, its top first. -/
def Gesture.stack (stack : List Symbol) : Gesture → List Symbol
  | .escape | .click .clearEntry | .click .reset => []
  | .click .deleteLast                           => stack.tail
  | .click (.symbol s)                           => s :: stack
  | _                                            => stack

theorem entry_dial (c : Calculator) (n : Nat) : (c.dial n).entry = c.entry := by
  unfold dial
  split <;> rfl

/-- **One gesture does to the entry what it does to the stack.** -/
theorem typed_frame {c : Calculator} {stack : List Symbol} (h : c.entry.Typed stack) :
    ∀ g : Gesture, (c.frame g).entry.Typed (g.stack stack)
  | .nothing => h
  | .escape  => Entry.typed_empty
  | .enter   => by
    rw [frame, entry_evaluateEntry]
    exact h
  | .dial n  => by
    rw [frame, entry_dial]
    exact h
  | .click b => by
    cases b with
    | clearEntry | reset => exact Entry.typed_empty
    | clearResults => exact h
    | deleteLast => exact h.deleteLast
    | symbol s => exact h.press s
    | equals =>
      rw [frame, click, entry_evaluateEntry]
      exact h

theorem typed_frames : ∀ (gs : List Gesture) {c : Calculator} {stack : List Symbol}, c.entry.Typed stack →
    (gs.foldl frame c).entry.Typed (gs.foldl Gesture.stack stack)
  | [],      _, _, h => h
  | g :: gs, _, _, h => typed_frames gs (typed_frame h g)

/-- **The keypad types a stack of symbols.**  After any gestures the entry is what they do to a stack, laid out with
spaces, and `=` shows what the bare symbols come to: a problem if they have one, else their value and their working. -/
theorem frames_typed (n : Nat) (gs : List Gesture) :
    let c := gs.foldl frame (ofPrecision n)
    let typed := (gs.foldl Gesture.stack []).reverse
    let bare := String.ofList (typed.map Symbol.char)
    let shown := c.frame (.click .equals)
    LaidOut c.entry.text.toList typed ∧
      (∀ x, explain c.entry.text c.precision = .ok x ↔ explain bare c.precision = .ok x) ∧
      (shown.error = "" ↔ ∃ x, explain bare c.precision = .ok x) ∧
      ∀ v w, explain bare c.precision = .ok (v, w) → shown.result = v.text ∧ shown.working = w := by
  intro c typed bare shown
  have htyped : c.entry.Typed (gs.foldl Gesture.stack []) := typed_frames gs Entry.typed_empty
  have hlaid : LaidOut c.entry.text.toList typed := htyped.laidOut
  have hvisible : visible c.entry.text.toList = visible bare.toList := by
    rw [← visible_filter_ne_space, hlaid.symbols, String.toList_ofList]
  have hexplain (x : Value × Working) :
      explain c.entry.text c.precision = .ok x ↔ explain bare c.precision = .ok x :=
    ⟨explain_of_visible_eq hvisible, explain_of_visible_eq hvisible.symm⟩
  have hshown : c.Displays shown (some c.evaluationOutcome) := c.displays_act (.frame (.click .equals))
  refine ⟨hlaid, hexplain, ⟨fun he => ?_, fun ⟨x, hx⟩ => ?_⟩, fun v w hx => ?_⟩
  · cases hx : explain c.entry.text c.precision with
    | ok x => exact ⟨x, (hexplain x).1 hx⟩
    | error p =>
      rw [evaluationOutcome_of_error hx] at hshown
      exact absurd he hshown.2.1
  · rw [evaluationOutcome_of_ok ((hexplain x).2 hx)] at hshown
    exact hshown.2.1
  · rw [evaluationOutcome_of_ok ((hexplain (v, w)).2 hx)] at hshown
    exact ⟨hshown.1, hshown.2.2⟩

example : ([.click (.symbol (.digit 2)), .click (.symbol .opening), .click (.symbol (.op .mul)), .enter,
    .click .deleteLast, .click (.symbol (.op .sub))].foldl frame (ofPrecision 30)).entry.text = "2 (- " := by
  decide +kernel

end Calculator

end ExactCalc
