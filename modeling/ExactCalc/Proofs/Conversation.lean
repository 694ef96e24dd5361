import Mathlib
import ExactCalc.Session
/-!
# Sessions on joined inputs

A session is held line by line, and nothing is carried from one line to the next.  So an input whose first part ends with
a line feed gives the session on that part, with the session on the rest in place of its end, unless the first part has
a line that ends the session; then the rest is not read (`Session.run_append`).
-/
namespace ExactCalc

/-! ## Lines -/

/-- A line less the carriage return at its end, if there is one. -/
def dropReturn (line : List UInt8) : List UInt8 :=
  if line.getLast? = some 13 then line.dropLast else line

/-- The lines of the pieces between line feeds: each piece but the last was ended by one, and the last is a line only if
it is not empty. -/
def linesOfPieces : List (List UInt8) → List (List UInt8)
  | []                      => []
  | [last]                  => if last = [] then [] else [last]
  | piece :: next :: pieces => dropReturn piece :: linesOfPieces (next :: pieces)

/-- The lines that a byte sequence is cut into at its line feeds. -/
def cutLines (bs : List UInt8) : List (List UInt8) :=
  linesOfPieces (bs.splitOn 10)

theorem linesOfPieces_append : ∀ (xs : List (List UInt8)) {ys : List (List UInt8)}, ys ≠ [] →
    linesOfPieces (xs ++ ys) = xs.map dropReturn ++ linesOfPieces ys
  | [],      _,  _ => rfl
  | x :: xs, ys, h => by
    obtain ⟨z, zs, hz⟩ := List.exists_cons_of_ne_nil (List.append_ne_nil_of_right_ne_nil xs h)
    rw [List.cons_append, hz, linesOfPieces, ← hz, linesOfPieces_append xs h]
    rfl

/-- A line feed ends a line, whatever follows. -/
theorem cutLines_append_newline (xs ys : List UInt8) :
    cutLines (xs ++ 10 :: ys) = (xs.splitOn 10).map dropReturn ++ cutLines ys := by
  have hs : (xs ++ 10 :: ys).splitOn 10 = xs.splitOn 10 ++ ys.splitOn 10 := List.splitOnP_append_cons xs ys (by decide)
  have hne : ys.splitOn 10 ≠ [] := List.splitOnP_ne_nil _ ys
  rw [cutLines, hs, linesOfPieces_append _ hne, cutLines]

theorem cutLines_append {A : List UInt8} (hA : A = [] ∨ A.getLast? = some 10) (B : List UInt8) :
    cutLines (A ++ B) = cutLines A ++ cutLines B := by
  rcases hA with rfl | hA
  · rfl
  · obtain ⟨xs, rfl⟩ := List.getLast?_eq_some_iff.1 hA
    rw [List.append_assoc, List.singleton_append, cutLines_append_newline, cutLines_append_newline]
    exact congrArg (· ++ cutLines B) (List.append_nil _).symm

theorem dropReturn_cons {b : UInt8} {line : List UInt8} (h : b = 13 → line ≠ []) :
    dropReturn (b :: line) = b :: dropReturn line := by
  unfold dropReturn
  cases line with
  | nil =>
    have hb : b ≠ 13 := fun hb => h hb rfl
    simp [hb]
  | cons c line =>
    rw [List.getLast?_cons_cons, List.dropLast_cons_cons]
    split <;> rfl

theorem splitOn_cons {b : UInt8} (h : b ≠ 10) (bs : List UInt8) :
    (b :: bs).splitOn 10 = (bs.splitOn 10).modifyHead (b :: ·) := by
  rw [List.splitOn, List.splitOnP_cons_eq_if_modifyHead, if_neg (by simpa using h)]
  rfl

/-- Only a line feed in front leaves the first piece empty. -/
theorem head?_of_splitOn {p p' : List UInt8} {ps : List (List UInt8)} : ∀ {bs : List UInt8},
    bs.splitOn 10 = p :: p' :: ps → p = [] → bs.head? = some 10
  | [],      h, _  => by cases h
  | c :: cs, h, hp => by
    by_cases hc : c = 10
    · rw [hc]
      rfl
    · obtain ⟨q, qs, hq⟩ := List.exists_cons_of_ne_nil (List.splitOnP_ne_nil (· == 10) cs)
      rw [splitOn_cons hc, List.splitOn, hq] at h
      subst hp
      cases h

/-- Any other byte goes in front of the first line, or is a line of its own. -/
theorem cutLines_cons {b : UInt8} (h : b ≠ 10) {bs : List UInt8} (hr : b = 13 → bs.head? ≠ some 10) :
    cutLines (b :: bs) = match cutLines bs with
      | []      => [[b]]
      | l :: ls => (b :: l) :: ls := by
  obtain ⟨p, ps, hp⟩ := List.exists_cons_of_ne_nil (List.splitOnP_ne_nil (· == 10) bs)
  have hp : bs.splitOn 10 = p :: ps := hp
  rw [cutLines, cutLines, splitOn_cons h, hp, List.modifyHead_cons]
  cases ps with
  | nil =>
    rw [linesOfPieces, linesOfPieces, if_neg (List.cons_ne_nil b p)]
    by_cases hn : p = []
    · rw [hn, if_pos rfl]
    · rw [if_neg hn]
  | cons p' ps =>
    rw [linesOfPieces, linesOfPieces, dropReturn_cons fun hb hn => hr hb (head?_of_splitOn hp hn)]

theorem head?_ne_of_forall {b : UInt8} {bs : List UInt8} (h : ∀ cs, b = 13 → bs = 10 :: cs → False) :
    b = 13 → bs.head? ≠ some 10 := by
  intro hb hh
  obtain ⟨cs, rfl⟩ := List.head?_eq_some_iff.1 hh
  exact h cs hb rfl

theorem splitLines_cons {b : UInt8} {bs : List UInt8} (h₁ : ∀ cs, b = 13 → bs = 10 :: cs → False) (h₂ : b ≠ 10) :
    splitLines (b :: bs) = match splitLines bs with
      | []      => [[b]]
      | l :: ls => (b :: l) :: ls :=
  splitLines.eq_4 b bs h₁ h₂

/-- **The lines that are read are those between the line feeds.** -/
theorem splitLines_eq_cutLines (bs : List UInt8) : splitLines bs = cutLines bs := by
  induction bs using splitLines.induct with
  | case1 => rfl
  | case2 bs ih =>
    rw [splitLines, ih]
    exact (cutLines_append_newline [13] bs).symm
  | case3 bs ih =>
    rw [splitLines, ih]
    exact (cutLines_append_newline [] bs).symm
  | case4 b bs h₁ h₂ _ ih =>
    rw [cutLines_cons h₂ (head?_ne_of_forall h₁), ← ih]
    exact splitLines_cons h₁ h₂
  | case5 b bs h₁ h₂ l ls _ ih =>
    rw [cutLines_cons h₂ (head?_ne_of_forall h₁), ← ih]
    exact splitLines_cons h₁ h₂

namespace Session

/-! ## Stop lines -/

/-- Whether a line ends a session: it is not a text, or it is a lone `q`, in either case, between blanks. -/
def stops (line : List UInt8) : Bool :=
  match decodeText line with
  | none      => true
  | some text => decide (trimBlanks text.toList = ['q'] ∨ trimBlanks text.toList = ['Q'])

theorem isQuit_iff {text : String} :
    isQuit text = true ↔ trimBlanks text.toList = ['q'] ∨ trimBlanks text.toList = ['Q'] := by
  unfold isQuit
  split <;> simp_all

theorem receive_of_stops {line : List UInt8} (h : stops line = true) :
    receive line = .error (if decodeText line = none then .undecodable else .quit) := by
  unfold stops at h
  unfold receive
  cases hd : decodeText line with
  | none => rfl
  | some text =>
    rw [hd] at h
    have hq : isQuit text = true := isQuit_iff.2 (of_decide_eq_true h)
    simp [hq]

theorem receive_of_not_stops {line : List UInt8} (h : stops line = false) :
    ∃ text, decodeText line = some text ∧ receive line = .ok text := by
  unfold stops at h
  unfold receive
  cases hd : decodeText line with
  | none =>
    rw [hd] at h
    cases h
  | some text =>
    rw [hd] at h
    have hq : isQuit text = false := by
      rw [← Bool.not_eq_true, isQuit_iff]
      exact of_decide_eq_false h
    exact ⟨text, rfl, by simp [hq]⟩

/-! ## What a session shows -/

/-- A prompt, the answer and an empty line for each text in turn. -/
def exchanges (precision : Nat) : List String → String
  | []            => ""
  | text :: texts => prompt ++ reply text precision ++ "\n\n" ++ exchanges precision texts

/-- A session over some lines, as it has to be.  The lines before the first stop line are texts, and each gets one
answer.  The session ends right after the prompt for the stop line, or at the end of the input, which ends the line of
the last prompt. -/
def Answers (precision : Nat) (lines : List (List UInt8)) (t : Transcript) : Prop :=
  ∃ before texts, (∀ l ∈ before, stops l = false) ∧ before.map decodeText = texts.map some ∧
    ((lines = before ∧ t.output = introduction ++ exchanges precision texts ++ prompt ++ "\n" ∧
        t.ending = .endOfInput) ∨
      ∃ stop after, lines = before ++ stop :: after ∧ stops stop = true ∧
        t.output = introduction ++ exchanges precision texts ++ prompt ∧
        t.ending = if decodeText stop = none then .undecodable else .quit)

/-- A session that answers some texts before it goes on as another. -/
def Transcript.after (precision : Nat) (texts : List String) (t : Transcript) : Transcript where
  output := exchanges precision texts ++ t.output
  ending := t.ending
  events := texts.flatMap (fun text => replyEvents text precision) ++ t.events

/-- **Lines that do not stop a session** are texts; each gets its answer, and the session goes on with the other
lines. -/
theorem converse_append (precision : Nat) : ∀ {lines : List (List UInt8)}, (∀ l ∈ lines, stops l = false) →
    ∃ texts, lines.map decodeText = texts.map some ∧
      ∀ rest, converse precision (lines ++ rest) = (converse precision rest).after precision texts
  | [],            _ => ⟨[], rfl, fun rest => by simp [Transcript.after, exchanges]⟩
  | line :: lines, h => by
    obtain ⟨text, hd, hr⟩ := receive_of_not_stops (h line List.mem_cons_self)
    obtain ⟨texts, hm, hc⟩ := converse_append precision fun l hl => h l (List.mem_cons_of_mem line hl)
    refine ⟨text :: texts, by rw [List.map_cons, List.map_cons, hd, hm], fun rest => ?_⟩
    rw [List.cons_append, converse, hr]
    simp only [hc rest, Transcript.after, exchanges, List.flatMap_cons, List.append_assoc, String.append_assoc]

theorem converse_of_stops {precision : Nat} {stop : List UInt8} (h : stops stop = true) (after : List (List UInt8)) :
    converse precision (stop :: after) =
      { output := prompt, ending := if decodeText stop = none then .undecodable else .quit } := by
  rw [converse, receive_of_stops h]

theorem output_run (precision : Nat) (input : List UInt8) :
    (run precision input).output = introduction ++ (converse precision (cutLines input)).output := by
  rw [run, splitLines_eq_cutLines]

theorem ending_run (precision : Nat) (input : List UInt8) :
    (run precision input).ending = (converse precision (cutLines input)).ending := by
  rw [run, splitLines_eq_cutLines]

/-- **A session answers its lines** up to the first stop line, each once and whatever the others are. -/
theorem answers_run (precision : Nat) (input : List UInt8) :
    Answers precision (cutLines input) (run precision input) := by
  cases hs : (cutLines input).find? stops with
  | none =>
    have hn : ∀ l ∈ cutLines input, stops l = false := by simpa using hs
    obtain ⟨texts, hm, hc⟩ := converse_append precision hn
    have hc := hc []
    rw [List.append_nil] at hc
    refine ⟨_, texts, hn, hm, .inl ⟨rfl, ?_, ?_⟩⟩
    · simp only [output_run, hc, Transcript.after, converse, String.append_assoc]
    · rw [ending_run, hc]
      rfl
  | some stop =>
    obtain ⟨hstop, before, after, hl, hb⟩ := List.find?_eq_some_iff_append.1 hs
    have hb : ∀ l ∈ before, stops l = false := by simpa using hb
    obtain ⟨texts, hm, hc⟩ := converse_append precision hb
    refine ⟨before, texts, hb, hm, .inr ⟨stop, after, hl, hstop, ?_, ?_⟩⟩
    · simp only [output_run, hl, hc, Transcript.after, converse_of_stops hstop, String.append_assoc]
    · rw [ending_run, hl, hc, converse_of_stops hstop]
      rfl

/-- A session does not read on after a stop line. -/
theorem converse_append_of_stops (precision : Nat) {lines : List (List UInt8)} (h : ∃ l ∈ lines, stops l = true)
    (rest : List (List UInt8)) : converse precision (lines ++ rest) = converse precision lines := by
  obtain ⟨stop, hs⟩ := Option.isSome_iff_exists.1 (List.find?_isSome.2 h)
  obtain ⟨hstop, before, after, rfl, hb⟩ := List.find?_eq_some_iff_append.1 hs
  have hb : ∀ l ∈ before, stops l = false := by simpa using hb
  obtain ⟨texts, -, hc⟩ := converse_append precision hb
  rw [List.append_assoc, hc, hc, List.cons_append, converse_of_stops hstop, converse_of_stops hstop]

/-- **Sessions on joined inputs.**  Every session answers its lines up to the first stop line.  If the first of two inputs
ends with a line feed, or is empty, then its lines come before those of the second.  Without a stop line among them, the
session on both is the session on the first up to its last prompt, and from there the session on the second; with one,
it is the session on the first. -/
theorem run_append {A : List UInt8} (hA : A = [] ∨ A.getLast? = some 10) (B : List UInt8) (precision : Nat) :
    (∀ input, Answers precision (cutLines input) (run precision input)) ∧
      cutLines (A ++ B) = cutLines A ++ cutLines B ∧
      ((∀ l ∈ cutLines A, stops l = false) → ∃ shown rest,
        (run precision A).output = shown ++ prompt ++ "\n" ∧ (run precision B).output = introduction ++ rest ∧
        (run precision (A ++ B)).output = shown ++ rest ∧ (run precision (A ++ B)).ending = (run precision B).ending) ∧
      ((∃ l ∈ cutLines A, stops l = true) → run precision (A ++ B) = run precision A) := by
  have hcut := cutLines_append hA B
  refine ⟨answers_run precision, hcut, fun hn => ?_, fun hs => ?_⟩
  · obtain ⟨texts, -, hc⟩ := converse_append precision hn
    have hA := hc []
    rw [List.append_nil] at hA
    refine ⟨introduction ++ exchanges precision texts, (converse precision (cutLines B)).output, ?_,
      output_run precision B, ?_, ?_⟩
    · simp only [output_run, hA, Transcript.after, converse, String.append_assoc]
    · simp only [output_run, hcut, hc, Transcript.after, String.append_assoc]
    · rw [ending_run, ending_run, hcut, hc]
      rfl
  · simp only [run, splitLines_eq_cutLines, hcut, converse_append_of_stops precision hs]

theorem run_append_error_quit :
    let error : List UInt8 := "2++3\r\n".toUTF8.toList
    let quit : List UInt8 := " q \n".toUTF8.toList
    let other : List UInt8 := "1+1".toUTF8.toList
    (∀ l ∈ cutLines error, stops l = false) ∧ (∃ l ∈ cutLines quit, stops l = true) ∧
      (∃ shown rest, (run 30 error).output = shown ++ prompt ++ "\n" ∧ (run 30 quit).output = introduction ++ rest ∧
        (run 30 (error ++ quit)).output = shown ++ rest ∧ (run 30 (error ++ quit)).ending = (run 30 quit).ending) ∧
      run 30 (quit ++ other) = run 30 quit := by
  intro error quit other
  have he : ∀ l ∈ cutLines error, stops l = false := by decide +kernel
  have hq : ∃ l ∈ cutLines quit, stops l = true := by decide +kernel
  exact ⟨he, hq, (run_append (by decide +kernel) quit 30).2.2.1 he, (run_append (by decide +kernel) other 30).2.2.2 hq⟩

end Session

end ExactCalc
