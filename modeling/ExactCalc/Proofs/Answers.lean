import ExactCalc.Session
import ExactCalc.Proofs.DecimalText
import ExactCalc.Proofs.TypedBack
/-!
# Answers can be read back

The answer to an expression tells all that came of it: the value, or the problem with its position and, where one is
at fault, its character.  So the outcome can be read back from the answer (`readReply?_reply`), and two expressions get
one answer only if they come to the same (`reply_unambiguous`).
-/
namespace ExactCalc

/-! ## Values -/

namespace Value

/-- Reads a value: an integer is a decimal without a point. -/
def read (cs : List Char) : Value :=
  if (readDecimal cs).2 = 0 then integer (readDecimal cs).1 else decimal (readDecimal cs).1 (readDecimal cs).2

theorem readUnsigned_toDigits (n : Nat) : readUnsigned (Nat.toDigits 10 n) = (n, 0) := by
  have hpoint : ∀ c ∈ Nat.toDigits 10 n, (c != '.') = true := fun c hc =>
    bne_iff_ne.2 (ne_of_isDigit (isDigit_of_mem_toDigits hc) rfl)
  rw [readUnsigned, List.filter_eq_self.2 hpoint, List.dropWhile_eq_nil_iff.2 hpoint, Nat.ofDigitChars_ten_toDigits]
  rfl

theorem readDecimal_toString (n : Int) : readDecimal (toString n).toList = (n, 0) := by
  have hhead : (Nat.toDigits 10 n.natAbs).head? ≠ some '-' := fun h =>
    ne_of_isDigit (isDigit_of_mem_toDigits (List.mem_of_mem_head? h)) rfl rfl
  rw [toList_toString_int, readDecimal_signed hhead, readUnsigned_toDigits, Prod.mk.injEq]
  refine ⟨?_, rfl⟩
  split <;> omega

theorem read_text : ∀ {v : Value}, v.Canonical → read v.text.toList = v
  | integer n,   _ => by
    have h : readDecimal (integer n).text.toList = (n, 0) := readDecimal_toString n
    rw [read, h, if_pos rfl]
  | decimal m s, h => by
    rw [read, toList_text_decimal, readDecimal_decimalChars m h.1]
    exact if_neg h.1.ne'

/-- A value is written with digits, a sign and a point. -/
theorem notMem_text {c : Char} (hd : c.isDigit = false) (hs : c ≠ '-') (hp : c ≠ '.') :
    ∀ {v : Value}, v.Canonical → c ∉ v.text.toList
  | integer n,   _ => notMem_toString_int hd hs n
  | decimal m s, h => by
    rw [toList_text_decimal]
    exact (decimalForm_decimalChars m h.1).notMem hd hs hp

end Value

/-! ## Problems -/

/-- The number in front of the last character of a text. -/
def lastNumber (cs : List Char) : Nat :=
  Nat.ofDigitChars 10 (cs.dropLast.reverse.takeWhile Char.isDigit).reverse 0

namespace Problem

/-- The problem at position `i` whose message has these characters.  The first and the eleventh tell the cause; an invalid
character is the twenty-first. -/
def ofMarks? (first? eleventh? twentyFirst? : Option Char) (i : Nat) : Option Problem :=
  match first?, eleventh? with
  | some 'p',  some ' ' => some (unmatchedParenthesis i)
  | some 'p',  some 's' => some (emptyParentheses i)
  | some '\'', _        => some (leadingMultiplicative i)
  | some 'o',  some ' ' => some (adjacentOperators i)
  | some 'o',  some 'f' => some (trailingOperator i)
  | some 'c',  _        => twentyFirst?.map (invalidCharacter i)
  | some 'e',  _        => some emptyExpression
  | some 'd',  _        => some (divisionByZero i)
  | _,         _        => none

/-- **Reads a message.** -/
def ofMessage? (cs : List Char) : Option Problem :=
  ofMarks? cs[0]? cs[10]? cs[20]? (lastNumber cs)

theorem lastNumber_append_place (cs : List Char) (i : Nat) : lastNumber (cs ++ (place i).toList) = i := by
  have hplace : (place i).toList = [' ', '(', 'i', 'n', 'd', 'e', 'x', ' '] ++ Nat.toDigits 10 i ++ [')'] := by
    simp [place]
  have hdigits : ∀ c ∈ (Nat.toDigits 10 i).reverse, c.isDigit = true := fun c hc =>
    isDigit_of_mem_toDigits (List.mem_reverse.1 hc)
  rw [lastNumber, hplace, ← List.append_assoc, List.dropLast_concat, ← List.append_assoc, List.reverse_append,
    List.takeWhile_append_of_pos hdigits, List.reverse_append]
  simp

theorem exists_message_eq {p : Problem} {i : Nat} (h : p.position? = some i) :
    ∃ label, p.message = label ++ place i := by
  cases p <;> cases h <;> exact ⟨_, rfl⟩

theorem lastNumber_message {p : Problem} {i : Nat} (h : p.position? = some i) : lastNumber p.message.toList = i := by
  obtain ⟨label, hl⟩ := exists_message_eq h
  rw [hl, String.toList_append, lastNumber_append_place]

theorem ofMessage?_message {p : Problem} (h : ∀ i cause, p ≠ inconsistent i cause) :
    ofMessage? p.message.toList = some p := by
  unfold ofMessage?
  cases p with
  | inconsistent i cause => exact absurd rfl (h i cause)
  | emptyExpression => rfl
  | unmatchedParenthesis i | emptyParentheses i | leadingMultiplicative i | adjacentOperators i | trailingOperator i
  | invalidCharacter i c | divisionByZero i =>
    rw [lastNumber_message rfl]
    -- `rw [message]` would have to derive all its equations first, which is slow
    delta message
    simp [ofMarks?]

end Problem

/-! ## Answers -/

/-- No text is evaluated to a problem of the row. -/
theorem evaluate_ne_inconsistent (text : String) (precision i : Nat) (cause : Inconsistency) :
    evaluate text precision ≠ .error (.inconsistent i cause) := by
  intro h
  rcases evaluate_eq_error_iff.1 h with h | ⟨_, _, _, _, h⟩
  · exact located_of_ofChars h
  · cases h

/-- What stands in front of the message of a problem. -/
def Problem.heading (p : Problem) : String :=
  if p.isMalformed then "ERREUR DE SYNTAXE : " else "DIVISION PAR ZÉRO : "

theorem reply_of_ok {text : String} {precision : Nat} {v : Value} (h : evaluate text precision = .ok v) :
    reply text precision = v.text ++ "\n(" ++ v.kind ++ ")" := by
  rw [reply, h]

theorem reply_of_error {text : String} {precision : Nat} {p : Problem} (h : evaluate text precision = .error p) :
    reply text precision = p.heading ++ p.message := by
  rw [reply, h]
  cases p with
  | inconsistent i cause => exact absurd h (evaluate_ne_inconsistent text precision i cause)
  | _ => rfl

/-- **Reads an answer**: a problem after its heading, or a value before the line with its kind.  Either heading has twenty
characters, and no value starts with a capital. -/
def readReply? (cs : List Char) : Option (Except Problem Value) :=
  if cs.head? = some 'D' ∨ cs.head? = some 'E' then (Problem.ofMessage? (cs.drop 20)).map .error
  else some (.ok (Value.read (cs.takeWhile (· != '\n'))))

/-- An answer with a value has no capital that a heading starts with. -/
theorem notMem_reply_of_ok {text : String} {precision : Nat} {v : Value} (h : evaluate text precision = .ok v) {c : Char}
    (hc : c = 'D' ∨ c = 'E') : c ∉ (reply text precision).toList := by
  have htext : c ∉ v.text.toList := by
    refine Value.notMem_text ?_ ?_ ?_ (canonical_of_evaluate_eq_ok h).1 <;> rcases hc with rfl | rfl <;> decide
  have hkind : c ∉ "\n(".toList ∧ c ∉ v.kind.toList ∧ c ∉ ")".toList := by
    rcases hc with rfl | rfl <;> cases v <;> simp [Value.kind]
  simp only [reply_of_ok h, String.toList_append, List.mem_append, not_or]
  exact ⟨⟨⟨htext, hkind.1⟩, hkind.2.1⟩, hkind.2.2⟩

theorem takeWhile_reply_of_ok {text : String} {precision : Nat} {v : Value} (h : evaluate text precision = .ok v) :
    (reply text precision).toList.takeWhile (· != '\n') = v.text.toList := by
  have hline : ∀ c ∈ v.text.toList, (c != '\n') = true := by
    intro c hc
    rw [bne_iff_ne]
    rintro rfl
    exact Value.notMem_text rfl (by decide) (by decide) (canonical_of_evaluate_eq_ok h).1 hc
  simp [reply_of_ok h, List.takeWhile_append_of_pos hline]

theorem head?_reply_of_error {text : String} {precision : Nat} {p : Problem} (h : evaluate text precision = .error p) :
    (reply text precision).toList.head? = some 'D' ∨ (reply text precision).toList.head? = some 'E' := by
  rw [reply_of_error h, Problem.heading]
  split <;> simp

theorem drop_reply_of_error {text : String} {precision : Nat} {p : Problem} (h : evaluate text precision = .error p) :
    (reply text precision).toList.drop 20 = p.message.toList := by
  rw [reply_of_error h, Problem.heading]
  split <;> simp

theorem readReply?_reply (text : String) (precision : Nat) :
    readReply? (reply text precision).toList = some (evaluate text precision) := by
  unfold readReply?
  cases h : evaluate text precision with
  | ok v =>
    have hhead : ¬((reply text precision).toList.head? = some 'D' ∨ (reply text precision).toList.head? = some 'E') := by
      rintro (hd | he)
      · exact notMem_reply_of_ok h (.inl rfl) (List.mem_of_mem_head? hd)
      · exact notMem_reply_of_ok h (.inr rfl) (List.mem_of_mem_head? he)
    rw [if_neg hhead, takeWhile_reply_of_ok h, Value.read_text (canonical_of_evaluate_eq_ok h).1]
  | error p =>
    have hp : ∀ i cause, p ≠ .inconsistent i cause := by
      rintro i cause rfl
      exact evaluate_ne_inconsistent text precision i cause h
    rw [if_pos (head?_reply_of_error h), drop_reply_of_error h, Problem.ofMessage?_message hp]
    rfl

/-- **Answers are unambiguous.**  Two expressions get one answer just if they are evaluated to the same value, or to the
same problem at the same position and with the same character.  No answer tells of an inconsistent row. -/
theorem reply_unambiguous (text : String) (precision : Nat) :
    (∀ text' precision', reply text precision = reply text' precision' ↔
      evaluate text precision = evaluate text' precision') ∧
      ¬"ERREUR : ".toList <+: (reply text precision).toList := by
  refine ⟨fun text' precision' => ⟨fun h => ?_, fun h => by rw [reply, reply, h]⟩, fun h => ?_⟩
  · have hread := readReply?_reply text precision
    rw [h, readReply?_reply] at hread
    exact (Option.some.inj hread).symm
  · cases he : evaluate text precision with
    | ok v    => exact notMem_reply_of_ok he (.inr rfl) (h.subset (by decide))
    | error p =>
      obtain ⟨cs, hcs⟩ := h
      have hchar := congrArg (·[7]?) hcs
      rw [reply_of_error he, Problem.heading] at hchar
      split at hchar <;> simp at hchar

end ExactCalc
