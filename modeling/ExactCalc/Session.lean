import ExactCalc.Evaluation
import ExactCalc.Text.Line
/-!
# Console sessions

A session shows an introduction, then prompts for one line after the other and answers each.  It ends at a line that
says so, at a line that is not a text, or at the end of the input.  No line has an influence on the answer to another.
-/
namespace ExactCalc

/-- The answer to an expression: its value and the kind of number, or the problem under the heading of its family. -/
def reply (text : String) (precision : Nat) : String :=
  match evaluate text precision with
  | .ok v => v.text ++ "\n(" ++ v.kind ++ ")"
  | .error (.divisionByZero i) => "DIVISION PAR ZÉRO : " ++ (Problem.divisionByZero i).message
  | .error p => if p.isMalformed then "ERREUR DE SYNTAXE : " ++ p.message else "ERREUR : " ++ p.message

/-- The events of answering an expression. -/
def replyEvents (text : String) (precision : Nat) : List Event :=
  evaluationEvents text ++
    match evaluate text precision with
    | .error (.inconsistent i cause) => [.gaveUp text (.inconsistent i cause)]
    | _ => []

namespace Session

def introduction : String :=
  "Entrez une expression. Pour l’instant, seuls les entiers,\n" ++
  "les parenthèses et les opérateurs de base (+, -, *, /)\n" ++
  "sont acceptés. Pour quitter la calculatrice, tapez 'q'.\n"

def prompt : String := "> "

/-- How a session ends. -/
inductive Ending where
  | quit
  | endOfInput
  | undecodable
deriving DecidableEq, Repr

/-- Whether a line asks to quit: a lone `q`, in either case, between blanks. -/
def isQuit (text : String) : Bool :=
  match trimBlanks text.toList with
  | ['q'] | ['Q'] => true
  | _             => false

/-- How a line is received: it ends the session, or it is an expression to answer. -/
def receive (line : List UInt8) : Except Ending String :=
  match decodeText line with
  | none      => .error .undecodable
  | some text => if isQuit text then .error .quit else .ok text

/-- What a session shows after its introduction, how it ends, and its events. -/
structure Transcript where
  output : String
  ending : Ending
  events : List Event := []

/-- The session over the given lines.  The end of the input ends the line of the last prompt. -/
def converse (precision : Nat) : List (List UInt8) → Transcript
  | []            => { output := prompt ++ "\n", ending := .endOfInput }
  | line :: lines =>
    match receive line with
    | .error e => { output := prompt, ending := e }
    | .ok text =>
      let rest := converse precision lines
      { output := prompt ++ reply text precision ++ "\n\n" ++ rest.output
        ending := rest.ending
        events := replyEvents text precision ++ rest.events }

/-- **A whole session** over the bytes of the input. -/
def run (precision : Nat) (input : List UInt8) : Transcript :=
  let t := converse precision (splitLines input)
  { t with
    output := introduction ++ t.output
    events := .started precision :: t.events }

end Session

end ExactCalc
