import ExactCalc.Session
/-!
# The command line

Arguments are read from left to right, and the first that asks for help, asks for the version or is in error settles
the outcome.  No option may be repeated and there are no positional arguments; after `--` nothing may follow.
-/
namespace ExactCalc

namespace CommandLine

inductive UsageError where
  | unexpectedArgument (arg : String)
  | unexpectedValue (option : String)
  | repeatedOption (option : String)
  | missingValue (option : String)
  | invalidNumber (text : String)
deriving DecidableEq, Repr

def UsageError.message : UsageError → String
  | unexpectedArgument a => "unexpected argument '" ++ a ++ "'"
  | unexpectedValue o    => "no value is allowed for '" ++ o ++ "'"
  | repeatedOption o     => "'" ++ o ++ "' cannot be used multiple times"
  | missingValue o       => "a value is required for '" ++ o ++ "'"
  | invalidNumber t      => "invalid number '" ++ t ++ "'"

inductive Command where
  | help
  | version
  | console (precision : Nat)
  | window (precision : Nat)
deriving DecidableEq, Repr

/-- The greatest precision that can be written on the command line. -/
def maxNumber : Nat := 18446744073709551615

/-- A natural number as an option's value: decimal digits, leading zeros allowed, after an optional `+`. -/
def parseNumber (text : String) : Option Nat :=
  let digits := match text.toList with
    | '+' :: cs => cs
    | cs        => cs
  if digits.isEmpty || !digits.all Char.isDigit then none
  else
    let n := Nat.ofDigitChars 10 digits 0
    if n ≤ maxNumber then some n else none

/-- The options met so far. -/
structure Options where
  console   : Bool := false
  precision : Option Nat := none
deriving DecidableEq, Repr

def Options.command (o : Options) : Command :=
  let precision := clampPrecision (o.precision.getD defaultPrecision)
  if o.console then .console precision else .window precision

/-- Takes a value of the option `--precision`. -/
def Options.setPrecision (o : Options) (text : String) : Except UsageError Options :=
  match o.precision, parseNumber text with
  | some _, _      => .error (.repeatedOption "--precision")
  | none,   none   => .error (.invalidNumber text)
  | none,   some n => .ok { o with precision := some n }

/-- Whether an argument cannot be the value of an option: it starts with `-` and is longer than that. -/
def looksLikeOption (arg : String) : Bool :=
  match arg.toList with
  | '-' :: _ :: _ => true
  | _             => false

/-- The name of a long option and the value written after `=`, if there is one. -/
def splitValue (arg : List Char) : List Char × Option (List Char) :=
  match arg.dropWhile (· != '=') with
  | []         => (arg, none)
  | _ :: value => (arg.takeWhile (· != '='), some value)

/-- What an argument is, taken alone. -/
inductive Argument where
  | help
  | version
  | console
  | precision (value : Option String)
  | terminator
  | invalid (error : UsageError)

def Argument.ofLong (arg : String) : Argument :=
  match splitValue arg.toList with
  | (name, value) =>
    match String.ofList name, value with
    | "--help",      none   => .help
    | "--version",   none   => .version
    | "--console",   none   => .console
    | "--precision", value  => .precision (value.map String.ofList)
    | "--help",      some _ => .invalid (.unexpectedValue "--help")
    | "--version",   some _ => .invalid (.unexpectedValue "--version")
    | "--console",   some _ => .invalid (.unexpectedValue "--console")
    | _,             _      => .invalid (.unexpectedArgument arg)

def Argument.ofString (arg : String) : Argument :=
  match arg.toList with
  | ['-', '-']         => .terminator
  | '-' :: '-' :: _    => .ofLong arg
  | '-' :: 'h' :: _    => .help
  | '-' :: 'V' :: _    => .version
  | _                  => .invalid (.unexpectedArgument arg)

/-- Reads the arguments that follow the options `o`. -/
def parseFrom (o : Options) : List String → Except UsageError Command
  | []          => .ok o.command
  | arg :: args =>
    match Argument.ofString arg with
    | .help       => .ok .help
    | .version    => .ok .version
    | .invalid e  => .error e
    | .terminator =>
      match args with
      | []     => .ok o.command
      | a :: _ => .error (.unexpectedArgument a)
    | .console    =>
      if o.console then .error (.repeatedOption "--console") else parseFrom { o with console := true } args
    | .precision (some value) =>
      match o.setPrecision value with
      | .error e => .error e
      | .ok o'   => parseFrom o' args
    | .precision none =>
      match args with
      | []            => .error (.missingValue "--precision")
      | value :: rest =>
        if looksLikeOption value then .error (.missingValue "--precision")
        else match o.setPrecision value with
          | .error e => .error e
          | .ok o'   => parseFrom o' rest

/-- **Reads a command line.** -/
def parse (args : List String) : Except UsageError Command :=
  parseFrom {} args

/-! ## What a command writes -/

def helpText : String :=
  "Calculatrice décimale\n" ++
  "\n" ++
  "Usage: calculatrice_decimale [OPTIONS]\n" ++
  "\n" ++
  "Options:\n" ++
  "      --console                Boucle console (lecture ligne à ligne) au lieu de la fenêtre\n" ++
  "      --precision <PRECISION>  Chiffres après la virgule (borné à 200) [default: 30]\n" ++
  "  -h, --help                   Print help\n" ++
  "  -V, --version                Print version\n"

def versionText : String :=
  "calculatrice_decimale 0.1.0\n"

/-- What a run of the program comes to: its exit code and what it wrote on standard output. -/
structure Exit where
  code   : Nat
  output : String
deriving DecidableEq, Repr

/-- The exit code of a command line in error. -/
def usageErrorCode : Nat := 2

/-- **A run of the program** on its arguments and the bytes of its standard input.  A window, where there is one, writes
nothing on standard output. -/
def run (args : List String) (input : List UInt8) : Exit :=
  match parse args with
  | .error _             => ⟨usageErrorCode, ""⟩
  | .ok .help            => ⟨0, helpText⟩
  | .ok .version         => ⟨0, versionText⟩
  | .ok (.console p)     => ⟨0, (Session.run p input).output⟩
  | .ok (.window _)      => ⟨0, ""⟩

end CommandLine

end ExactCalc
