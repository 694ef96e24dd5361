import ExactCalc.CommandLine
/-!
# The program

Carries out a command line: texts go to standard output, and a console session reads standard input line by line.
-/
namespace ExactCalc

namespace Main

/-- The bytes of standard input up to and with the next line feed. -/
partial def readLine (input : IO.FS.Stream) (before : List UInt8) : IO (List UInt8) := do
  match (← input.read 1).toList with
  | []     => return before.reverse
  | b :: _ => if b == 10 then return (b :: before).reverse else readLine input (b :: before)

partial def converse (input output : IO.FS.Stream) (precision : Nat) : IO Unit := do
  output.putStr Session.prompt
  output.flush
  match splitLines (← readLine input []) with
  | []        => output.putStrLn ""
  | line :: _ =>
    match Session.receive line with
    | .error .undecodable => IO.eprintln "console: stream did not contain valid UTF-8"
    | .error _            => return
    | .ok text            =>
      output.putStr (reply text precision ++ "\n\n")
      converse input output precision

end Main

end ExactCalc

open ExactCalc in
def main (args : List String) : IO UInt32 := do
  let output ← IO.getStdout
  match CommandLine.parse args with
  | .error e =>
    IO.eprintln ("error: " ++ e.message)
    return UInt32.ofNat CommandLine.usageErrorCode
  | .ok .help =>
    output.putStr CommandLine.helpText
    return 0
  | .ok .version =>
    output.putStr CommandLine.versionText
    return 0
  | .ok (.console precision) =>
    output.putStr Session.introduction
    Main.converse (← IO.getStdin) output precision
    return 0
  -- There is no window here.  `CommandLine.run` says what a run with one comes to; without one the request fails.
  | .ok (.window _) =>
    IO.eprintln "error: no window is available; use --console"
    return 1
