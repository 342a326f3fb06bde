/-
  WordExpr.Main

  The program: reads the command line and the file it names, runs the request and prints
  the outcome.
-/
import WordExpr.Program.Run

namespace WordExpr.Program

/-- The contents of a file, or of the standard input. -/
def readContents (path : String) : IO Contents := do
  if path = stdinName then
    let stdin ← IO.getStdin
    let mut bytes := ByteArray.empty
    let mut more := true
    while more do
      let block ← stdin.read 8192
      bytes := bytes ++ block
      more := !block.isEmpty
    return .ok bytes.toList
  else
    try
      return .ok (← IO.FS.readBinFile path).toList
    catch
      | .noFileOrDirectory _ _ _ => return .error .notFound
      | .inappropriateType _ _ _ => return .error .isDirectory
      | e => return .error (.other (toString e))

/-- Prints an outcome and answers its exit code. -/
def printOutcome (o : Outcome) (elapsed : String) : IO UInt32 := do
  (← IO.getStdout).putStr (renderPieces elapsed o.stdout)
  (← IO.getStderr).putStr o.stderr
  return UInt32.ofNat o.exit

/-- A time in seconds, rounded to two places. -/
def showSeconds (milliseconds : Nat) : String :=
  let hundredths := (milliseconds + 5) / 10
  let places := (Nat.toDigits 10 (100 + hundredths % 100)).drop 1
  toString (hundredths / 100) ++ "." ++ String.ofList places ++ "s"

/-- Carries out a command line. -/
def runLine (line : List String) : IO UInt32 := do
  match Request.ofArguments line with
  | .error stop => printOutcome (stopOutcome stop) ""
  | .ok request =>
    let started ← IO.monoMsNow
    let contents ← match request.file? with
      | some path => readContents path
      | none => pure (.ok [])
    let entropy ← IO.rand 0 ((1 <<< 32) - 1)
    let outcome := request.run contents (UInt32.ofNat entropy)
    let stopped ← IO.monoMsNow
    printOutcome outcome (showSeconds (stopped - started))

end WordExpr.Program

/-- The program. -/
def main (line : List String) : IO UInt32 := WordExpr.Program.runLine line
