import Std.Time.DateTime.Timestamp
import Lox.CommandLine

namespace Lox

/-- Writes what a command has to say. -/
def Transcript.write (t : Transcript) : IO Unit := do
  let stdout ← IO.getStdout
  let stderr ← IO.getStderr
  stdout.putStr t.stdout
  stdout.flush
  stderr.putStr t.stderr
  stderr.flush

/-- The seconds since the epoch, which `clock` tells, to the millisecond. -/
def secondsNow : IO Float := do
  let now ← Std.Time.Timestamp.now
  return Float.ofInt now.toMillisecondsSinceUnixEpoch.toInt / 1000

def Session.setTime (s : Session) (time : Float) : Session :=
  { s with machine := { s.machine with time } }

def PathFault.ofError : IO.Error → PathFault
  | .permissionDenied .. => .notPermitted
  | .inappropriateType _ code _ => if code == 20 then .notDirectory else .isDirectory
  | .invalidArgument .. => .nameTooLong
  | _ => .missing

def readFile (file : String) : IO (Except PathFault (List UInt8)) := do
  try
    let bytes ← IO.FS.readBinFile file
    return .ok bytes.toList
  catch error => return .error (.ofError error)

/-- Answers lines until the input ends. -/
partial def prompting (session : Session) : IO Unit := do
  let stdout ← IO.getStdout
  stdout.putStr Repl.prompt
  stdout.flush
  let text ← (← IO.getStdin).getLine
  match Repl.splitLines text.toList with
  | [] => stdout.putStr "\n"
  | line :: _ =>
    let (transcript, session) := Repl.answer (session.setTime (← secondsNow)) (String.ofList line)
    transcript.write
    prompting session

def Command.perform (command : Command) : IO UInt32 := do
  let transcript ← match command with
    | .repl =>
      prompting (.start (← secondsNow))
      return 0
    | .run file =>
      let session := Session.start (← secondsNow)
      pure (withSource file (← readFile file) (runSource session))
    | .tokenize file json => pure (withSource file (← readFile file) (tokenizeSource json))
    | .parse file form => pure (withSource file (← readFile file) (parseSource file form))
  transcript.write
  return transcript.exitCode.toUInt32

end Lox

def main (arguments : List String) : IO UInt32 := do
  match Lox.Command.ofArguments? arguments with
  | some command => command.perform
  | none =>
    Lox.Transcript.usage.write
    return Lox.Transcript.usage.exitCode.toUInt32
