import Lox.Directory
import Lox.Session
import Lox.Syntax.PostfixForm
import Lox.Syntax.PrefixForm
import Lox.Text.Utf8
import Lox.Token.Listing

namespace Lox

inductive Command where
  | run (file : String)
  | repl
  | tokenize (file : String) (json : Bool)
  | parse (file : String) (postfixForm : Bool)
deriving DecidableEq, Repr

namespace Command

/-- Sorts arguments into flags and operands. A flag counts once, a dash alone is an operand, and
after two dashes all else is. -/
def sort? (known : List String) : List String → Option (List String × List String)
  | [] => some ([], [])
  | "--" :: rest => some ([], rest)
  | argument :: rest => do
    let (flags, operands) ← sort? known rest
    if known.contains argument then
      if flags.contains argument then none else some (argument :: flags, operands)
    else if argument.startsWith "-" && argument != "-" then none
    else some (flags, argument :: operands)

/-- The file named by the arguments, and whether the flag stands among them. -/
def fileAndFlag? (flag : String) (arguments : List String) : Option (String × Bool) :=
  match sort? ["--log", flag] arguments with
  | some (flags, [file]) => if file.isEmpty then none else some (file, flags.contains flag)
  | _ => none

/-- The command named by the first argument. With none the prompt starts. -/
def ofWords? : List String → Option Command
  | [] | ["--"] => some .repl
  | "run" :: rest => (fileAndFlag? "--log" rest).map fun (file, _) => .run file
  | "repl" :: rest =>
    match sort? ["--log"] rest with
    | some (_, []) => some .repl
    | _ => none
  | "tokenize" :: rest => (fileAndFlag? "--json" rest).map fun (file, json) => .tokenize file json
  | "parse" :: rest => (fileAndFlag? "--rpn" rest).map fun (file, form) => .parse file form
  | _ => none

/-- Logging may be asked for before a command and within it, and changes nothing that is shown. -/
def ofArguments? : List String → Option Command
  | "--log" :: rest => ofWords? rest
  | arguments => ofWords? arguments

end Command

/-- What a command writes, and its exit code. -/
structure Transcript where
  stdout : String
  stderr : String
  exitCode : Nat
deriving DecidableEq, Repr

namespace Transcript

/-- Each text with a line end. -/
def lines (texts : List String) : String := String.join (texts.map (· ++ "\n"))

def failure (message : String) : Transcript := ⟨"", "Error: " ++ message ++ "\n", 1⟩

def failureWithCause (message cause : String) : Transcript :=
  failure (message ++ "\n\nCaused by:\n    " ++ cause)

/-- A directory can be opened, but there is nothing in it to read. -/
def unreadable (file : String) (fault : PathFault) : Transcript :=
  let action := match fault with
    | .isDirectory => "map"
    | .missing | .notPermitted | .notDirectory | .nameTooLong => "open"
  failureWithCause ("Failed to " ++ action ++ " file " ++ Text.nameQuoted file) fault.message

def undecodable (file : String) (fault : Text.Utf8Fault) : Transcript :=
  failureWithCause ("File " ++ Text.nameQuoted file ++ " is not valid UTF-8") fault.message

def ofStep (step : Step) : Transcript :=
  let problems := match step.ending with
    | .rejected diagnostics => diagnostics.map Diagnostic.text
    | .finished _ | .failed _ | .outOfFuel => step.reported.map RuntimeError.report
  ⟨lines step.printed, lines problems, step.exitCode⟩

end Transcript

/-- Runs a program in a session of its own. -/
def runSource (session : Session) (source : String) : Transcript :=
  .ofStep (session.run ampleFuel .script source).1

/-- The tokens as they come, or all at once in JSON. -/
def tokenizeSource (json : Bool) (source : String) : Transcript :=
  let items := scan source
  let tokens := tokensOf items
  let faults := faultsOf items
  let texts := if json then [tokenListing tokens] else tokens.map Token.text
  { stdout := Transcript.lines texts
    stderr := Transcript.lines (faults.map Diagnostic.text)
    exitCode := if faults.isEmpty then 0 else 65 }

/-- One form of the single expression that a file holds. Names are not resolved. -/
def parseSource (file : String) (postfixForm : Bool) (source : String) : Transcript :=
  let items := scan source
  let read := parse (tokensOf items) true 0
  let diagnostics := faultsOf items ++ read.diagnostics
  if diagnostics.isEmpty then
    match read.program with
    | .statements _ => .failure (Text.nameQuoted file ++ " does not hold a single expression")
    | .expression e =>
      if postfixForm then
        match e.postfixForm with
        | .ok text => ⟨text ++ "\n", "", 0⟩
        | .error dangling => ⟨"", dangling.message ++ "\n", 65⟩
      else ⟨e.prefixForm ++ "\n", "", 0⟩
  else ⟨"", Transcript.lines (diagnostics.map Diagnostic.text), 65⟩

/-- What a command on a file does with the bytes of the file, if they can be read. -/
def withSource (file : String) (bytes : Except PathFault (List UInt8)) (use : String → Transcript) :
    Transcript :=
  match bytes with
  | .error fault => .unreadable file fault
  | .ok bytes =>
    match Text.decodeUtf8 bytes with
    | .error fault => .undecodable file fault
    | .ok source => use source

namespace Repl

def prompt : String := "> "

/-- A text as its lines. A carriage return before a line end belongs to the line end. -/
def splitLines (text : List Char) : List (List Char) :=
  go [] text
where
  go (line : List Char) : List Char → List (List Char)
    | [] => if line.isEmpty then [] else [line.reverse]
    | '\n' :: rest =>
      let line := match line with
        | '\r' :: line => line
        | line => line
      line.reverse :: go [] rest
    | c :: rest => go (c :: line) rest

/-- What one line writes after its prompt, and the session after it. -/
def answer (session : Session) (line : String) : Transcript × Session :=
  let (step, session) := session.run ampleFuel .line line
  (.ofStep step, session)

/-- All that the lines of an input make the prompt write. Faults end no session. -/
def transcript : Session → List String → Transcript
  | _, [] => ⟨prompt ++ "\n", "", 0⟩
  | session, line :: rest =>
    let (first, session) := answer session line
    let others := transcript session rest
    ⟨prompt ++ first.stdout ++ others.stdout, first.stderr ++ others.stderr, 0⟩

end Repl

/-- What a command writes, given the time, the directory it works in and the standard input. -/
def Command.transcript (time : Float) (directory : Directory) (stdin : String) :
    Command → Transcript
  | .run file => withSource file (directory.read file) (runSource (.start time))
  | .tokenize file json => withSource file (directory.read file) (tokenizeSource json)
  | .parse file form => withSource file (directory.read file) (parseSource file form)
  | .repl => Repl.transcript (.start time) ((Repl.splitLines stdin.toList).map String.ofList)

/-- Arguments that name no command are refused. -/
def Transcript.usage : Transcript :=
  ⟨"", "Usage: lox [run FILE | repl | tokenize FILE [--json] | parse FILE [--rpn]] [--log]\n", 2⟩

end Lox
