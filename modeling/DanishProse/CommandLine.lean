/-
  The command line.

  * `Command.parse` reads arguments as a `Command`; arguments that fit no command
    are either an unknown subcommand, or rejected;
  * `Command.output` is what a command prints, given the text of the file that it
    names (`Command.file?`).

  Options may stand anywhere among the arguments of a command, each at most
  once.  After two hyphens nothing is an option.
-/
import DanishProse.Corpus.Outcome
import DanishProse.Corpus.Suite

namespace DanishProse

/-! ## Arguments -/

/-- How a program is to be run. -/
structure RunOptions where
  file : Option String := none
  maxSteps : Option Nat := none
  fixedFrames : Bool := false
  disassemble : Bool := false

/-- What the command line asks for. -/
inductive Command where
  | help
  | run (file : String) (options : RunOptions)
  | test (filter : String)
  | unknown (name : String)
  /-- Arguments of a command that it cannot take. -/
  | rejected

/-- An argument that can only be an option: a hyphen with something behind. -/
def isOption (argument : String) : Bool :=
  match argument.toList with
  | '-' :: _ :: _ => true
  | _ => false

/-- A count of steps: digits, after a plus sign or none, within 64 bits. -/
def parseSteps (text : String) : Option Nat :=
  let digits := match text.toList with
    | '+' :: cs => cs
    | cs => cs
  if digits.isEmpty || !digits.all isDigit then none
  else
    let value := naturalValue digits
    if value < UInt64.size then some value else none

namespace RunOptions

/-- Takes the file to run, unless there is one already. -/
def addFile (o : RunOptions) (file : String) : Option RunOptions :=
  if o.file.isSome then none else some { o with file := some file }

/-- Takes the limit of steps, unless there is one already or the text is no count. -/
def addSteps (o : RunOptions) (text : String) : Option RunOptions :=
  if o.maxSteps.isSome then none
  else
    match parseSteps text with
    | some n => some { o with maxSteps := some n }
    | none => none

/-- The steps that an option gives along with its name. -/
def stepsIn? (argument : String) : Option String :=
  let name := "--max-steps=".toList
  if name.isPrefixOf argument.toList then some (String.ofList (argument.toList.drop name.length))
  else none

/-- Adds arguments none of which is an option. -/
def parseFiles (o : RunOptions) : List String → Option RunOptions
  | [] => some o
  | a :: as =>
    match o.addFile a with
    | some o => o.parseFiles as
    | none => none

/-- Adds an argument that stands alone. -/
def parseOne (o : RunOptions) (a : String) : Option RunOptions :=
  if a = "--fixed-frames" then
    if o.fixedFrames then none else some { o with fixedFrames := true }
  else if a = "--disassemble" then
    if o.disassemble then none else some { o with disassemble := true }
  else
    match stepsIn? a with
    | some text => o.addSteps text
    | none => if isOption a then none else o.addFile a

/-- Adds arguments. -/
def parse (o : RunOptions) : List String → Option RunOptions
  | [] => some o
  | [a] =>
    if a = "--" then some o
    else if a = "--max-steps" then none
    else o.parseOne a
  | a :: b :: as =>
    if a = "--" then o.parseFiles (b :: as)
    else if a = "--max-steps" then
      if isOption b then none
      else
        match o.addSteps b with
        | some o => o.parse as
        | none => none
    else
      match o.parseOne a with
      | some o => o.parse (b :: as)
      | none => none

/-- The settings that the options ask for. -/
def settings (o : RunOptions) : Settings :=
  ⟨if o.fixedFrames then .compatible else .derived, o.maxSteps⟩

end RunOptions

namespace Command

/-- The command that `run` with some arguments is. -/
def parseRun (arguments : List String) : Command :=
  match RunOptions.parse {} arguments with
  | some o =>
    match o.file with
    | some file => run file o
    | none => rejected
  | none => rejected

/-- The command that `test` with some arguments is. -/
def parseTest : List String → Command
  | [] | ["--"] => test ""
  | ["--", filter] => test filter
  | [filter, "--"] => if isOption filter then rejected else test filter
  | [filter] => if isOption filter then rejected else test filter
  | _ => rejected

/-- The command of some arguments.  After two hyphens no subcommand is known; its
    name is then a mistake of its own. -/
def parse : List String → Command
  | [] => help
  | "help" :: [] | "help" :: ["--"] => help
  | "help" :: _ => rejected
  | "run" :: arguments => parseRun arguments
  | "test" :: arguments => parseTest arguments
  | ["--"] => help
  | "--" :: name :: _ =>
    if name = "help" ∨ name = "run" ∨ name = "test" then rejected else unknown "--"
  | name :: _ => if isOption name then rejected else unknown name

/-- The file that a command reads. -/
def file? : Command → Option String
  | run file _ => some file
  | _ => none

end Command

/-! ## Output -/

/-- The commands, a line each. -/
def usage : String :=
  "Usage:\n" ++
  "    dansk help                    Print this message\n" ++
  "    dansk run <program.dk>        Build program.dk and run in interpreter\n" ++
  "    dansk test [filter]           Run tests\n"

/-- What running a file prints.  A file that is not there or is empty counts as
    unreadable. -/
def RunOptions.output (o : RunOptions) (file : String) (source : Option String) : String :=
  match source with
  | none | some "" => s!"Could not read file: {file}\n"
  | some source =>
    match compile source with
    | .error reports => (reports.head?.map fun r => r.render source file).getD ""
    | .ok p =>
      let listing := if o.disassemble then p.text ++ "\n" else ""
      let r := p.run o.settings
      let complaint := match r.fault with
        | some fault => s!"Runtime error: {fault.message}\n"
        | none => ""
      listing ++ r.output ++ complaint

/-- The lines on an outcome. -/
def Corpus.Outcome.text (o : Corpus.Outcome) : String :=
  if o.passed then s!"[PASS] {o.name}\n"
  else s!"[FAIL] {o.name}\n    Expected: {o.expected}\n    Actual:   {o.actual}\n"

/-- What testing the cases prints whose names hold a text. -/
def testOutput (filter : String) : String :=
  let corpus := Corpus.ofText Corpus.suite
  let numerals := Corpus.numeralOutcomes
  let programs := corpus.outcomes filter {}
  let all := numerals ++ programs
  let passed := (all.filter Corpus.Outcome.passed).length
  "Danish number parsing\n" ++ String.join (numerals.map Corpus.Outcome.text) ++
    Corpus.suiteName ++ "\n" ++
    String.join (corpus.errors.map fun e => e.message Corpus.suiteName ++ "\n") ++
    String.join (programs.map Corpus.Outcome.text) ++
    s!"{passed} passed, {all.length - passed} failed\n"

/-- What a command prints, given the text of its file. -/
def Command.output (c : Command) (source : Option String) : String :=
  match c with
  | help => usage ++ "\n"
  | run file o => o.output file source
  | test filter => testOutput filter
  | unknown name => s!"Unknown subcommand {name}\n"
  | rejected => ""

end DanishProse
