import TwigTemplate.Shell.Program
import TwigTemplate.Shell.Script

/-!
# Running a script

The commands of a script share one input, which the first to read it uses up. Redirections send the
two streams of a command elsewhere; files are read but never written, so a script has no effect but
its output.
-/

namespace TwigTemplate.Shell

/-- Where a stream goes. -/
inductive Sink where
  | output
  | errors
  | nowhere
  deriving DecidableEq, Repr

/-- Where the streams of a command come from and go to. -/
structure Wiring where
  input : Option (List UInt8)
  output : Sink
  errors : Sink

namespace Wiring

def plain : Wiring := ⟨none, .output, .errors⟩

def sink (w : Wiring) (stream : Nat) : Sink :=
  if stream = 1 then w.output else if stream = 2 then w.errors else .nowhere

def setSink (w : Wiring) (stream : Nat) (sink : Sink) : Wiring :=
  if stream = 1 then { w with output := sink }
  else if stream = 2 then { w with errors := sink }
  else w

/-- Follow redirections in order, up to a file that cannot be read. -/
def apply (read : List Char → Option Content) (w : Wiring) :
    List Redirect → Except (List Char) Wiring
  | [] => .ok w
  | .input file :: rest =>
    if file = "/dev/null".toList then apply read { w with input := some [] } rest
    else match read file with
      | some content => apply read { w with input := some content.bytes } rest
      | none => .error file
  | .output stream _ :: rest => apply read (w.setSink stream .nowhere) rest
  | .duplicate stream other :: rest => apply read (w.setSink stream (w.sink other)) rest

/-- The effect of a program as seen from outside its wiring. -/
def collect (w : Wiring) (input : List UInt8) (e : Effect) : Effect :=
  let sent (sink : Sink) : List UInt8 :=
    (if w.output = sink then e.output else []) ++ (if w.errors = sink then e.errors else [])
  ⟨sent .output, sent .errors, if w.input.isSome then input else e.unread, e.status, e.exits⟩

end Wiring

def runCommand (read : List Char → Option Content) (status : Nat) (input : List UInt8)
    (c : Command) : Effect :=
  match Wiring.plain.apply read c.redirects with
  | .error file => .fail input 2 ("cannot open " ++ String.ofList file ++ ": No such file")
  | .ok w =>
    let given := w.input.getD input
    w.collect input <| match c.words with
      | [] => .write given []
      | name :: arguments => runProgram read status given name arguments

/-- Run commands, each on the output of the one before it. -/
def runPipeline (read : List Char → Option Content) (status : Nat) (input : List UInt8) :
    List Command → Effect
  | [] => .write input []
  | [c] => runCommand read status input c
  | c :: next :: rest =>
    let first := runCommand read status input c
    let last := runPipeline read status first.output (next :: rest)
    ⟨last.output, first.errors ++ last.errors, first.unread, last.status, false⟩

namespace Condition

def holds (c : Condition) (status : Nat) : Bool :=
  match c with
  | .always => true
  | .ifOk => status == 0
  | .ifFailed => status != 0

end Condition

/-- Run a script to its end or to an `exit`. -/
def Script.run (read : List Char → Option Content) (status : Nat) (input : List UInt8) :
    Script → Effect
  | [] => ⟨[], [], input, status, false⟩
  | (condition, pipeline) :: rest =>
    if condition.holds status then
      let first := runPipeline read status input pipeline
      if first.exits then first
      else
        let more := Script.run read first.status first.unread rest
        { more with output := first.output ++ more.output, errors := first.errors ++ more.errors }
    else Script.run read status input rest

/-- Run a command line on an input. -/
def run (read : List Char → Option Content) (line : List Char) (input : List UInt8) : Effect :=
  match Script.ofText line with
  | .ok script => script.run read 0 input
  | .error fault => .fail input 2 fault.message

end TwigTemplate.Shell
