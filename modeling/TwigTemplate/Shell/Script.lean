/-!
# Command lines of a shell

The part of the shell's language that printer commands are written in: words with quotes and
backslashes, redirections, pipelines, and the connectives `;`, `&&` and `||`. There are no variables
and no substitutions.
-/

namespace TwigTemplate.Shell

/-- Why a command line is refused. -/
inductive Fault where
  | unterminatedQuote
  | unexpected (what : String)
  deriving DecidableEq, Repr

namespace Fault

def message : Fault → String
  | .unterminatedQuote => "Syntax error: Unterminated quoted string"
  | .unexpected what => "Syntax error: " ++ what ++ " unexpected"

end Fault

/-! ## Tokens -/

inductive Token where
  | word (cs : List Char)
  /-- A digit just before a redirection. -/
  | stream (n : Nat)
  /-- Signs that stand for themselves; a line end is the sign of a newline. -/
  | sign (cs : List Char)
  deriving DecidableEq, Repr

/-- What the reader of tokens is in the middle of. Texts have the last character in front. -/
inductive Mode where
  | blank
  | word (cs : List Char)
  | single (cs : List Char)
  | double (cs : List Char)
  /-- After a backslash, in a word or in double quotes. -/
  | escape (quoted : Bool) (cs : List Char)
  | sign (c : Char)
  | comment

namespace Mode

def isSign (c : Char) : Bool :=
  c = ';' || c = '&' || c = '|' || c = '<' || c = '>' || c = '\n'

/-- The two characters are one sign. -/
def isDouble (c d : Char) : Bool :=
  [c, d] ∈ ["&&".toList, "||".toList, ">>".toList, ">&".toList, "<&".toList]

def digit? (cs : List Char) : Option Nat :=
  match cs with
  | [c] => if c.isDigit then some (c.toNat - 48) else none
  | _ => none

/-- The token of a word before the character `c`. -/
def closeWord (cs : List Char) (c : Char) : Token :=
  match if c = '<' || c = '>' then digit? cs else none with
  | some n => .stream n
  | none => .word cs.reverse

/-- Go on inside a word. -/
def continueWord (cs : List Char) (c : Char) : Mode :=
  if c = '\'' then .single cs
  else if c = '"' then .double cs
  else if c = '\\' then .escape false cs
  else .word (c :: cs)

/-- Start something new. -/
def start (c : Char) : Mode :=
  if c = ' ' || c = '\t' then .blank
  else if c = '#' then .comment
  else if isSign c then .sign c
  else continueWord [] c

/-- The tokens that a character completes, and what the reader is in the middle of after it. -/
def step : Mode → Char → List Token × Mode
  | .blank, c => ([], start c)
  | .word cs, c =>
    if c = ' ' || c = '\t' || isSign c then ([closeWord cs c], start c)
    else ([], continueWord cs c)
  | .single cs, c => ([], if c = '\'' then .word cs else .single (c :: cs))
  | .double cs, c =>
    ([], if c = '"' then .word cs else if c = '\\' then .escape true cs else .double (c :: cs))
  | .escape quoted cs, c =>
    let after := if quoted then Mode.double else .word
    if c = '\n' then ([], after cs)
    else if quoted && !(c = '"' || c = '\\' || c = '$' || c = (Char.ofNat 96)) then
      ([], after (c :: '\\' :: cs))
    else ([], after (c :: cs))
  | .sign s, c => if isDouble s c then ([.sign [s, c]], .blank) else ([.sign [s]], start c)
  | .comment, c => ([], if c = '\n' then .sign c else .comment)

/-- The tokens completed by the end of the line. -/
def finish : Mode → Except Fault (List Token)
  | .blank | .comment => .ok []
  | .word cs => .ok [.word cs.reverse]
  | .escape false cs => .ok [.word ('\\' :: cs).reverse]
  | .sign c => .ok [.sign [c]]
  | _ => .error .unterminatedQuote

end Mode

def tokens (mode : Mode) : List Char → Except Fault (List Token)
  | [] => mode.finish
  | c :: r => do
    let (found, next) := mode.step c
    return found ++ (← tokens next r)

/-! ## Scripts -/

inductive Redirect where
  | input (file : List Char)
  | output (stream : Nat) (file : List Char)
  /-- The stream goes where the other one goes. -/
  | duplicate (stream other : Nat)
  deriving DecidableEq, Repr

/-- A command by its name and arguments, with its redirections in order. -/
structure Command where
  words : List (List Char)
  redirects : List Redirect
  deriving DecidableEq, Repr

namespace Command

def empty : Command := ⟨[], []⟩

def isEmpty (c : Command) : Bool :=
  c.words.isEmpty && c.redirects.isEmpty

def addWord (c : Command) (cs : List Char) : Command :=
  { c with words := c.words ++ [cs] }

def addRedirect (c : Command) (r : Redirect) : Command :=
  { c with redirects := c.redirects ++ [r] }

end Command

/-- When a pipeline runs, by the status before it. -/
inductive Condition where
  | always
  | ifOk
  | ifFailed
  deriving DecidableEq, Repr

/-- Pipelines, each with the condition under which it runs. -/
abbrev Script := List (Condition × List Command)

namespace Script

/-- The redirection that a sign and the word after it stand for. -/
def redirect? (stream : Option Nat) (sign word : List Char) : Option Redirect :=
  if sign = ['<'] then some (.input word)
  else if sign = ['>'] || sign = ['>', '>'] then some (.output (stream.getD 1) word)
  else if sign = ['>', '&'] then (Mode.digit? word).map fun other => .duplicate (stream.getD 1) other
  else none

/-- How a pipeline goes on after a sign. -/
def condition? (sign : List Char) : Option Condition :=
  if sign = ['&', '&'] then some .ifOk
  else if sign = ['|', '|'] then some .ifFailed
  else if sign = [';'] || sign = ['\n'] then some .always
  else none

/-- A redirection at the start of the tokens, and what follows it. -/
def leadingRedirect? : List Token → Option (Redirect × List Token)
  | .stream n :: .sign s :: .word w :: rest => (redirect? (some n) s w).map (·, rest)
  | .sign s :: .word w :: rest => (redirect? none s w).map (·, rest)
  | _ => none

theorem leadingRedirect?_length_lt {ts rest : List Token} {r : Redirect}
    (h : leadingRedirect? ts = some (r, rest)) : rest.length < ts.length := by
  unfold leadingRedirect? at h
  split at h <;> simp only [Option.map_eq_some_iff, Prod.mk.injEq, reduceCtorEq] at h <;>
    obtain ⟨_, -, -, rfl⟩ := h <;> simp only [List.length_cons] <;> omega

def signName (s : List Char) : String :=
  if s = ['\n'] then "newline" else "\"" ++ String.ofList s ++ "\""

/-- Read pipelines. `pipeline` has the commands before the current one, the last one in front. -/
def read (when : Condition) (pipeline : List Command) (current : Command) (ts : List Token) :
    Except Fault Script :=
  match h : leadingRedirect? ts with
  | some (r, rest) =>
    have := leadingRedirect?_length_lt h
    read when pipeline (current.addRedirect r) rest
  | none =>
    match ts with
    | [] =>
      if !current.isEmpty then .ok [(when, (current :: pipeline).reverse)]
      else if pipeline.isEmpty && when = .always then .ok []
      else .error (.unexpected "end of file")
    | .word w :: rest => read when pipeline (current.addWord w) rest
    | .stream _ :: rest => read when pipeline current rest
    | .sign s :: rest =>
      if current.isEmpty then
        if s = ['\n'] then read when pipeline current rest
        else .error (.unexpected (signName s))
      else if s = ['|'] then read when (current :: pipeline) .empty rest
      else match condition? s with
        | some next => do
          let more ← read next [] .empty rest
          return (when, (current :: pipeline).reverse) :: more
        | none => .error (.unexpected (signName s))
  termination_by ts.length
  decreasing_by all_goals (simp_wf; try omega)

/-- The script of a command line. -/
def ofText (cs : List Char) : Except Fault Script := do
  read .always [] .empty (← tokens .blank cs)

end Script

end TwigTemplate.Shell
