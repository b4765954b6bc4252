import TwigTemplate.FileTree.Resolve
import TwigTemplate.Shell.Filter

/-!
# The programs of the shell

What each program makes of its arguments and its input. A program writes to two streams, leaves part
of its input unread and ends with a status. Text is bytes here: `printf` can write any byte.
-/

namespace TwigTemplate.Shell

/-- What a program did. -/
structure Effect where
  output : List UInt8
  errors : List UInt8
  /-- The input that is still unread. -/
  unread : List UInt8
  status : Nat
  /-- The shell ends after it. -/
  exits : Bool
  deriving DecidableEq, Repr

namespace Effect

/-- Write bytes and succeed. -/
def write (input output : List UInt8) : Effect :=
  ⟨output, [], input, 0, false⟩

/-- Write a message of the shell itself. -/
def fail (input : List UInt8) (status : Nat) (message : String) : Effect :=
  ⟨[], encode ("sh: 1: " ++ message ++ "\n").toList, input, status, false⟩

end Effect

/-! ## Escapes -/

def isOctal (c : Char) : Bool :=
  '0' ≤ c && c ≤ '7'

/-- The byte of up to three octal digits in front, and the rest. -/
def readOctal (cs : List Char) : UInt8 × List Char :=
  let digits := (cs.takeWhile isOctal).take 3
  ((digits.foldl (fun (n : Nat) (c : Char) => 8 * n + (c.toNat - 48)) 0).toUInt8,
    cs.drop digits.length)

/-- The digits of an octal escape and what follows; in an argument the first zero is no digit. -/
def octalText (argument : Bool) (c : Char) (r : List Char) : List Char :=
  if argument && c = '0' then r else c :: r

theorem octalText_length_le (argument : Bool) (c : Char) (r : List Char) :
    (octalText argument c r).length ≤ r.length + 1 := by
  unfold octalText
  split <;> simp

theorem readOctal_length_le (cs : List Char) : (readOctal cs).2.length ≤ cs.length := by
  simp [readOctal]

/-- The byte of the letter after a backslash. -/
def escapeOf? (c : Char) : Option UInt8 :=
  ("nt\\rabfv\"".toList.zip [10, 9, 92, 13, 7, 8, 12, 11, 34]).lookup c

/-- Text with its escapes replaced, up to `\c` in an argument; octal escapes have three digits, and
in an argument one more zero in front. -/
def unescape (argument : Bool) : List Char → List UInt8
  | '\\' :: c :: r =>
    if isOctal c then
      have := octalText_length_le argument c r
      have := readOctal_length_le (octalText argument c r)
      (readOctal (octalText argument c r)).1 ::
        unescape argument (readOctal (octalText argument c r)).2
    else if argument && c = 'c' then []
    else match escapeOf? c with
      | some b => b :: unescape argument r
      | none => 92 :: encode [c] ++ unescape argument r
  | c :: r => encode [c] ++ unescape argument r
  | [] => []
  termination_by cs => cs.length
  decreasing_by all_goals (simp only [List.length_cons]; omega)

/-! ## Programs -/

/-- What a directive of `printf` makes of an argument. -/
def directive (c : Char) (argument : List Char) : List UInt8 :=
  if c = 's' then encode argument
  else if c = 'b' then unescape true argument
  else if c = 'c' then encode (argument.take 1)
  else if c = 'd' || c = 'i' || c = 'u' then
    encode (toString ((String.ofList argument).toInt?.getD 0)).toList
  else encode ['%', c]

/-- One pass of `printf` over its format: what it writes and the arguments it leaves. -/
def printOnce (arguments : List (List Char)) : List Char → List UInt8 × List (List Char)
  | [] => ([], arguments)
  | '%' :: '%' :: r =>
    let (bytes, left) := printOnce arguments r
    (37 :: bytes, left)
  | '%' :: c :: r =>
    let (bytes, left) := printOnce arguments.tail r
    (directive c (arguments.headD []) ++ bytes, left)
  | c :: r =>
    have := List.dropWhile_suffix (· ≠ '%') (l := r) |>.length_le
    let (bytes, left) := printOnce arguments (r.dropWhile (· ≠ '%'))
    (unescape false (c :: r.takeWhile (· ≠ '%')) ++ bytes, left)
  termination_by cs => cs.length
  decreasing_by all_goals (simp only [List.length_cons]; omega)

/-- `printf` goes over its format until it has used up its arguments; `passes` bounds how often. -/
def printAll (format : List Char) : (passes : Nat) → List (List Char) → List UInt8
  | 0, _ => []
  | passes + 1, arguments =>
    let (bytes, left) := printOnce arguments format
    if left.isEmpty || left.length = arguments.length then bytes
    else bytes ++ printAll format passes left

/-- What `echo` writes. -/
def echo (arguments : List (List Char)) : List UInt8 :=
  match arguments with
  | ['-', 'n'] :: rest => unescape true (Text.joinWith [' '] rest)
  | _ => unescape true (Text.joinWith [' '] arguments) ++ [10]

/-- What `cat` does with its files; a lone hyphen is the input. -/
def concatenate (read : List Char → Option Content) (input : List UInt8) :
    List (List Char) → Effect
  | [] => .write input []
  | file :: rest =>
    if file = ['-'] then
      let e := concatenate read [] rest
      { e with output := input ++ e.output }
    else
      let e := concatenate read input rest
      match read file with
      | some content => { e with output := content.bytes ++ e.output }
      | none =>
        let message := "cat: ".toList ++ file ++ ": No such file or directory\n".toList
        { e with errors := encode message ++ e.errors, status := 1 }

/-- Run a program by its name. -/
def runProgram (read : List Char → Option Content) (status : Nat) (input : List UInt8)
    (name : List Char) (arguments : List (List Char)) : Effect :=
  match String.ofList name with
  | "true" | ":" => .write input []
  | "false" => { Effect.write input [] with status := 1 }
  | "echo" => .write input (echo arguments)
  | "printf" =>
    match arguments with
    | [] => { Effect.fail input 2 "printf: usage: printf format [arg ...]" with status := 2 }
    | format :: rest => .write input (printAll format (rest.length + 1) rest)
  | "cat" => concatenate read input (if arguments.isEmpty then [['-']] else arguments)
  | "exit" =>
    match arguments with
    | [] => ⟨[], [], input, status, true⟩
    | n :: _ =>
      match (String.ofList n).toNat? with
      | some n => ⟨[], [], input, n % 256, true⟩
      | none =>
        { Effect.fail input 2 ("exit: Illegal number: " ++ String.ofList n) with exits := true }
  | program =>
    match Filter.run? name arguments input with
    | some output => .write [] output
    | none => .fail input 127 (program ++ ": not found")

end TwigTemplate.Shell
