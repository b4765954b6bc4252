import TwigTemplate.Layout.Printer
import TwigTemplate.Libraries.Standard
import TwigTemplate.Shell.Run

/-!
# Commands as printers

A command gets the markup as its input and writes the layout. It fails with a status other than
zero; the reason is what it wrote to the stream of errors. Commands are the outermost layer of the
program, together with the libraries that it runs with.
-/

namespace TwigTemplate.Shell

/-- The text of bytes, with a replacement character in place of what is no text. -/
def decodeLossy (bytes : List UInt8) : List Char :=
  match Content.ofBytes bytes with
  | .text cs => cs
  | .binary bytes => bytes.map fun b => if b < 128 then Char.ofNat b.toNat else '\uFFFD'

/-- Why a command failed. -/
def reason (e : Effect) : String :=
  let errors := Text.trim (decodeLossy e.errors)
  if errors.isEmpty then "command exited with status " ++ toString e.status
  else String.ofList errors

/-- The printer of a command line that is run in a directory of a tree. -/
def printer (t : FileTree) (directory : Path) (line : String) : Layout.Printer := fun _ cs =>
  if (Text.trim line.toList).isEmpty then .error (.printer "no printer command configured")
  else if !t.isDirectory directory then
    .error (.printerCommand line "No such file or directory (os error 2)")
  else
    let e := run (fun file => t.read? (directory.join (Path.ofText file))) line.toList (encode cs)
    if e.status ≠ 0 then .error (.printerCommand line (reason e))
    else match Content.ofBytes e.output with
      | .text cs => .ok cs
      | .binary _ => .error (.printer "printer output is not valid UTF-8")

end TwigTemplate.Shell
