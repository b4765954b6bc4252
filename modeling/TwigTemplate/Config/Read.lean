import TwigTemplate.Config.Basic
import TwigTemplate.Toml.Value

/-!
# Reading a configuration

Each section is a table with known keys, or an array that gives the settings of those keys in order.
A key that is not known is left unread; a setting of the wrong kind makes the whole configuration
malformed.
-/

namespace TwigTemplate.Config

open Toml (Value Entries)

/-- The settings of a section: by key, or by place. -/
def setting? (v : Value) (key : String) (place : Nat) : Option Value :=
  match v with
  | .table _ es => Entries.get? es key
  | .array vs => vs[place]?
  | .tables items => items.reverse[place]?.map (.table .header)
  | _ => none

/-- A value that may stand for a section. A date has no settings. -/
def isSection : Value → Bool
  | .table _ _ | .array _ | .tables _ | .datetime => true
  | _ => false

/-- Read a setting, or take its standard value where the section does not have it. -/
def settingOr {α : Type} (v : Value) (key : String) (place : Nat) (standard : α)
    (read : Value → Option α) : Option α :=
  match setting? v key place with
  | none => some standard
  | some s => read s

def readBool : Value → Option Bool
  | .boolean b => some b
  | _ => none

/-- Counts fit 64 bits. -/
def readCount : Value → Option Nat
  | .integer n => if 0 ≤ n ∧ n < (Nat.pow 2 64 : Nat) then some n.toNat else none
  | _ => none

def readString : Value → Option String
  | .string s => some s
  | _ => none

def readStrings : Value → Option (List String)
  | .array vs => vs.mapM readString
  | _ => none

mutual

/-- All integers of a value fit 64 bits. -/
def fitsWord : Value → Bool
  | .integer n => -(Nat.pow 2 63 : Nat) ≤ n && n < (Nat.pow 2 64 : Nat)
  | .array vs => fitsWords vs
  | .table _ es => fitsWordEntries es
  | .tables items => fitsWordTables items
  | _ => true

def fitsWords : List Value → Bool
  | [] => true
  | v :: vs => fitsWord v && fitsWords vs

def fitsWordEntries : List (String × Value) → Bool
  | [] => true
  | (_, v) :: es => fitsWord v && fitsWordEntries es

def fitsWordTables : List (List (String × Value)) → Bool
  | [] => true
  | es :: items => fitsWordEntries es && fitsWordTables items

end

/-- A printer is a name, or a table with a command. -/
def readPrinter (v : Value) : Option PrinterChoice :=
  match v with
  | .string s => some (.named s)
  | .table _ es =>
    if fitsWord v then ((Entries.get? es "command").bind readString).map .command else none
  | _ => none

def readLint (v : Value) : Option LintConfig := do
  if !isSection v then none
  return ⟨⟨← settingOr v "operator_spacing" 0 true readBool,
    ← settingOr v "empty_expression" 1 true readBool⟩, ← settingOr v "strict" 2 false readBool⟩

def readFormat (v : Value) : Option FormatConfig := do
  if !isSection v then none
  let f := standard.format
  return ⟨← settingOr v "indent_width" 0 f.indentWidth readCount,
    ← settingOr v "use_tabs" 1 f.useTabs readBool,
    ← settingOr v "max_preserve_newlines" 2 f.maxBlankLines readCount,
    ← settingOr v "markup_indent" 3 f.markupIndent readBool,
    ← settingOr v "printer" 4 f.printer readPrinter⟩

def readFiles (v : Value) : Option FilesConfig := do
  if !isSection v then none
  return ⟨← settingOr v "extensions" 0 standard.files.extensions readStrings,
    ← settingOr v "max_file_size" 1 standard.files.maxFileSize readCount⟩

def readPatterns (v : Value) : Option (List String) :=
  if isSection v then settingOr v "patterns" 0 [] readStrings else none

def ofEntries? (es : Entries) : Option Config := do
  let root := Value.table .header es
  return ⟨← settingOr root "lint" 0 standard.lint readLint,
    ← settingOr root "format" 1 standard.format readFormat,
    ← settingOr root "files" 2 standard.files readFiles,
    ← settingOr root "exclude" 3 standard.excluded readPatterns,
    ← settingOr root "include" 4 standard.included readPatterns,
    ← settingOr root "disable_gitignore" 5 standard.disableGitignore readBool⟩

end TwigTemplate.Config
