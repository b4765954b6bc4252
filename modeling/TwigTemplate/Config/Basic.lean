import TwigTemplate.Layout.Reformat
import TwigTemplate.Report.Analysis

/-!
# Project configuration

What a project may set, with the value of each setting that is not set.
-/

namespace TwigTemplate

/-- How markup is laid out: by a printer that has a name, or by a command. -/
inductive PrinterChoice where
  | named (name : String)
  | command (line : String)
  deriving DecidableEq, Repr

/-- What is checked. -/
structure LintConfig where
  options : LintOptions
  /-- Findings on style fail a check. -/
  strict : Bool
  deriving DecidableEq, Repr

/-- How files are formatted. -/
structure FormatConfig where
  indentWidth : Nat
  useTabs : Bool
  maxBlankLines : Nat
  markupIndent : Bool
  printer : PrinterChoice
  deriving DecidableEq, Repr

/-- Which files are templates. -/
structure FilesConfig where
  /-- Endings of file names, with or without the dot in front. -/
  extensions : List String
  /-- Files with more bytes than this are refused. -/
  maxFileSize : Nat
  deriving DecidableEq, Repr

structure Config where
  lint : LintConfig
  format : FormatConfig
  files : FilesConfig
  /-- Ignore patterns for what is left out. -/
  excluded : List String
  /-- Globs of files that are templates whatever their ending. -/
  included : List String
  /-- Leave the project's ignore file unread. -/
  disableGitignore : Bool
  deriving DecidableEq, Repr

namespace Config

/-- Ten mebibytes. -/
def defaultMaxFileSize : Nat := 10 * 1024 * 1024

def standard : Config where
  lint := ⟨.standard, false⟩
  format := ⟨4, false, 2, false, .named "builtin"⟩
  files := ⟨["twig"], defaultMaxFileSize⟩
  excluded := []
  included := []
  disableGitignore := false

/-- Where a configuration file may lie below a project root, in order of precedence. -/
def fileCandidates : List (List String) :=
  [["twigkit.toml"], [".twigkit.toml"], [".config", "twigkit.toml"]]

def reflowOptions (c : Config) : Layout.ReflowOptions where
  printer :=
    { Layout.PrinterOptions.standard with
      indentWidth := c.format.indentWidth
      useTabs := c.format.useTabs
      maxBlankLines := c.format.maxBlankLines }
  markupIndent := c.format.markupIndent

/-- The configured printer, given what runs a command. -/
def printer (c : Config) (run : String → Layout.Printer) : Except Failure Layout.Printer :=
  match c.format.printer with
  | .named name => if name = "builtin" then .ok .builtin else .error (.unknownPrinter name)
  | .command line => .ok (run line)

/-- The file that a new project gets. -/
def initialText : String :=
  "\n".intercalate
    ["[lint]",
      "# Report binary operators written without surrounding spaces.",
      "operator_spacing = true",
      "# Report `\x7b\x7b \x7d\x7d` with nothing inside.",
      "empty_expression = true",
      "# Treat style diagnostics as failures.",
      "strict = false",
      "",
      "[format]",
      "indent_width = 4",
      "# \"builtin\" or \x7b command = \"prettier --parser html\" \x7d",
      "printer = \"builtin\"",
      "",
      "[files]",
      "extensions = [\"twig\"]",
      "",
      "[exclude]",
      "patterns = [\"vendor/\"]",
      ""]

/-- A file name with something before the dot and the extension. -/
def hasExtension (extension name : List Char) : Bool :=
  let ending := '.' :: extension.dropWhile (· = '.')
  ending.length < name.length && Text.endsWith ending name

/-- The last part of a path is the name of a template. -/
def isTemplateName (c : FilesConfig) (name : String) : Bool :=
  c.extensions.any fun extension => hasExtension extension.toList name.toList

end Config

end TwigTemplate
