import TwigTemplate.CommandLine.Grammar
import TwigTemplate.Project.Basic
import TwigTemplate.Text.Json

/-!
# Listing the findings of a check

The findings for a reader, for a program, and as annotations of a build. Files are named by their
paths from the root.
-/

namespace TwigTemplate.CommandLine.Listing

open Project

/-- How a file is named. -/
def nameOf (root path : Path) : String :=
  (path.relativeTo root).text

/-- Every finding with the name of its file, in order. -/
def located (root : Path) (reports : List FileReport) : List (String × Finding) :=
  reports.flatMap fun r => r.report.findings.map fun f => (nameOf root r.path, f)

/-- How many findings there are in how many files. -/
def summary (reports : List FileReport) : String :=
  let errors := FileReport.errorCount reports
  let warnings := FileReport.warningCount reports
  let checked := toString reports.length
  if errors + warnings = 0 then "No problems found in " ++ checked ++ " file(s)."
  else "Found " ++ toString errors ++ " error(s) and " ++ toString warnings ++ " warning(s) in " ++
    checked ++ " file(s)."

def textLine (name : String) (f : Finding) : String :=
  name ++ ":" ++ toString f.line ++ ":" ++ toString f.column ++ " " ++ f.cause.category.label ++
    ": " ++ f.cause.message

/-- The findings and, after an empty line, the summary. -/
def text (root : Path) (reports : List FileReport) : List String :=
  let lines := (located root reports).map fun (name, f) => textLine name f
  (if lines.isEmpty then [] else lines ++ [""]) ++ [summary reports]

def annotation (strict : Bool) (name : String) (f : Finding) : String :=
  "::" ++ (if f.isError || strict then "error" else "warning") ++ " file=" ++ name ++ ",line=" ++
    toString f.line ++ ",col=" ++ toString f.column ++ "::" ++ f.cause.message

def annotations (root : Path) (strict : Bool) (reports : List FileReport) : List String :=
  (located root reports).map fun (name, f) => annotation strict name f

open Text in
def findingObject (f : Finding) : String :=
  Json.object [("category", Json.string f.cause.category.label), ("column", Json.number f.column),
    ("line", Json.number f.line), ("message", Json.string f.cause.message)]

open Text in
/-- The findings as one JSON object. -/
def json (root : Path) (ok : Bool) (reports : List FileReport) : String :=
  let files := (FileReport.withFindings reports).map fun r =>
    Json.object [("diagnostics", Json.array (r.report.findings.map findingObject)),
      ("file", Json.string (nameOf root r.path))]
  Json.object [("errors", Json.number (FileReport.errorCount reports)),
    ("files", Json.array files), ("ok", Json.bool ok),
    ("warnings", Json.number (FileReport.warningCount reports))]

end TwigTemplate.CommandLine.Listing
