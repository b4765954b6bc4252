/-!
# Failures

Everything that can go wrong outside the templates themselves, by cause, with the wording that a
user reads.
-/

namespace TwigTemplate

inductive Failure where
  /-- A file could not be read or written. -/
  | fileAccess
  /-- The configuration is not what it should be; the wording depends on the fault. -/
  | malformedConfig
  | unknownPrinter (name : String)
  | printer (reason : String)
  | printerCommand (command reason : String)
  | placeholderLost (placeholder : String)
  | fileTooLarge (path : String) (size limit : Nat)
  | invalidExcludePattern (pattern : String)
  | linkCycle (path : String)
  deriving DecidableEq, Repr

namespace Failure

def quoted (s : String) : String :=
  "`" ++ s ++ "`"

def message : Failure → String
  | .fileAccess => "file access failed"
  | .malformedConfig => "failed to parse config file"
  | .unknownPrinter name =>
    "failed to parse config file: unknown printer " ++ quoted name ++
      ", expected \"builtin\" or \x7b command = \"...\" \x7d"
  | .printer reason => "markup printer failed: " ++ reason
  | .printerCommand command reason =>
    "printer command " ++ quoted command ++ " failed: " ++ reason
  | .placeholderLost placeholder =>
    "markup printer dropped the template region placeholder " ++ quoted placeholder
  | .fileTooLarge path size limit =>
    "file too large: " ++ quoted path ++ " is " ++ toString size ++ " bytes (limit: " ++
      toString limit ++ " bytes)"
  | .invalidExcludePattern pattern => "invalid exclude pattern " ++ quoted pattern
  | .linkCycle path => "symlink cycle detected at: " ++ quoted path

/-- The name of the cause that a report starts with. -/
def code : Failure → String
  | .fileAccess => "twigkit::io_error"
  | .malformedConfig | .unknownPrinter _ => "twigkit::config_parse"
  | .printer _ => "twigkit::printer"
  | .printerCommand _ _ => "twigkit::printer_command"
  | .placeholderLost _ => "twigkit::placeholder_lost"
  | .fileTooLarge _ _ _ => "twigkit::file_too_large"
  | .invalidExcludePattern _ => "twigkit::invalid_exclude_pattern"
  | .linkCycle _ => "twigkit::symlink_cycle"

end Failure

end TwigTemplate
