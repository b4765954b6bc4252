import TwigTemplate.Config.Basic
import TwigTemplate.FileTree.Basic
import TwigTemplate.Path

/-!
# What is left to libraries

A project is set up in notations that it shares with other programs: the language of its
configuration, globs, the rules of ignore files, and the addresses by which an editor names
documents. How these are read is up to libraries. The program takes them as they come, so all that
is said about it holds whatever they do.
-/

namespace TwigTemplate

/-- The readers of notations that the program does not define. -/
class Libraries where
  /-- The configuration that a text sets; a text may set none. -/
  config? : List Char → Option Config
  /-- The text is a glob. -/
  isGlob : String → Bool
  /-- The paths that one of some globs matches, if they can be put together. -/
  globs? : List String → Option (Path → Bool)
  /-- The line may stand among ignore rules. -/
  isRule : String → Bool
  /-- What ignore rules leave out below a root, if they can be put together: a path, and is it a
  directory? -/
  rules? : (root : Path) → List String → Option (Path → Bool → Bool)
  /-- The same for the rules of an ignore file. Lines in it that are no rules are passed over. -/
  ignoreFile? : (root : Path) → Content → Option (Path → Bool → Bool)
  /-- The path in the address of a document. -/
  pathOf : (uri : String) → String

end TwigTemplate
