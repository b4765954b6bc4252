import TwigTemplate.Config.Read
import TwigTemplate.Ignore
import TwigTemplate.Libraries.Basic
import TwigTemplate.Toml.Document

/-!
# The libraries the program runs with

A configuration is written in TOML, globs and ignore rules follow the customs of version control,
and documents have URIs.
-/

namespace TwigTemplate.Libraries

/-- In a glob of its own a star may match a slash, and every bracket has to be closed. -/
def globStyle : Glob.Style := ⟨true, false⟩

/-- The path of a URI: what follows the scheme and the authority, up to a query or a fragment. -/
def uriPath (uri : List Char) : List Char :=
  let afterScheme := match Text.cutAt? [':'] uri with
    | some (_, rest) => rest
    | none => uri
  let hierarchy := afterScheme.takeWhile fun c => c ≠ '?' && c ≠ '#'
  match Text.after? ['/', '/'] hierarchy with
  | some rest => rest.dropWhile (· ≠ '/')
  | none => hierarchy

instance standard : Libraries where
  config? cs := (Toml.read? cs).bind Config.ofEntries?
  isGlob text := (Glob.parse globStyle text.toList).isOk
  globs? texts :=
    let globs := texts.filterMap fun text => (Glob.parse globStyle text.toList).toOption
    some fun path => globs.any fun glob => glob.isMatch path.text.toUTF8.toList
  isRule line := (Ignore.Rule.ofLine line.toList).isOk
  rules? root lines :=
    let rules := Ignore.ofLines (lines.map String.toList)
    some fun path => Ignore.ignores rules (Ignore.subject root path)
  ignoreFile? root content :=
    let rules := Ignore.ofFile content
    some fun path => Ignore.ignores rules (Ignore.subject root path)
  pathOf uri := String.ofList (uriPath uri.toList)

end TwigTemplate.Libraries
