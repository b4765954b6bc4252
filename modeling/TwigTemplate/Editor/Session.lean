import TwigTemplate.Editor.Hover
import TwigTemplate.Editor.Mark
import TwigTemplate.Editor.Suggestion

/-!
# Editor sessions

A session holds the configuration of a workspace and the text of every open document. Events of the
editor change it, and it sends marks in answer; questions are answered from it and leave it as it is.
After every event, the marks last sent for a document are those of its text under the current
configuration.
-/

namespace TwigTemplate.Editor

structure Session where
  /-- The workspace, if there is one. -/
  root : Option Path
  config : Config
  /-- The open documents by their names. -/
  documents : List (String × List Char)
  /-- The editor has asked for the end. -/
  stopped : Bool
  deriving DecidableEq, Repr

/-- What an editor tells. -/
inductive Event where
  | opened (uri : String) (text : List Char)
  /-- Each change gives the whole text; the last one counts. -/
  | changed (uri : String) (texts : List (List Char))
  | saved (uri : String) (text : Option (List Char))
  | closed (uri : String)
  deriving DecidableEq, Repr

/-- What an editor asks. -/
inductive Question where
  | format (uri : String)
  | folds (uri : String)
  | hover (uri : String) (position : Position)
  | complete (uri : String) (position : Position)
  | stop
  deriving DecidableEq, Repr

/-- What is sent to an editor unasked. -/
inductive Notice where
  /-- The marks of a document take the place of those sent before. -/
  | marks (uri : String) (marks : List Mark)
  | failed (message : String)
  | started
  deriving DecidableEq, Repr

inductive Answer where
  | nothing
  | edits (edits : List Edit)
  | folds (folds : List Range)
  | hover (hover : Hover)
  | suggestions (suggestions : List Suggestion)
  /-- The session has ended. -/
  | refused
  deriving DecidableEq, Repr

namespace Session

/-! ## Names -/

def name : String := "twigkit-lsp"

def version : String := "0.1.0"

/-- Characters after which an editor asks for completions by itself. -/
def triggerCharacters : List String := ["|", "%", " "]

def startedMessage : String := "twigkit language server initialized"

def failedMessage (f : Failure) : String :=
  "twigkit: " ++ f.message

/-- The document is the configuration of a project. -/
def isConfig [Libraries] (uri : String) : Bool :=
  Text.endsWith "twigkit.toml".toList (Libraries.pathOf uri).toList

/-! ## Documents -/

def document? (s : Session) (uri : String) : Option (List Char) :=
  s.documents.lookup uri

/-- Documents with the text of one of them replaced, or with one more at the end. -/
def putIn (uri : String) (text : List Char) :
    List (String × List Char) → List (String × List Char)
  | [] => [(uri, text)]
  | (u, t) :: rest => if u = uri then (u, text) :: rest else (u, t) :: putIn uri text rest

def put (s : Session) (uri : String) (text : List Char) : Session :=
  { s with documents := putIn uri text s.documents }

def remove (s : Session) (uri : String) : Session :=
  { s with documents := s.documents.filter (·.1 ≠ uri) }

/-- The marks of a document; a document that is not open has none. -/
def marksOf (s : Session) (uri : String) : List Mark :=
  match s.document? uri with
  | some cs => marks s.config.lint.options cs
  | none => []

def publish (s : Session) (uri : String) : Notice :=
  .marks uri (s.marksOf uri)

/-! ## Events -/

/-- Read the configuration of the workspace again. If that fails the old one stays. -/
def reload [Libraries] (t : FileTree) (s : Session) : Session :=
  match s.root with
  | none => s
  | some root =>
    match Config.load t root with
    | .ok config => { s with config := config.getD .standard }
    | .error _ => s

/-- A session for a workspace. -/
def start [Libraries] (t : FileTree) (root : Option Path) : Session :=
  reload t ⟨root, .standard, [], false⟩

/-- Take the text of a document and send its marks. -/
def update (s : Session) (uri : String) (text : List Char) : Session × List Notice :=
  let s := s.put uri text
  (s, [s.publish uri])

def handle [Libraries] (t : FileTree) (s : Session) (e : Event) : Session × List Notice :=
  if s.stopped then (s, [])
  else match e with
    | .opened uri text => s.update uri text
    | .changed uri texts =>
      match texts.getLast? with
      | some text => s.update uri text
      | none => (s, [])
    | .saved uri text =>
      if isConfig uri then
        let s := s.reload t
        (s, s.documents.map fun (uri, _) => s.publish uri)
      else match text with
        | some text => s.update uri text
        | none => (s, [s.publish uri])
    | .closed uri => (s.remove uri, [.marks uri []])

/-! ## Questions -/

/-- The answer to a request to format a document; a failure is shown to the user. -/
def format (run : Path → String → Layout.Printer) (s : Session) (uri : String) :
    Answer × List Notice :=
  match s.document? uri with
  | none => (.nothing, [])
  | some cs =>
    let edits := do
      let printer ← s.config.printer (run (s.root.getD .here))
      formatEdits printer s.config.reflowOptions cs
    match edits with
    | .ok edits => (.edits edits, [])
    | .error f => (.nothing, [.failed (failedMessage f)])

/-- Answer a question. Commands are run by `run`. -/
def answer (run : Path → String → Layout.Printer) (s : Session) (q : Question) :
    Answer × List Notice :=
  if s.stopped then (.refused, [])
  else match q with
    | .format uri => s.format run uri
    | .folds uri =>
      match s.document? uri with
      | some cs => (.folds (foldRanges cs), [])
      | none => (.nothing, [])
    | .hover uri p =>
      match (s.document? uri).bind (hover? · p) with
      | some hover => (.hover hover, [])
      | none => (.nothing, [])
    | .complete uri p =>
      match ((s.document? uri).map (suggestions · p)).getD [] with
      | [] => (.nothing, [])
      | found => (.suggestions found, [])
    | .stop => (.nothing, [])

/-- The session after a question: only the request to stop changes it. -/
def afterQuestion (s : Session) (q : Question) : Session :=
  if q = .stop then { s with stopped := true } else s

end Session

end TwigTemplate.Editor
