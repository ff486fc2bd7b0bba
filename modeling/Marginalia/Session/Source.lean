import Marginalia.Annotation
import Marginalia.Outline.Build
import Marginalia.Session.Basic

/-!
# Sources in a session

From a source to its outline: the files of the grammar library are located, the
library is loaded at most once, the source is parsed, and its syntax tree is
turned into an outline and given back. Each stage logs what it did.
-/

namespace Marginalia
namespace Session

open Grammar (Node Ticket)

def parserComponent : String := "treeSitterParser"

def firstExisting (paths : List String) : Session (Option String) := do
  pure (paths.find? (← get).disk.hasPath)

/-- The paths at which a file of the grammar library can be. -/
def candidatePaths (host : Host) (file : String) : List String :=
  (Grammar.searchDirs host.packageDir host.place.workingDir host.executable).map
    fun dir => Path.join dir file

def locate (file : String) : Session (Option String) := do
  let _ ← activeLogger
  let candidates := candidatePaths (← read) file
  let found ← firstExisting candidates
  match found with
  | some path => debug parserComponent "Found WASM file" [("path", .str path)]
  | none =>
    debug parserComponent "WASM file not found"
      [("file", .str file), ("searchPaths", .arr (candidates.map .str))]
  pure found

def locateFirst : List String → Session (Option String)
  | [] => pure none
  | file :: rest => do
    match ← locate file with
    | some path => pure (some path)
    | none => locateFirst rest

def locateRuntime : Session (Option String) := locateFirst Grammar.runtimeFiles

def upset {α : Type} (u : Grammar.Upset) : Session α := throw (.upset u)

def ofCall {α : Type} : Except Grammar.Upset α → Session α
  | .ok a => pure a
  | .error u => upset u

def countUse (change : Usage → Usage) : Session Unit :=
  modify fun s => { s with usage := change s.usage }

def loadSteps : Session Unit := do
  let library := (← read).library
  let some runtime ← locateRuntime
    | upset (.error "Could not find web-tree-sitter WASM file")
  countUse fun u => { u with starts := u.starts + 1, runtime := some runtime }
  ofCall library.start
  let some grammar ← locate Grammar.grammarFile
    | upset (.error "Could not find the tree-sitter-rust grammar")
  countUse fun u => { u with loads := u.loads + 1 }
  ofCall (library.load grammar)
  debug parserComponent "Rust grammar loaded"
    [("runtimePath", .str runtime), ("grammarPath", .str grammar)]

/-- Loads the grammar library and logs a failure to do so. -/
def load : Session Unit := do
  let _ ← activeLogger
  tryCatch loadSteps fun e => do
    log (.of .error parserComponent "Failed to initialize Tree-sitter"
      [("error", .str (e.message (← read).place))])
    throw e

/-- The outcome of a step, which does not end the session. -/
def attempt {α : Type} (step : Session α) : Session (Except Fault α) :=
  tryCatch (Except.ok <$> step) fun e => pure (.error e)

def requestLibrary : Session Ticket := do
  let (ticket, loader) := (← get).loader.request
  modify fun s => { s with loader }
  pure ticket

/-- Waits for a load: it is carried out if it is in progress, and its outcome is shared. -/
def awaitLibrary (ticket : Ticket) : Session Unit := do
  if (← get).loader.inProgress? = some ticket then
    let result ← attempt load
    modify fun s => { s with loader := s.loader.settle result }
  match (← get).loader.outcome? ticket with
  | some (.error e) => throw e
  | _ => pure ()

def ensureLibrary : Session Unit := do
  awaitLibrary (← requestLibrary)

/-- The root of the syntax tree of a source, or none where there is no tree. -/
def parse (source path : String) : Session (Option Node) := do
  let _ ← activeLogger
  if !(← get).loader.isReady then
    log (.of .warn parserComponent "Parser not initialized" [])
    pure none
  else if !Grammar.supports path then
    debug parserComponent "Not a Rust file" [("filePath", .str path)]
    pure none
  else
    countUse fun u => { u with parses := u.parses + 1 }
    match (← read).library.parse source with
    | .ok (some root) => pure (some root)
    | .ok none =>
      log (.of .warn parserComponent "Parsing returned null" [("filePath", .str path)])
      pure none
    | .error u =>
      log (.of .warn parserComponent "Parsing failed"
        [("filePath", .str path), ("error", .str u.message)])
      pure none

def buildOutline (root : Node) (source : String) : Session Outline := do
  let f := Outline.build root source
  debug "syntaxTreeBuilder" "Built source file" [("items", .nat f.items.length)]
  pure f

def outlineOf (source path : String) : Session Outline := do
  if !Grammar.supports path then
    fail (.unsupportedLanguage path)
  match ← attempt ensureLibrary with
  | .error e => do
    let message := e.message (← read).place
    fail (.parserUnavailable message (some (.ofMessage message)))
  | .ok _ => pure ()
  let some root ← parse source path
    | fail (.parserUnavailable ("no syntax tree produced for " ++ path) none)
  let built ← attempt <| match root.firstFault? with
    | some position => fail (.parseFailedAt path position)
    | none => buildOutline root source
  countUse fun u => { u with released := u.released + 1 }
  match built with
  | .ok f => pure f
  | .error e => throw e

def extractComments (wanted : Comment.Wanted) (source : String) : Session (List Comment) := do
  let comments := Comment.extract wanted source
  debug "commentExtractor" "Extracted comments"
    [("lines", .nat (Text.lines source.toList).length), ("comments", .nat comments.length)]
  pure comments

def collectSpans (f : Outline) : Session (List Outline.NodeSpan) := do
  let spans := f.nodeSpans
  debug "nodeSpanCollector" "Collected node spans"
    [("items", .nat f.items.length), ("spans", .nat spans.length),
      ("itemsWithoutSpan", .nat f.spanlessCount)]
  pure spans

def tallyMembers (t : Annotation.Tally) : Json.Members :=
  [("attached", .nat t.attached), ("uncarried", .nat t.uncarried), ("residual", .nat t.residual)]

def annotate (options : Annotation.Options) (f : Outline) (source : String) :
    Session (Outline × Annotation.Stats) := do
  let comments ← extractComments options.wanted source
  let nodes ← collectSpans f
  let matched := Association.associate options.policy nodes comments
  debug "commentAssociator" "Associated comments"
    [("policy", .str options.policy.name), ("comments", .nat comments.length),
      ("nodes", .nat matched.groups.length), ("unassociated", .nat matched.unclaimed.length)]
  let (annotated, stats) := Annotation.annotate options f source
  debug "annotationApplier" "Applied comment associations" (tallyMembers stats.tally)
  debug "commentAnnotator" "Annotated tree"
    ([("policy", .str options.policy.name), ("comments", .nat stats.comments),
      ("nodeSpans", .nat stats.nodeSpans)] ++ tallyMembers stats.tally)
  pure (annotated, stats)

def annotateSource (options : Annotation.Options) (source path : String) :
    Session (Outline × Annotation.Stats) := do
  annotate options (← outlineOf source path) source

end Session
end Marginalia
