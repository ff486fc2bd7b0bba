import Marginalia.Failure
import Marginalia.Json.Reader
import Marginalia.Outline.Item
import Marginalia.Schema.Check

/-!
# Outlines from JSON

Reading accepts the objects that writing produces, with their members in any
order, offsets left out where they are zero, and empty lists of comments, which
are dropped. Lines count from one; columns and offsets are not negative. Any
other member, type or kind is an issue.
-/

namespace Marginalia

open Schema

def Span.ofJson : Reader Span :=
  object ["startLine", "startColumn", "endLine", "endColumn", "startOffset", "endOffset"] fun ms =>
    (fun startLine startColumn endLine endColumn startOffset endOffset =>
      { start := ⟨startLine, startColumn⟩, stop := ⟨endLine, endColumn⟩, startOffset, endOffset })
    <$> required "startLine" (integer 1) ms
    <*> required "startColumn" (integer 0) ms
    <*> required "endLine" (integer 1) ms
    <*> required "endColumn" (integer 0) ms
    <*> withDefault "startOffset" (integer 0) (.int 0) ms
    <*> withDefault "endOffset" (integer 0) (.int 0) ms

namespace Comment

def Kind.choices : List (String × Kind) := Kind.all.map fun k => (k.name, k)

def ofJson : Reader Comment :=
  object ["text", "kind", "span"] fun ms =>
    Comment.mk <$> required "text" string ms
      <*> required "kind" (choice Kind.choices) ms
      <*> required "span" Span.ofJson ms

end Comment

namespace Outline

def dropEmpty (comments : Option (List Comment)) : Option (List Comment) :=
  comments.bind nonEmpty

def readComments (ms : Json.Members) : Checked (Option (List Comment)) :=
  dropEmpty <$> optional "comments" (array Comment.ofJson) ms

def Site.read (ms : Json.Members) : Checked Site :=
  Site.mk <$> optional "span" Span.ofJson ms <*> readComments ms

def Site.ofJson : Reader Site := object ["span", "comments"] Site.read

def readBody (ms : Json.Members) : Checked Site := required "block" Site.ofJson ms

namespace Item

def readName (ms : Json.Members) : Checked String := required "name" string ms

def readPublic (ms : Json.Members) : Checked Bool := required "isPublic" boolean ms

def knownMembers : Kind → List String
  | .fn => ["kind", "name", "isPublic", "isAsync", "params", "span", "comments", "block"]
  | .enum => ["kind", "name", "isPublic", "variants", "span", "comments"]
  | .struct => ["kind", "name", "isPublic", "fields"]
  | .trait => ["kind", "name", "isPublic", "span", "comments", "block"]
  | .impl => ["kind", "selfType", "traitName", "span", "comments", "block"]
  | .useDecl => ["kind", "path", "span", "comments"]
  | .constant => ["kind", "name", "isPublic", "span", "comments"]
  | .static => ["kind", "name", "isPublic", "isMutable", "span", "comments"]
  | .typeAlias => ["kind", "name", "isPublic", "span", "comments"]
  | .union => ["kind", "name", "comments"]
  | .module => ["kind", "name", "isExternal"]
  | .foreignModule => ["kind", "abi", "comments"]
  | .macroItem => ["kind", "name"]
  | .externCrate => ["kind", "name"]
  | .verbatim => ["kind", "text"]

def read (kind : Kind) (ms : Json.Members) : Checked Item :=
  match kind with
  | .fn =>
    Item.fn <$> readName ms <*> readPublic ms <*> required "isAsync" boolean ms
      <*> required "params" (array string) ms <*> Site.read ms <*> readBody ms
  | .enum =>
    Item.enum <$> readName ms <*> readPublic ms <*> required "variants" (array string) ms
      <*> Site.read ms
  | .struct =>
    Item.struct <$> readName ms <*> readPublic ms <*> required "fields" (array string) ms
  | .trait => Item.trait <$> readName ms <*> readPublic ms <*> Site.read ms <*> readBody ms
  | .impl =>
    Item.impl <$> required "selfType" string ms <*> optional "traitName" string ms
      <*> Site.read ms <*> readBody ms
  | .useDecl => Item.useDecl <$> required "path" string ms <*> Site.read ms
  | .constant => Item.constant <$> readName ms <*> readPublic ms <*> Site.read ms
  | .static =>
    Item.static <$> readName ms <*> readPublic ms <*> required "isMutable" boolean ms
      <*> Site.read ms
  | .typeAlias => Item.typeAlias <$> readName ms <*> readPublic ms <*> Site.read ms
  | .union => Item.union <$> readName ms <*> readComments ms
  | .module => Item.module <$> readName ms <*> required "isExternal" boolean ms
  | .foreignModule => Item.foreignModule <$> optional "abi" string ms <*> readComments ms
  | .macroItem => Item.macroItem <$> readName ms
  | .externCrate => Item.externCrate <$> readName ms
  | .verbatim => Item.verbatim <$> required "text" string ms

def kindOf? (ms : Json.Members) : Option Kind :=
  match ms.lookup "kind" with
  | some (.str s) => Kind.ofName? s
  | _ => none

/-- Reads an item: its kind tells which members it has. -/
def ofJson : Reader Item
  | .obj ms =>
    match kindOf? ms with
    | some kind => object (knownMembers kind) (read kind) (.obj ms)
    | none => (Checked.problem (.wrongTag (Kind.all.map Kind.name))).under (.name "kind")
  | v => Checked.problem (.wrongType .object (typeOf v))

end Item

def ofJson : Reader Outline :=
  object ["items", "comments"] fun ms =>
    Outline.mk <$> required "items" (array Item.ofJson) ms <*> readComments ms

inductive Invalid where
  | malformed
  | issues (list : List Issue)
deriving Repr

def Invalid.message : Invalid → String
  | .malformed => "not valid JSON: " ++ Json.syntaxMessage
  | .issues list => report list

def Invalid.failure (e : Invalid) : Failure := .invalidTree e.message

def decode (v : Json) : Except Invalid Outline :=
  match ofJson v with
  | .ok f => .ok f
  | .bad issues => .error (.issues issues)

def decodeText (text : String) : Except Invalid Outline :=
  match Json.read? text with
  | some v => decode v
  | none => .error .malformed

end Outline
end Marginalia
