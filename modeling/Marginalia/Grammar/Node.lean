import Marginalia.Position

/-!
# Concrete syntax

A node of the concrete syntax tree of a Rust source, as a grammar delivers it:
rows and columns count from zero. A child may be held under a field name.
-/

namespace Marginalia
namespace Grammar

/-- A place in a source, with rows from zero. -/
structure Point where
  row : Number
  column : Number
deriving DecidableEq, Repr, Inhabited

/-- The position of a point, with lines from one. -/
def Point.position (p : Point) : Position :=
  { line := p.row.addInt 1, column := p.column }

/-- A node of a concrete syntax tree. `field` is the name under which its parent holds it. -/
inductive Node where
  | mk (type text : String) (start stop : Point) (children : List Node) (isNamed : Bool)
      (field : Option String) (hasError isMissing : Bool)
deriving Repr, Inhabited

namespace Node

def type : Node → String
  | mk type .. => type

def text : Node → String
  | mk _ text .. => text

def start : Node → Point
  | mk _ _ start .. => start

def stop : Node → Point
  | mk _ _ _ stop .. => stop

def children : Node → List Node
  | mk _ _ _ _ children .. => children

def isNamed : Node → Bool
  | mk _ _ _ _ _ isNamed .. => isNamed

def field : Node → Option String
  | mk _ _ _ _ _ _ field .. => field

def hasError : Node → Bool
  | mk _ _ _ _ _ _ _ hasError _ => hasError

def isMissing : Node → Bool
  | mk _ _ _ _ _ _ _ _ isMissing => isMissing

def namedChildren (n : Node) : List Node := n.children.filter isNamed

/-- The first child under a field name. -/
def child? (n : Node) (name : String) : Option Node :=
  n.children.find? fun c => c.field == some name

def childOfType? (n : Node) (type : String) : Option Node :=
  n.children.find? fun c => c.type == type

/-- The text of the child under a field name, empty if there is none. -/
def fieldText (n : Node) (name : String) : String :=
  ((n.child? name).map text).getD ""

/-- A node that is itself an error: unreadable source, or a token that is missing. -/
def isFault (n : Node) : Bool := n.type == "ERROR" || n.isMissing

mutual

/-- The position of the first error below a node. Only nodes that are marked as
having one are searched; where the search finds none, the marked node counts. -/
def firstFault? : Node → Option Position
  | mk type _ start _ children _ _ hasError isMissing =>
    if type == "ERROR" || isMissing then some start.position
    else if !hasError then none
    else some ((firstFaultIn? children).getD start.position)

def firstFaultIn? : List Node → Option Position
  | [] => none
  | c :: cs => (firstFault? c).or (firstFaultIn? cs)

end

end Node
end Grammar
end Marginalia
