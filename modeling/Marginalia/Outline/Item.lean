import Marginalia.Comment.Basic
import Marginalia.Outline.Kind

/-!
# Outline of a source file

An outline lists the top-level items of a source file. Each kind of item has
the fields that the kind can have and no others: a declaration site where the
kind records one, a body block where it has one, and a list of comments where
it can hold comments. A list of comments may be absent, which is not the same
as empty.
-/

namespace Marginalia
namespace Outline

/-- A place that can own comments, with its span if that is known. -/
structure Site where
  span : Option Span
  comments : Option (List Comment)
deriving DecidableEq, Repr, Inhabited

def Site.bare (span : Option Span) : Site := { span, comments := none }

inductive Item where
  | fn (name : String) (isPublic isAsync : Bool) (params : List String) (site : Site)
      (body : Site)
  | enum (name : String) (isPublic : Bool) (variants : List String) (site : Site)
  | struct (name : String) (isPublic : Bool) (fields : List String)
  | trait (name : String) (isPublic : Bool) (site : Site) (body : Site)
  | impl (selfType : String) (traitName : Option String) (site : Site) (body : Site)
  | useDecl (path : String) (site : Site)
  | constant (name : String) (isPublic : Bool) (site : Site)
  | static (name : String) (isPublic isMutable : Bool) (site : Site)
  | typeAlias (name : String) (isPublic : Bool) (site : Site)
  | union (name : String) (comments : Option (List Comment))
  | module (name : String) (isExternal : Bool)
  | foreignModule (abi : Option String) (comments : Option (List Comment))
  | macroItem (name : String)
  | externCrate (name : String)
  | verbatim (text : String)
deriving DecidableEq, Repr, Inhabited

namespace Item

def kind : Item → Kind
  | .fn .. => .fn
  | .enum .. => .enum
  | .struct .. => .struct
  | .trait .. => .trait
  | .impl .. => .impl
  | .useDecl .. => .useDecl
  | .constant .. => .constant
  | .static .. => .static
  | .typeAlias .. => .typeAlias
  | .union .. => .union
  | .module .. => .module
  | .foreignModule .. => .foreignModule
  | .macroItem .. => .macroItem
  | .externCrate .. => .externCrate
  | .verbatim .. => .verbatim

/-- The declaration site of an item whose kind records one. -/
def site? : Item → Option Site
  | .fn _ _ _ _ site _ | .enum _ _ _ site | .trait _ _ site _ | .impl _ _ site _
  | .useDecl _ site | .constant _ _ site | .static _ _ _ site | .typeAlias _ _ site => some site
  | _ => none

/-- The body block of an item that has one. -/
def body? : Item → Option Site
  | .fn _ _ _ _ _ body | .trait _ _ _ body | .impl _ _ _ body => some body
  | _ => none

theorem site?_isSome (i : Item) : i.site?.isSome = i.kind.capabilities.span := by
  cases i <;> rfl

theorem body?_isSome (i : Item) : i.body?.isSome = i.kind.capabilities.block := by
  cases i <;> rfl

def span? (i : Item) : Option Span := i.site?.bind Site.span

def bodySpan? (i : Item) : Option Span := i.body?.bind Site.span

def comments? : Item → Option (List Comment)
  | .union _ comments | .foreignModule _ comments => comments
  | i => i.site?.bind Site.comments

def bodyComments? (i : Item) : Option (List Comment) := i.body?.bind Site.comments

def holdsComments (i : Item) : Bool := i.kind.capabilities.comments

/-- Replaces the comments of an item; an item that can hold none stays as it is. -/
def setComments (cs : Option (List Comment)) : Item → Item
  | .fn n p a ps site body => .fn n p a ps { site with comments := cs } body
  | .enum n p vs site => .enum n p vs { site with comments := cs }
  | .trait n p site body => .trait n p { site with comments := cs } body
  | .impl s t site body => .impl s t { site with comments := cs } body
  | .useDecl path site => .useDecl path { site with comments := cs }
  | .constant n p site => .constant n p { site with comments := cs }
  | .static n p m site => .static n p m { site with comments := cs }
  | .typeAlias n p site => .typeAlias n p { site with comments := cs }
  | .union n _ => .union n cs
  | .foreignModule abi _ => .foreignModule abi cs
  | i => i

def setBodyComments (cs : Option (List Comment)) : Item → Item
  | .fn n p a ps site body => .fn n p a ps site { body with comments := cs }
  | .trait n p site body => .trait n p site { body with comments := cs }
  | .impl s t site body => .impl s t site { body with comments := cs }
  | i => i

def label : Item → String
  | .impl selfType (some traitName) _ _ =>
    if traitName.isEmpty then "impl " ++ selfType else "impl " ++ traitName ++ " for " ++ selfType
  | .impl selfType none _ _ => "impl " ++ selfType
  | .useDecl path _ => "use " ++ path
  | .foreignModule none _ => "extern"
  | .foreignModule (some abi) _ => "extern \"" ++ abi ++ "\""
  | .verbatim _ => "verbatim"
  | .fn name .. => "fn " ++ name
  | .enum name .. => "enum " ++ name
  | .struct name .. => "struct " ++ name
  | .trait name .. => "trait " ++ name
  | .constant name .. => "const " ++ name
  | .static name .. => "static " ++ name
  | .typeAlias name .. => "type " ++ name
  | .union name _ => "union " ++ name
  | .module name _ => "mod " ++ name
  | .macroItem name => "macro " ++ name
  | .externCrate name => "externCrate " ++ name

end Item
end Outline

/-- The outline of a source file; its own comments are those that no item claims. -/
structure Outline where
  items : List Outline.Item
  comments : Option (List Comment)
deriving DecidableEq, Repr, Inhabited

namespace Outline

def empty : Outline := { items := [], comments := none }

/-- The comments that an item and its body block hold. -/
def Item.allComments (i : Item) : List Comment :=
  i.comments?.getD [] ++ i.bodyComments?.getD []

/-- Every comment anywhere in an outline, those of the file last. -/
def allComments (f : Outline) : List Comment :=
  f.items.flatMap Item.allComments ++ f.comments.getD []

/-- A list of comments that is absent rather than empty. -/
def nonEmpty (cs : List Comment) : Option (List Comment) :=
  if cs.isEmpty then none else some cs

end Outline
end Marginalia
