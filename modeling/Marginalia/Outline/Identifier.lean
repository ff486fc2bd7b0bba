import Marginalia.Text.Basic

/-!
# Identifiers of nodes

The item at index `n` is named `item_n` and its body block `item_n_block`. Any
string that ends like a block name counts as one.
-/

namespace Marginalia
namespace Outline
namespace Identifier

def itemMark : String := "item_"

def blockMark : String := "_block"

/-- The identifier of the item whose index has the given numeral. -/
def ofNumeral (numeral : String) : String := itemMark ++ numeral

def item (index : Nat) : String := ofNumeral (String.ofList (Nat.toDigits 10 index))

def block (declaration : String) : String := declaration ++ blockMark

def isBlock (id : String) : Bool := Text.endsWith blockMark id

/-- The declaration that a block identifier belongs to. -/
def declaration? (id : String) : Option String :=
  if isBlock id then some (Text.dropLast 6 id) else none

/-- The index that a numeral spells; leading zeros are allowed. -/
def index? (numeral : List Char) : Option Nat :=
  if numeral.isEmpty || !numeral.all Char.isDigit then none
  else some (numeral.foldl (fun acc c => 10 * acc + (c.toNat - 48)) 0)

/-- The index of the item that an identifier names, itself or by its body block. -/
def itemIndex? (id : String) : Option Nat :=
  let declaration := ((declaration? id).getD id).toList
  if itemMark.toList.isPrefixOf declaration then index? (declaration.drop 5) else none

end Identifier
end Outline
end Marginalia
