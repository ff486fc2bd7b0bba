/-!
# Text measured in 16-bit units

Columns, offsets and widths count 16-bit units: a character of the basic plane
is one unit and any other character two. A text is a list of characters here,
so that a column is the width of what stands before it.
-/

namespace Marginalia
namespace Text

/-- The 16-bit units of a character, a leading and a trailing one beyond the basic plane. -/
def unitsOf (c : Char) : List Nat :=
  if c.toNat < 0x10000 then [c.toNat]
  else [0xD800 + (c.toNat - 0x10000) / 0x400, 0xDC00 + (c.toNat - 0x10000) % 0x400]

def units (c : Char) : Nat :=
  if c.toNat < 0x10000 then 1 else 2

theorem length_unitsOf (c : Char) : (unitsOf c).length = units c := by
  unfold unitsOf units
  split <;> rfl

theorem units_pos (c : Char) : 0 < units c := by
  unfold units
  split <;> decide

/-- Width of a text: the units of its characters. -/
def width : List Char → Nat
  | [] => 0
  | c :: cs => units c + width cs

@[simp] theorem width_nil : width [] = 0 := rfl

@[simp] theorem width_cons (c : Char) (cs : List Char) :
    width (c :: cs) = units c + width cs := rfl

@[simp] theorem width_append (a b : List Char) : width (a ++ b) = width a + width b := by
  induction a with
  | nil => simp
  | cons c cs ih => simp [ih, Nat.add_assoc]

/-- The longest beginning of a text that is at most `n` units wide. -/
def takeWidth : Nat → List Char → List Char
  | _, [] => []
  | n, c :: cs => if units c ≤ n then c :: takeWidth (n - units c) cs else []

/-- Texts in the order of their unit sequences, the earlier or equal one first. -/
def unitsLE : List Nat → List Nat → Bool
  | [], _ => true
  | _ :: _, [] => false
  | a :: as, b :: bs => if a = b then unitsLE as bs else decide (a < b)

/-- Order of names: by units, so a character beyond the basic plane
sorts by its leading unit. -/
def nameLE (a b : String) : Bool :=
  unitsLE (a.toList.flatMap unitsOf) (b.toList.flatMap unitsOf)

/-- Fills a text with blanks at its end up to the given width. -/
def padEnd (n : Nat) (s : String) : String :=
  s ++ String.ofList (List.replicate (n - width s.toList) ' ')

end Text
end Marginalia
