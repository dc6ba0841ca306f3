/-! # The order of 16-bit code units

Names are compared by their UTF-16 code units. The order differs from that of the characters
only above the basic plane, whose characters become pairs of surrogates.
-/

namespace StoryFlow.Text

/-- One unit, or a leading and a trailing surrogate. -/
def unitsOfChar (c : Char) : List Nat :=
  let n := c.toNat
  if n < 0x10000 then [n] else [0xD800 + (n - 0x10000) / 0x400, 0xDC00 + (n - 0x10000) % 0x400]

def units (s : String) : List Nat :=
  s.toList.flatMap unitsOfChar

/-- `a` does not come after `b` in the order of units. -/
def unitsLE (a b : String) : Bool :=
  !(units b).lex (units a) Nat.blt

/-- Sorts by a name in the order of units; elements of one name keep their order. -/
def sortByUnits {α : Type} (name : α → String) (l : List α) : List α :=
  l.mergeSort (fun a b => unitsLE (name a) (name b))

end StoryFlow.Text
