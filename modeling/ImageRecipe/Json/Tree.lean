import ImageRecipe.Number.Binary64

/-!
# JSON trees

What a JSON text denotes, with the order of the members of an object and with
members that are repeated.  Where a text is no JSON from some place on, the
tree holds `broken` at that place: whoever reads the tree in order meets
everything before the fault first.
-/

namespace ImageRecipe.Json

open Number

inductive Tree where
  /-- From here on there is no JSON. -/
  | broken
  | null
  | bool (b : Bool)
  /-- A whole number of 64 bits. -/
  | int (n : Int)
  | float (x : Floating)
  /-- A number that is greater than any double. -/
  | overflow
  | string (s : String)
  /-- A string with half of a surrogate pair, which no text can hold. -/
  | unpaired
  | array (items : List Tree)
  /-- The keys are strings, but for one behind which the text is broken. -/
  | object (members : List (Tree × Tree))

namespace Tree

mutual

/-- Whether the fault of the text lies within the tree. -/
def isBroken : Tree → Bool
  | .broken => true
  | .array items => anyBroken items
  | .object members => anyMemberBroken members
  | _ => false
termination_by structural t => t

def anyBroken : List Tree → Bool
  | [] => false
  | t :: r => isBroken t || anyBroken r
termination_by structural items => items

def anyMemberBroken : List (Tree × Tree) → Bool
  | [] => false
  | (k, v) :: r => isBroken k || isBroken v || anyMemberBroken r
termination_by structural members => members

end

end Tree

end ImageRecipe.Json
