import ImageRecipe.Number.Digits

/-!
# Names of working containers

A name that nobody chose is made from a random word: its eight hexadecimal
digits.  Different words make different names of one length.
-/

namespace ImageRecipe.Identity

/-- The number of characters in a name made from a word. -/
def length : Nat := 8

def ofWord (w : UInt32) : String :=
  String.ofList (Number.hexDigits 'a' length w.toNat)

end ImageRecipe.Identity
