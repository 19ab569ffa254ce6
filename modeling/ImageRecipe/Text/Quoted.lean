import ImageRecipe.Number.Digits
import ImageRecipe.Text.Blank
import ImageRecipe.Text.Hidden

/-!
# Texts quoted in messages

A text between double quotes on one line: quotes, backslashes and the usual
controls are escaped with a letter, and characters that do not show by their
number.
-/

namespace ImageRecipe.Text

open Number

def isHidden (c : Char) : Bool :=
  inRanges hiddenRanges c.toNat

def shown (c : Char) : List Char :=
  if c == '\x00' then ['\\', '0']
  else if c == '\t' then ['\\', 't']
  else if c == '\r' then ['\\', 'r']
  else if c == '\n' then ['\\', 'n']
  else if c == '\\' then ['\\', '\\']
  else if c == '"' then ['\\', '"']
  else if isHidden c then '\\' :: 'u' :: '\x7b' :: hex c.toNat ++ ['\x7d']
  else [c]

def quoted (s : String) : String :=
  String.ofList ('"' :: s.toList.flatMap shown ++ ['"'])

end ImageRecipe.Text
