/-!
# What a record is written as

A small tree of the shapes that a record of this library takes in a text
format: nothing, a flag, a number, a text, a list, or named fields in a fixed
order.  `Json.compact` and `Yaml.block` write it.
-/

namespace ImageRecipe

inductive Value where
  | none
  | flag (b : Bool)
  | number (n : Nat)
  | text (s : String)
  | list (items : List Value)
  | record (fields : List (String × Value))

def Value.texts (xs : List String) : Value :=
  .list (xs.map .text)

/-- What may be absent is written as nothing. -/
def Value.optional {α : Type} (write : α → Value) : Option α → Value
  | .none => .none
  | .some x => write x

end ImageRecipe
