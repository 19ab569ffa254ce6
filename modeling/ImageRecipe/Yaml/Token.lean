/-!
# YAML tokens

What a YAML text consists of once its indentation is made explicit: the starts
and ends of collections, the marks before keys, values and entries, and the
scalars with what may stand before them.
-/

namespace ImageRecipe.Yaml

inductive Style where
  | plain
  | quoted
  | literal
  | folded
  deriving DecidableEq, Repr

inductive Token where
  | streamEnd
  /-- A `%YAML` directive with the two numbers of a version. -/
  | version (major minor : Nat)
  /-- A `%TAG` directive: a handle and what it stands for. -/
  | handle (name meaning : List Char)
  | documentStart
  | documentEnd
  | blockSequenceStart
  | blockMappingStart
  | blockEnd
  | flowSequenceStart
  | flowSequenceEnd
  | flowMappingStart
  | flowMappingEnd
  | blockEntry
  | flowEntry
  | key
  | value
  | alias (name : List Char)
  | anchor (name : List Char)
  /-- A tag: its handle, empty for a verbatim tag, and the rest. -/
  | tag (handle suffix : List Char)
  | scalar (style : Style) (text : List Char)
  deriving DecidableEq, Repr

end ImageRecipe.Yaml
