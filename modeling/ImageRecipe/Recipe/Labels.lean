import ImageRecipe.Value

/-!
# Labels

Metadata that a build attaches to its image.  `Labels.entries` is what the
image carries in the end: the labels that are there, as pairs of a key and a
text.
-/

namespace ImageRecipe

structure Labels where
  authors : List String := []
  version : Option String := none
  description : Option String := none
  deriving DecidableEq, Repr

namespace Labels

def authorsKey : String := "org.opencontainers.image.authors"

def versionKey : String := "version"

def descriptionKey : String := "description"

/-- The labels that are there, in order; the authors make one label, and none when there are
none. -/
def entries (l : Labels) : List (String × String) :=
  (if l.authors.isEmpty then [] else [(authorsKey, ", ".intercalate l.authors)])
    ++ (l.version.map fun v => (versionKey, v)).toList
    ++ (l.description.map fun d => (descriptionKey, d)).toList

def toValue (l : Labels) : Value :=
  .record [(authorsKey, .texts l.authors), (versionKey, .optional .text l.version),
    (descriptionKey, .optional .text l.description)]

inductive Field where
  | authors (v : List String)
  | version (v : Option String)
  | description (v : Option String)
  deriving DecidableEq, Repr

def set (l : Labels) : Field → Labels
  | .authors v => { l with authors := v }
  | .version v => { l with version := v }
  | .description v => { l with description := v }

def ofFields (fs : List Field) : Labels :=
  fs.foldl set {}

end Labels

end ImageRecipe
