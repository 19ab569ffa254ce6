import ImageRecipe.Yaml.Document

/-!
# Anchors and aliases

An anchor is there for the aliases that name it.  Where there are none, all
that is left of an anchor is a number, which tells how many names stand before
it: `Node.bare` takes these numbers away, so that nodes can be compared which
stand at different places of their documents.
-/

namespace ImageRecipe.Yaml

def Properties.bare (p : Properties) : Properties :=
  { tag := p.tag }

namespace Node

mutual

/-- Whether an alias is the node or lies within it. -/
def hasAlias : Node → Bool
  | .alias _ => true
  | .sequence _ items => anyAlias items
  | .mapping _ entries => anyEntryAlias entries
  | _ => false
termination_by structural n => n

def anyAlias : List Node → Bool
  | [] => false
  | n :: r => hasAlias n || anyAlias r
termination_by structural items => items

def anyEntryAlias : List (Node × Node) → Bool
  | [] => false
  | (k, v) :: r => hasAlias k || hasAlias v || anyEntryAlias r
termination_by structural entries => entries

end

mutual

def bare : Node → Node
  | .scalar p style t => .scalar p.bare style t
  | .sequence p items => .sequence p.bare (bareItems items)
  | .mapping p entries => .mapping p.bare (bareEntries entries)
  | n => n
termination_by structural n => n

def bareItems : List Node → List Node
  | [] => []
  | n :: r => bare n :: bareItems r
termination_by structural items => items

def bareEntries : List (Node × Node) → List (Node × Node)
  | [] => []
  | (k, v) :: r => (bare k, bare v) :: bareEntries r
termination_by structural entries => entries

end

end Node

/-- The text is a document without aliases.  Its root is a mapping, under a tag or not, and these
are its entries but for the anchors in them. -/
structure HasEntries (tag : Option String) (text : String) (entries : List (Node × Node)) :
    Prop where
  complete : (Document.load text).complete = true
  noAlias : (Document.load text).root.hasAlias = false
  root : (Document.load text).root.bare = .mapping { tag } entries

end ImageRecipe.Yaml
