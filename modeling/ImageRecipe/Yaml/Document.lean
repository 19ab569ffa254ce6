import ImageRecipe.Yaml.Node
import ImageRecipe.Yaml.Scan

/-!
# From tokens to a document

`Document.load` reads the one document of a text.  Every function here takes
what it needs off a list of tokens and hands on the rest.  When the tokens do
not fit the grammar, or break off, the node is `broken` and no token is left,
so that all that encloses the node breaks off there as well.
-/

namespace ImageRecipe.Yaml

/-- What is left to read: the tokens, and the numbers given to the names of anchors so far. -/
structure Feed where
  tokens : List Token
  names : List (List Char × Nat) := []
  deriving Repr

namespace Feed

def stop (f : Feed) : Feed :=
  { f with tokens := [] }

/-- Gives an anchor the number of names that are known before it.  A name that is given again
keeps its place among them, so two anchors may get one number. -/
def name (f : Feed) (a : List Char) : Nat × Feed :=
  (f.names.length, { f with names := (a, f.names.length) :: f.names.filter (·.1 ≠ a) })

end Feed

abbrev Handles := List (List Char × List Char)

def defaultHandles : Handles :=
  [("!".toList, "!".toList), ("!!".toList, "tag:yaml.org,2002:".toList)]

/-- A tag in full; `none` when its handle is not known. -/
def fullTag (handles : Handles) (handle suffix : List Char) : Option String :=
  if handle.isEmpty then some (String.ofList suffix)
  else (handles.lookup handle).map fun meaning => String.ofList (meaning ++ suffix)

/-- What stands before a node, in either order, and the tokens behind it. -/
def takeProperties (handles : Handles) :
    List Token → Option (Option (List Char) × Option String × List Token)
  | .anchor a :: .tag h s :: r => (fullTag handles h s).map fun t => (some a, some t, r)
  | .anchor a :: r => some (some a, none, r)
  | .tag h s :: .anchor a :: r => (fullTag handles h s).map fun t => (some a, some t, r)
  | .tag h s :: r => (fullTag handles h s).map fun t => (none, some t, r)
  | r => some (none, none, r)

def numbered (f : Feed) (anchor : Option (List Char)) (tag : Option String) : Properties × Feed :=
  match anchor with
  | none => ({ tag }, f)
  | some a => let (n, f) := f.name a; ({ anchor := some n, tag }, f)

def leftOut (f : Feed) (tokens : List Token) : Node × Feed :=
  (.empty, { f with tokens })

/-- A place where the tokens do not fit. -/
def unfit (f : Feed) : Node × Feed :=
  (.broken, f.stop)

/-- Whether a node is left out before this token of a block mapping. -/
def endsBlockNode : Token → Bool
  | .key | .value | .blockEnd => true
  | _ => false

def endsFlowNode : Token → Bool
  | .flowEntry | .flowMappingEnd => true
  | _ => false

def endsPairNode : Token → Bool
  | .flowEntry | .flowSequenceEnd => true
  | _ => false

mutual

/-- A node.  Inside a block mapping a sequence need not be indented; `block` says whether block
collections are possible at all. -/
def node (handles : Handles) (block inMapping : Bool) : (fuel : Nat) → Feed → Node × Feed
  | 0, f => unfit f
  | n + 1, f =>
    match f.tokens with
    | .alias a :: r =>
      match f.names.lookup a with
      | some number => (.alias number, { f with tokens := r })
      | none => unfit f
    | ts =>
      match takeProperties handles ts with
      | none => unfit f
      | some (anchor, tag, ts) =>
        match ts with
        | [] => unfit f
        | .scalar style text :: r =>
          let (p, f) := numbered f anchor tag
          (.scalar p style (String.ofList text), { f with tokens := r })
        | .flowSequenceStart :: r =>
          let (p, f) := numbered f anchor tag
          let (items, f) := flowItems handles true n { f with tokens := r }
          (.sequence p items, f)
        | .flowMappingStart :: r =>
          let (p, f) := numbered f anchor tag
          let (entries, f) := flowEntries handles true n { f with tokens := r }
          (.mapping p entries, f)
        | t :: r =>
          if t = .blockEntry ∧ inMapping then
            let (p, f) := numbered f anchor tag
            let (items, f) := openItems handles n { f with tokens := ts }
            (.sequence p items, f)
          else if t = .blockSequenceStart ∧ block then
            let (p, f) := numbered f anchor tag
            let (items, f) := blockItems handles n { f with tokens := r }
            (.sequence p items, f)
          else if t = .blockMappingStart ∧ block then
            let (p, f) := numbered f anchor tag
            let (entries, f) := blockEntries handles n { f with tokens := r }
            (.mapping p entries, f)
          else if anchor.isSome ∨ tag.isSome then
            let (p, f) := numbered f anchor tag
            (.scalar p .plain "", { f with tokens := ts })
          else unfit f
termination_by structural fuel => fuel

def blockItems (handles : Handles) : (fuel : Nat) → Feed → List Node × Feed
  | 0, f => ([.broken], f.stop)
  | n + 1, f =>
    match f.tokens with
    | .blockEntry :: r =>
      let (item, f) :=
        match r with
        | .blockEntry :: _ | .blockEnd :: _ => leftOut f r
        | _ => node handles true false n { f with tokens := r }
      let (items, f) := blockItems handles n f
      (item :: items, f)
    | .blockEnd :: r => ([], { f with tokens := r })
    | _ => ([.broken], f.stop)
termination_by structural fuel => fuel

/-- The items of a sequence that is indented no deeper than the mapping around it. -/
def openItems (handles : Handles) : (fuel : Nat) → Feed → List Node × Feed
  | 0, f => ([.broken], f.stop)
  | n + 1, f =>
    match f.tokens with
    | [] => ([.broken], f.stop)
    | .blockEntry :: r =>
      let (item, f) :=
        match r with
        | t :: _ =>
          if t = .blockEntry ∨ endsBlockNode t then leftOut f r
          else node handles true false n { f with tokens := r }
        | [] => unfit f
      let (items, f) := openItems handles n f
      (item :: items, f)
    | _ => ([], f)
termination_by structural fuel => fuel

def blockEntries (handles : Handles) : (fuel : Nat) → Feed → List (Node × Node) × Feed
  | 0, f => ([(.broken, .broken)], f.stop)
  | n + 1, f =>
    match f.tokens with
    | .key :: r =>
      let (key, f) :=
        match r with
        | t :: _ =>
          if endsBlockNode t then leftOut f r
          else node handles true true n { f with tokens := r }
        | [] => unfit f
      let (value, f) :=
        match f.tokens with
        | [] => unfit f
        | .value :: r =>
          match r with
          | t :: _ =>
            if endsBlockNode t then leftOut f r
            else node handles true true n { f with tokens := r }
          | [] => unfit f
        | r => leftOut f r
      let (entries, f) := blockEntries handles n f
      ((key, value) :: entries, f)
    | .blockEnd :: r => ([], { f with tokens := r })
    | _ => ([(.broken, .broken)], f.stop)
termination_by structural fuel => fuel

/-- The items of a flow sequence behind its start, or from the comma after an item on. -/
def flowItems (handles : Handles) (first : Bool) : (fuel : Nat) → Feed → List Node × Feed
  | 0, f => ([.broken], f.stop)
  | n + 1, f =>
    match f.tokens with
    | .flowSequenceEnd :: r => ([], { f with tokens := r })
    | t :: r =>
      if !first && t ≠ .flowEntry then ([.broken], f.stop)
      else
        match if first then t :: r else r with
        | [] => ([.broken], f.stop)
        | .flowSequenceEnd :: r => ([], { f with tokens := r })
        | .key :: r =>
          let (item, f) := flowPair handles n { f with tokens := r }
          let (items, f) := flowItems handles false n f
          (item :: items, f)
        | ts =>
          let (item, f) := node handles false false n { f with tokens := ts }
          let (items, f) := flowItems handles false n f
          (item :: items, f)
    | [] => ([.broken], f.stop)
termination_by structural fuel => fuel

/-- A single pair as an item of a flow sequence, behind the mark of its key.  Where the key is left
out, the token in its place is passed over. -/
def flowPair (handles : Handles) : (fuel : Nat) → Feed → Node × Feed
  | 0, f => unfit f
  | n + 1, f =>
    let (key, f) :=
      match f.tokens with
      | [] => unfit f
      | t :: r =>
        if t = Token.value ∨ endsPairNode t then leftOut f r
        else node handles false false n f
    let (value, f) :=
      match f.tokens with
      | [] => unfit f
      | .value :: r =>
        match r with
        | t :: _ =>
          if endsPairNode t then leftOut f r
          else node handles false false n { f with tokens := r }
        | [] => unfit f
      | r => leftOut f r
    match f.tokens with
    | [] => (.mapping {} [(key, value), (.broken, .broken)], f)
    | _ => (.mapping {} [(key, value)], f)
termination_by structural fuel => fuel

def flowEntries (handles : Handles) (first : Bool) :
    (fuel : Nat) → Feed → List (Node × Node) × Feed
  | 0, f => ([(.broken, .broken)], f.stop)
  | n + 1, f =>
    match f.tokens with
    | .flowMappingEnd :: r => ([], { f with tokens := r })
    | t :: r =>
      if !first && t ≠ .flowEntry then ([(.broken, .broken)], f.stop)
      else
        match if first then t :: r else r with
        | [] => ([(.broken, .broken)], f.stop)
        | .flowMappingEnd :: r => ([], { f with tokens := r })
        | .key :: r =>
          let (key, f) :=
            match r with
            | t :: _ =>
              if t = Token.value ∨ endsFlowNode t then leftOut f r
              else node handles false false n { f with tokens := r }
            | [] => unfit f
          let (value, f) :=
            match f.tokens with
            | [] => unfit f
            | .value :: r =>
              match r with
              | t :: _ =>
                if endsFlowNode t then leftOut f r
                else node handles false false n { f with tokens := r }
              | [] => unfit f
            | r => leftOut f r
          let (entries, f) := flowEntries handles false n f
          ((key, value) :: entries, f)
        | ts =>
          let (key, f) := node handles false false n { f with tokens := ts }
          let (value, f) :=
            match f.tokens with
            | [] => unfit f
            | r => leftOut f r
          let (entries, f) := flowEntries handles false n f
          ((key, value) :: entries, f)
    | [] => ([(.broken, .broken)], f.stop)
termination_by structural fuel => fuel

end

/-! ### Documents -/

/-- The handles that the directives before a document define, and the tokens behind them; `none`
when a directive is repeated or names a version other than 1.1 and 1.2. -/
def directives (versioned : Bool) (handles : Handles) :
    List Token → Option (Handles × List Token)
  | .version major minor :: r =>
    if versioned || major ≠ 1 || (minor ≠ 1 && minor ≠ 2) then none
    else directives true handles r
  | .handle name meaning :: r =>
    if (handles.lookup name).isSome then none
    else directives versioned ((name, meaning) :: handles) r
  | r => some (handles, r)

def endsText : List Token → Bool
  | .documentEnd :: r => endsText r
  | .streamEnd :: _ => true
  | _ => false

structure Document where
  root : Node
  /-- The text is well formed to its end and holds no other document. -/
  complete : Bool

namespace Document

/-- The node of a document that needs no start marker. -/
def ofFeed (handles : Handles) (f : Feed) : Document :=
  let (root, f) := node handles true false (4 * f.tokens.length + 4) f
  { root, complete := endsText f.tokens }

/-- The document that the tokens of a text begin with. -/
def ofTokens (ts : List Token) : Document :=
  match ts with
  | [] => ⟨.broken, false⟩
  | .streamEnd :: _ => ⟨.void, true⟩
  | t :: _ =>
    match t with
    | .version _ _ | .handle _ _ | .documentStart =>
      match directives false [] ts with
      | some (handles, .documentStart :: r) =>
        match r with
        | [] => ⟨.broken, false⟩
        | .version _ _ :: _ | .handle _ _ :: _ | .documentStart :: _ | .documentEnd :: _
        | .streamEnd :: _ => ⟨.empty, endsText r⟩
        | _ => ofFeed (handles ++ defaultHandles) { tokens := r }
      | _ => ⟨.broken, false⟩
    | _ => ofFeed defaultHandles { tokens := ts }

def load (text : String) : Document :=
  ofTokens (tokens text.toList)

/-- The nodes with an anchor; of two with one number the later comes first. -/
def anchors (d : Document) : List (Nat × Node) :=
  d.root.targets.reverse

/-- How often aliases of a document may be followed. -/
def aliasLimit (d : Document) : Nat :=
  d.root.size * 100

end Document

end ImageRecipe.Yaml
