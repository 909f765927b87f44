import SchemaGraph.Yaml.Token

/-!
# YAML Nodes

The tokens of a text form one node: a scalar, a sequence or a mapping.  An alias stands for a
node with an anchor.  A text holds at most one document; a text without any has a node of its own,
which reads as whatever is empty.

An anchor gives its node a slot, and aliases refer to slots.  A new anchor takes the slot that is
numbered by how many names have one already.  So a name that is given again gets a new slot, but
the next new name takes that slot as well; of several nodes in one slot the last one counts, even
for aliases before it.
-/

namespace SchemaGraph.Yaml

/-! ## §1 Nodes -/

/-- What is written in front of a node: the slot of its anchor, and its tag. -/
structure Properties where
  slot : Option Nat := none
  tag : Option Tag := none
  deriving DecidableEq, Inhabited, Repr

/-- A node; `nothing` is the node of an empty text. -/
inductive Node where
  | scalar (properties : Properties) (text : String) (style : ScalarStyle)
  | sequence (properties : Properties) (items : List Node)
  | mapping (properties : Properties) (entries : List (Node × Node))
  | alias (slot : Nat)
  | nothing
  deriving Inhabited, Repr

namespace Node

/-- The scalar that stands where a node is left out. -/
def omitted (properties : Properties) : Node := .scalar properties "" .plain

/-- What has been read of a document: what the handles of tags stand for, the slots of the
anchors, and the tokens that follow. -/
structure Reading where
  handles : List (String × Bytes) := standardHandles
  slots : List (String × Nat) := []
  tokens : List Token

/-- A step of reading. -/
abbrev Read := StateT Reading Option

/-- The next token, which stays. -/
def peek : Read (Option Token) := return (← get).tokens.head?

/-- Passes over the next token. -/
def advance : Read Unit := modify fun r => { r with tokens := r.tokens.tail }

/-- Passes over a token that has to come next. -/
def expect (t : Token) : Read Unit := do
  if (← peek) = some t then advance else failure

/-- The next token is one of the given ones. -/
def nextIn (ts : List Token) : Read Bool := return (← peek).any ts.contains

/-- The slot of an anchor that was given before. -/
def slotOf (name : String) : Read Nat := do
  match (← get).slots.lookup name with
  | some slot => return slot
  | none => failure

/-- Gives an anchor a slot. -/
def newSlot (name : String) : Read Nat :=
  modifyGet fun r =>
    let slot := r.slots.length
    (slot, { r with slots := (name, slot) :: r.slots.filter (·.1 ≠ name) })

/-- The tag of a handle, which has to be declared, and a suffix. -/
def tagOf (handle : String) (suffix : Bytes) : Read Tag := do
  if handle = "" then return .ofBytes suffix
  match (← get).handles.lookup handle with
  | some lead => return .ofBytes (lead ++ suffix)
  | none => failure

/-- The slot of the anchor that may come next. -/
def anchor : Read (Option Nat) := do
  match ← peek with
  | some (.anchor name) =>
    advance
    return some (← newSlot name)
  | _ => return none

/-- The tag that may come next. -/
def tag : Read (Option Tag) := do
  match ← peek with
  | some (.tag handle suffix) =>
    advance
    return some (← tagOf handle suffix)
  | _ => return none

/-- The anchor and the tag in front of a node, in either order. -/
def properties : Read Properties := do
  match ← anchor with
  | some slot => return { slot := some slot, tag := ← tag }
  | none =>
    match ← tag with
    | some tag => return { slot := ← anchor, tag := some tag }
    | none => return {}

/-! ## §2 Nodes of tokens -/

/-- Where a node stands: inside brackets, in a block, or in a block as the value of a key, where
a sequence needs no indentation. -/
inductive Place where
  | flow
  | block
  | underKey
  deriving DecidableEq

/-- A node of which only the anchor or the tag is written. -/
def bare (p : Properties) : Read Node :=
  if p = {} then failure else return omitted p

/-- Reads a node, or takes it as left out if one of the given tokens comes next. -/
def unlessNext (ends : List Token) (read : Read Node) : Read Node := do
  if ← nextIn ends then return omitted {} else read

/-- Reads the value of a key, or takes it as left out if there is no colon. -/
def valueOf (ends : List Token) (read : Read Node) : Read Node := do
  if ← nextIn [.value] then
    advance
    unlessNext ends read
  else return omitted {}

/-- Reads a key that is marked as one and its value. -/
def markedEntry (ends : List Token) (read : Read Node) : Read (Node × Node) := do
  advance
  let k ← unlessNext (.value :: ends) read
  return (k, ← valueOf ends read)

/-- Reads a single entry among the items of a bracketed sequence.  Where its key is left out, the
token in place of the key is passed over, be it the colon, a comma or the closing bracket. -/
def lonelyEntry (read : Read Node) : Read (Node × Node) := do
  advance
  let ends := [Token.comma, .bracketClose]
  let k ←
    if ← nextIn (.value :: ends) then
      advance
      pure (omitted {})
    else read
  return (k, ← valueOf ends read)

mutual

/-- Reads a node. -/
def node (place : Place) : (fuel : Nat) → Read Node
  | 0 => failure
  | fuel + 1 => do
    -- An alias has no properties of its own.
    if let some (.alias name) ← peek then
      advance
      return .alias (← slotOf name)
    let p ← properties
    match ← peek with
    | some (.scalar text style) =>
      advance
      return .scalar p text style
    | some .dash =>
      -- Under a key the dashes of a sequence may stand as far left as the key.
      if place = .underKey then return .sequence p (← indentless fuel) else bare p
    | some .bracketOpen =>
      advance
      return .sequence p (← bracketItems fuel)
    | some .braceOpen =>
      advance
      return .mapping p (← braceEntries fuel)
    | some .sequenceStart =>
      if place = .flow then bare p
      -- In flow style indentation does not matter, so no block begins there.
      else
        advance
        return .sequence p (← blockItems fuel)
    | some .mappingStart =>
      if place = .flow then bare p
      else
        advance
        return .mapping p (← blockEntries fuel)
    | _ => bare p

/-- Reads the items of an indented sequence and its end. -/
def blockItems : (fuel : Nat) → Read (List Node)
  | 0 => failure
  | fuel + 1 => do
    if ← nextIn [.collectionEnd] then
      advance
      return []
    expect .dash
    let x ← unlessNext [.dash, .collectionEnd] (node .block fuel)
    return x :: (← blockItems fuel)

/-- Reads the items of a sequence that is not indented. -/
def indentless : (fuel : Nat) → Read (List Node)
  | 0 => failure
  | fuel + 1 => do
    if !(← nextIn [.dash]) then return []
    advance
    let x ← unlessNext [.dash, .key, .value, .collectionEnd] (node .block fuel)
    return x :: (← indentless fuel)

/-- Reads the entries of a block mapping and its end. -/
def blockEntries : (fuel : Nat) → Read (List (Node × Node))
  | 0 => failure
  | fuel + 1 => do
    if ← nextIn [.collectionEnd] then
      advance
      return []
    if !(← nextIn [.key]) then failure
    let entry ← markedEntry [.key, .value, .collectionEnd] (node .underKey fuel)
    return entry :: (← blockEntries fuel)

/-- Reads the items of a bracketed sequence and its end.  A single entry among the items is a
mapping of its own. -/
def bracketItems : (fuel : Nat) → Read (List Node)
  | 0 => failure
  | fuel + 1 => do
    if ← nextIn [.bracketClose] then
      advance
      return []
    let x ← if ← nextIn [.key] then
        pure (.mapping {} [← lonelyEntry (node .flow fuel)])
      else node .flow fuel
    if !(← nextIn [.bracketClose]) then expect .comma
    return x :: (← bracketItems fuel)

/-- Reads the entries of a mapping in braces and its end; without a colon a value is left
out. -/
def braceEntries : (fuel : Nat) → Read (List (Node × Node))
  | 0 => failure
  | fuel + 1 => do
    if ← nextIn [.braceClose] then
      advance
      return []
    let entry ← if ← nextIn [.key] then
        markedEntry [.comma, .braceClose] (node .flow fuel)
      else pure (← node .flow fuel, omitted {})
    if !(← nextIn [.braceClose]) then expect .comma
    return entry :: (← braceEntries fuel)

end

/-! ## §3 Documents -/

/-- A directive comes next. -/
def isDirective : Token → Bool
  | .directive _ => true
  | _ => false

/-- Reads the directives at the head of a document: one for the version at most, and one for each
handle. -/
def directives (seen : List (Option String)) : List Token → Read Unit
  | .directive declared :: rest => do
    let handle := declared.map (·.1)
    if seen.contains handle then failure
    modify fun r => { r with handles := declared.toList ++ r.handles, tokens := rest }
    directives (handle :: seen) rest
  | _ => return

/-- Reads a document after its start marker; it may be empty. -/
def started (fuel : Nat) : Read Node := do
  expect .documentStart
  if (← peek).all fun t => isDirective t || [.documentStart, .documentEnd].contains t then
    return omitted {}
  else node .block fuel

/-- Reads the only document of a text.  Directives have to be followed by a start marker, without
one a document must not be empty, and nothing but end markers may follow it. -/
def document (fuel : Nat) : Read Node := do
  match ← peek with
  | none => return .nothing
  | some first =>
    let n ←
      if isDirective first ∨ first = .documentStart then do
        directives [] (← get).tokens
        started fuel
      else node .block fuel
    modify fun r => { r with tokens := r.tokens.dropWhile (· = .documentEnd) }
    if (← peek).isSome then failure
    return n

/-- The node of a text. -/
def parse? (text : String) : Option Node := do
  let ts ← tokens? text
  let (n, _) ← (document (2 * ts.length + 2)).run { tokens := ts }
  return n

/-! ## §4 Views -/

/-- What is written in front of a node. -/
def written : Node → Properties
  | .scalar p _ _ => p
  | .sequence p _ => p
  | .mapping p _ => p
  | _ => {}

mutual

/-- The number of parts a node is written with: one for a scalar or an alias, two for the bounds
of a collection. -/
def weight : Node → Nat
  | .sequence _ items => itemsWeight items + 2
  | .mapping _ entries => entriesWeight entries + 2
  | _ => 1

/-- The number of parts of items. -/
def itemsWeight : List Node → Nat
  | [] => 0
  | x :: xs => weight x + itemsWeight xs

/-- The number of parts of entries. -/
def entriesWeight : List (Node × Node) → Nat
  | [] => 0
  | (k, x) :: xs => weight k + weight x + entriesWeight xs

end

mutual

/-- The nodes with a slot in a node, in the order in which they begin. -/
def anchored (n : Node) : List (Nat × Node) :=
  (n.written.slot.toList.map (·, n)) ++
    match n with
    | .sequence _ items => itemsAnchored items
    | .mapping _ entries => entriesAnchored entries
    | _ => []

/-- The nodes with a slot in items. -/
def itemsAnchored : List Node → List (Nat × Node)
  | [] => []
  | x :: xs => anchored x ++ itemsAnchored xs

/-- The nodes with a slot in entries. -/
def entriesAnchored : List (Node × Node) → List (Nat × Node)
  | [] => []
  | (k, x) :: xs => anchored k ++ anchored x ++ entriesAnchored xs

end

end Node

end SchemaGraph.Yaml
