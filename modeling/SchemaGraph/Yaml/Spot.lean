import SchemaGraph.Document
import SchemaGraph.Yaml.Node
import SchemaGraph.Yaml.Plain

/-!
# YAML as a Document Format

A node is read at its place in the document: the depth of nesting is limited, and aliases are
replaced by the nodes they stand for.  A node may contain itself, so there is a limit to how many
aliases are followed.  What is skipped costs nothing.

A scalar reads as what is asked for: any scalar is a text, and a plain one may be a truth value, a
number or an absent value.  Only where the kind of a value is told from its shape does a tag of the
standard decide.
-/

namespace SchemaGraph.Yaml

/-! ## §1 Places -/

/-- A node at its place in a document. -/
structure Spot where
  node : Node
  /-- The nodes that have a slot, the last ones first. -/
  targets : List (Nat × Node)
  /-- How many collections may still be entered. -/
  depth : Nat
  deriving Inhabited

/-- Reading with a number of aliases that may still be followed. -/
abbrev Visit := StateT Nat Option

open Document

/-- The node that a node stands for. -/
def Node.follow (targets : List (Nat × Node)) (n : Node) : Visit Node := do
  match n with
  | .alias slot =>
    match ← get with
    | 0 => failure
    | left + 1 =>
      set left
      ofOption (targets.lookup slot)
  | n => return n

namespace Spot

/-- The place with the node that its node stands for. -/
def follow (s : Spot) : Visit Spot := return { s with node := ← s.node.follow s.targets }

/-- The place of a part of the collection at a place. -/
def part (s : Spot) (n : Node) : Spot := { s with node := n, depth := s.depth - 1 }

/-! ## §2 Scalars -/

/-- The text of a scalar. -/
def text? (s : Spot) : Visit String := do
  match (← s.follow).node with
  | .scalar _ text _ => return text
  | _ => failure

/-- The text of a scalar that may stand for a value of a type: a plain scalar, or a literal block
with the tag of the type. -/
def bareText? (tag : Tag) (s : Spot) : Visit String := do
  match (← s.follow).node with
  | .scalar p text style =>
    if style = .plain ∨ (style = .literal ∧ p.tag = some tag) then return text else failure
  | _ => failure

/-- An integer: whether it has a minus sign, and its size. -/
def integer? (s : Spot) : Visit (Bool × Nat) := do
  ofOption (integerOf? (← s.bareText? .integer).toList)

/-- The text of a plain scalar stands for an absent value. -/
def isAbsentText (text : String) : Bool := plainValue text = .absent

/-- The place, unless its value is absent.  A tag of the standard for absent values needs one of
their words. -/
def present? (s : Spot) : Visit (Option Spot) := do
  let s ← s.follow
  match s.node with
  | .scalar p text .plain =>
    match p.tag with
    | none => return if isAbsentText text then none else some s
    | some .absent => if text ∈ nullWords then return none else failure
    | some _ => return some s
  | .nothing => return none
  | _ => return some s

/-- The word of an enumeration: a scalar, or a tag of one's own with no value. -/
def word? (s : Spot) : Visit String := do
  match (← s.follow).node with
  | .scalar p text style =>
    match p.tag with
    | some (.own (some name)) =>
      if style = .plain ∧ isAbsentText text then return name else failure
    | _ => return text
  | _ => failure

/-! ## §3 Collections -/

/-- A node that reads as an empty collection. -/
def isEmpty : Node → Bool
  | .scalar _ "" .plain => true
  | .nothing => true
  | _ => false

/-- The items of a sequence. -/
def items? (s : Spot) : Visit (List Spot) := do
  let s ← s.follow
  match s.node with
  | .sequence _ items => if s.depth = 0 then failure else return items.map s.part
  | n => if isEmpty n then return [] else failure

/-- The entries of a mapping, whose keys have to be scalars. -/
def entries? (s : Spot) : Visit (List (String × Spot)) := do
  let s ← s.follow
  match s.node with
  | .mapping _ entries =>
    if s.depth = 0 then failure
    else entries.mapM fun (k, x) => return (← (s.part k).text?, s.part x)
  | n => if isEmpty n then return [] else failure

/-! ## §4 Shapes -/

/-- The shape of an integer; one beyond 64 bits cannot be read. -/
def integerContent? (negative : Bool) (size : Nat) : Option Content :=
  if negative then if size ≤ 0x8000000000000000 then some .other else none
  else if size < 0x10000000000000000 then some (.number size)
  else none

/-- The shape of a plain scalar. -/
def plainContent? (text : String) : Option Content :=
  match plainValue text with
  | .text => some (.text text)
  | .integer negative size => integerContent? negative size
  | _ => some .other

/-- The shape of a scalar.  A tag of the standard has to fit the text, and one of the document's
own has no counterpart. -/
def scalarContent? (tag : Option Tag) (text : String) (style : ScalarStyle) : Option Content :=
  let otherIf (fits : Bool) : Option Content := if fits then some .other else none
  match tag with
  | some (.own (some _)) => none
  | some .flag => otherIf (flagOf? text).isSome
  | some .integer => (integerOf? text.toList).bind fun (negative, size) =>
    integerContent? negative size
  | some .number => otherIf (isNumber text)
  | some .absent => otherIf (nullWords.contains text)
  | some .other => some (.text text)
  | _ => if style = .plain then plainContent? text else some (.text text)

/-- The node has a type of the document's own. -/
def hasOwnType (p : Properties) : Bool :=
  match p.tag with
  | some (.own (some _)) => true
  | _ => false

/-- The shape of a node all of which has to be readable. -/
def contentWithin? (targets : List (Nat × Node)) (depth : Nat) (n : Node) : Visit Content := do
  match ← n.follow targets with
  | .scalar p text style => ofOption (scalarContent? p.tag text style)
  | .sequence p items =>
    match depth with
    | 0 => failure
    | depth + 1 =>
      if hasOwnType p then failure
      let _ ← items.mapM (contentWithin? targets depth)
      return .other
  | .mapping p entries =>
    match depth with
    | 0 => failure
    | depth + 1 =>
      if hasOwnType p then failure
      return .record (← entries.mapM fun (k, x) =>
        return (← contentWithin? targets depth k, ← contentWithin? targets depth x))
  | .alias _ => failure
  | .nothing => return .other

end Spot

instance : Document Visit Spot where
  text? := Spot.text?
  flag? s := do ofOption (flagOf? (← s.bareText? .flag))
  integer? s := do
    let (negative, size) ← s.integer?
    return if negative then -(size : Int) else size
  natural? s := do
    let (negative, size) ← s.integer?
    if negative then failure else return size
  word? := Spot.word?
  items? := Spot.items?
  record? s := return .keyed (← s.entries?)
  present? := Spot.present?
  content? s := Spot.contentWithin? s.targets s.depth s.node

/-! ## §5 Documents -/

/-- The levels of nesting that are read. -/
def maxDepth : Nat := 128

/-- How many aliases may be followed for each part of a document. -/
def aliasesPerPart : Nat := 100

/-- Reads the node of a document. -/
def Node.read? {α : Type} (read : Spot → Visit α) (n : Node) : Option α :=
  (read ⟨n, n.anchored.reverse, maxDepth⟩).run' (aliasesPerPart * n.weight)

end SchemaGraph.Yaml
