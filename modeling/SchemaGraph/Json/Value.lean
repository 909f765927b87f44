/-!
# JSON Values

The values of JSON documents.  Objects keep their entries in order and may repeat a key, since
whether a repeated key is a fault depends on who reads the object.  Numbers are integers or
literals of some other kind; no other number carries meaning in the documents of this library.
-/

namespace SchemaGraph

/-- A JSON value.

`unreadable` stands for text that is well formed but has no value: a string with half a
surrogate pair, a number beyond the range of doubles, a nesting beyond the permitted depth.
Such text may be skipped, but not read. -/
inductive Json where
  | null
  | bool (value : Bool)
  | int (value : Int)
  | number (literal : String)
  | str (text : String)
  | arr (items : List Json)
  | obj (entries : List (String × Json))
  | unreadable
  deriving Inhabited, Repr

namespace Json

/-! ## §1 Depth -/

mutual

/-- The number of arrays and objects around the innermost value. -/
def height : Json → Nat
  | .arr items => heightItems items + 1
  | .obj entries => heightEntries entries + 1
  | _ => 0

/-- The greatest height of the items. -/
def heightItems : List Json → Nat
  | [] => 0
  | x :: xs => max x.height (heightItems xs)

/-- The greatest height of the values of the entries. -/
def heightEntries : List (String × Json) → Nat
  | [] => 0
  | (_, x) :: xs => max x.height (heightEntries xs)

end

mutual

/-- The value with every array and object nested deeper than `depth` levels made unreadable. -/
def cutBelow (depth : Nat) : Json → Json
  | .arr items =>
    match depth with
    | 0 => .unreadable
    | d + 1 => .arr (cutItems d items)
  | .obj entries =>
    match depth with
    | 0 => .unreadable
    | d + 1 => .obj (cutEntries d entries)
  | other => other

/-- `cutBelow` on every item. -/
def cutItems (depth : Nat) : List Json → List Json
  | [] => []
  | x :: xs => cutBelow depth x :: cutItems depth xs

/-- `cutBelow` on the value of every entry. -/
def cutEntries (depth : Nat) : List (String × Json) → List (String × Json)
  | [] => []
  | (k, x) :: xs => (k, cutBelow depth x) :: cutEntries depth xs

end

/-! ## §2 Readability -/

mutual

/-- No part of the value is unreadable. -/
def isReadable : Json → Bool
  | .arr items => allReadable items
  | .obj entries => allEntriesReadable entries
  | .unreadable => false
  | _ => true

/-- Every item is readable. -/
def allReadable : List Json → Bool
  | [] => true
  | x :: xs => x.isReadable && allReadable xs

/-- The value of every entry is readable. -/
def allEntriesReadable : List (String × Json) → Bool
  | [] => true
  | (_, x) :: xs => x.isReadable && allEntriesReadable xs

end

/-! ## §3 Repeated keys -/

/-- Replaces the value of a key in place, or appends the entry. -/
def setEntry (key : String) (value : Json) : List (String × Json) → List (String × Json)
  | [] => [(key, value)]
  | (k, v) :: rest =>
    if k = key then (k, value) :: rest else (k, v) :: setEntry key value rest

mutual

/-- The value with one entry for each key of every object: the last one written. -/
def withUniqueKeys : Json → Json
  | .arr items => .arr (uniqueItems items)
  | .obj entries => .obj (uniqueEntries [] entries)
  | other => other

/-- `withUniqueKeys` on every item. -/
def uniqueItems : List Json → List Json
  | [] => []
  | x :: xs => withUniqueKeys x :: uniqueItems xs

/-- The entries with later values replacing earlier ones, after those of `done`. -/
def uniqueEntries (done : List (String × Json)) :
    List (String × Json) → List (String × Json)
  | [] => done
  | (k, x) :: xs => uniqueEntries (setEntry k (withUniqueKeys x) done) xs

end

/-! ## §4 Access -/

/-- The value of a key of an object; of several entries the first counts. -/
def get? (key : String) : Json → Option Json
  | .obj entries => entries.lookup key
  | _ => none

end Json

end SchemaGraph
