import SchemaGraph.Json.Value
import SchemaGraph.SortedMap

/-!
# Reading Documents

Records are read alike from every document format.  A format says what its values look like;
the rules for records are stated once, here:

* an unknown key is skipped, a known key may appear once;
* a missing key takes its default, if it has one;
* a record may be written by position, if the format allows it, and then trailing fields that
  have a default may be left out;
* a list is read item by item, and one unreadable item spoils it.

Reading may fail, and a format may keep account of what reading costs.  So every format has its
own kind of computation in which its values are read; for JSON it is `Option`.
-/

namespace SchemaGraph

/-! ## §1 Forms of values -/

/-- How the fields of a record are written. -/
inductive RecordForm (ν : Type) where
  | keyed (entries : List (String × ν))
  | positional (values : List ν)

/-- The shape of a value, as far as kinds of values are told by it. -/
inductive Content where
  | text (s : String)
  /-- A natural number of 64 bits. -/
  | number (n : Nat)
  | record (entries : List (Content × Content))
  | other
  deriving Inhabited, Repr

/-- How the values of a document format are read.

* `text?`, `flag?`, `integer?`, `natural?` and `word?` read a text, a truth value, an integer, a
  number without a sign and a word of an enumeration;
* `items?` reads a list and `record?` the fields of a record;
* `present?` gives the value unless it stands for an absent one;
* `content?` gives the shape of a value all of which has to be readable. -/
class Document (m : outParam (Type → Type)) (ν : Type) where
  text? : ν → m String
  flag? : ν → m Bool
  integer? : ν → m Int
  natural? : ν → m Nat
  word? : ν → m String
  items? : ν → m (List ν)
  record? : ν → m (RecordForm ν)
  present? : ν → m (Option ν)
  content? : ν → m Content

namespace Document

variable {m : Type → Type} [Monad m] [MonadExceptOf Unit m] {ν α : Type}

/-- The value, if there is one. -/
def ofOption (x : Option α) : m α :=
  match x with
  | some a => pure a
  | none => throw ()

/-! ## §2 Numbers in range -/

/-- An integer between two bounds. -/
def integerIn? [Document m ν] (low high : Int) (v : ν) : m Int := do
  let n ← integer? v
  if low ≤ n ∧ n ≤ high then return n else throw ()

/-- An integer of 32 bits. -/
def int32? [Document m ν] (v : ν) : m Int := integerIn? (-0x80000000) 0x7FFFFFFF v

/-- An integer of 64 bits. -/
def int64? [Document m ν] (v : ν) : m Int :=
  integerIn? (-0x8000000000000000) 0x7FFFFFFFFFFFFFFF v

/-- A natural number up to a bound. -/
def naturalIn? [Document m ν] (high : Nat) (v : ν) : m Nat := do
  let n ← natural? v
  if n ≤ high then return n else throw ()

/-- A natural number of 32 bits. -/
def nat32? [Document m ν] (v : ν) : m Nat := naturalIn? 0xFFFFFFFF v

/-- A natural number of 64 bits. -/
def nat64? [Document m ν] (v : ν) : m Nat := naturalIn? 0xFFFFFFFFFFFFFFFF v

/-! ## §3 Words and lists -/

/-- Reads a value that is written as one of some words. -/
def wordOf? [Document m ν] (ofWord? : String → Option α) (v : ν) : m α := do
  ofOption (ofWord? (← word? v))

/-- Reads every item of a list. -/
def listOf? [Document m ν] (read : ν → m α) (v : ν) : m (List α) := do
  (← items? v).mapM read

/-! ## §4 Records -/

/-- The entries name no known key twice. -/
def knownOnce (names : List String) (entries : List (String × ν)) : Bool :=
  names.all fun name => (entries.filter (fun e => e.1 == name)).length ≤ 1

/-- The values of the named fields of a record, in the order of the names. -/
def fields? [Document m ν] (names : List String) (v : ν) : m (List (Option ν)) := do
  match ← record? v with
  | .keyed entries =>
    if knownOnce names entries then return names.map fun name => entries.lookup name
    else throw ()
  | .positional values =>
    if values.length ≤ names.length then
      return values.map some ++ List.replicate (names.length - values.length) none
    else throw ()

/-- A field that must be present. -/
def required (read : ν → m α) (slot : Option ν) : m α :=
  match slot with
  | some v => read v
  | none => throw ()

/-- A field that takes `default` when it is missing. -/
def defaulted (default : α) (read : ν → m α) (slot : Option ν) : m α :=
  match slot with
  | some v => read v
  | none => pure default

/-- A field that may be missing or absent. -/
def optional [Document m ν] (read : ν → m α) (slot : Option ν) : m (Option α) := do
  match slot with
  | none => return none
  | some v =>
    match ← present? v with
    | some v => return some (← read v)
    | none => return none

/-- A map from texts: of several entries with one key the last one counts, and every value
must be readable. -/
def mapOf? [Document m ν] (read : ν → m α) (v : ν) : m (SortedMap α) := do
  match ← record? v with
  | .keyed entries =>
    return SortedMap.ofList (← entries.mapM fun e => do return (e.1, ← read e.2))
  | .positional _ => throw ()

end Document

/-! ## §5 JSON as a document format -/

namespace Json

/-- The word of an enumeration: a string, or an object with that key alone and no value. -/
def word? : Json → Option String
  | .str s => some s
  | .obj [(s, .null)] => some s
  | _ => none

mutual

/-- The shape of a value. -/
def content : Json → Content
  | .str s => .text s
  | .obj entries => .record (entriesContent entries)
  | _ => .other

/-- The shapes of the values of entries. -/
def entriesContent : List (String × Json) → List (Content × Content)
  | [] => []
  | (key, x) :: rest => (.text key, x.content) :: entriesContent rest

end

instance : Document Option Json where
  text?
    | .str s => some s
    | _ => none
  flag?
    | .bool b => some b
    | _ => none
  integer?
    | .int n => some n
    | _ => none
  -- A negative number is an integer only.
  natural?
    | .int (.ofNat n) => some n
    | _ => none
  word? := word?
  items?
    | .arr items => some items
    | _ => none
  record?
    | .obj entries => some (.keyed entries)
    | .arr items => some (.positional items)
    | _ => none
  -- Null stands for a part that is not there.
  present?
    | .null => some none
    | v => some (some v)
  content? j := if j.isReadable then some j.content else none

end Json

end SchemaGraph
