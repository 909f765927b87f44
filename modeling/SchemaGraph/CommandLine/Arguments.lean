import SchemaGraph.Json.Reader

/-!
# Command-Line Arguments

Arguments are read from left to right.  An option that takes a value takes the next argument,
unless that looks like an option; the value is checked when the next option or positional argument
begins, so an unknown argument is reported before a bad value in front of it.  What an option
requires and what it excludes is checked at the end.
-/

namespace SchemaGraph.CommandLine

/-! ## §1 Usage -/

/-- Why the arguments lead to no command. -/
inductive Usage where
  | help
  | version
  /-- There are no arguments. -/
  | nothingGiven
  | missingCommand
  | unknownCommand
  | unknownArgument
  | missingArgument
  /-- Arguments exclude each other, or one is repeated. -/
  | conflict
  /-- A value is missing or not among the permitted ones. -/
  | invalidValue
  /-- A value cannot be read. -/
  | malformedValue
  /-- A value for an option that takes none. -/
  | tooManyValues
  deriving DecidableEq, Inhabited, Repr

/-- The exit code of a run that ends with the arguments. -/
def Usage.exitCode : Usage → Nat
  | .help | .version => 0
  | _ => 2

/-! ## §2 Parameters -/

/-- What values a parameter takes. -/
inductive ValueKind where
  /-- A path, which is not empty. -/
  | path
  | text
  /-- A natural number of 64 bits. -/
  | count
  /-- One of several words. -/
  | word (words : List String)
  deriving DecidableEq, Repr

/-- The natural number that a text stands for; a plus sign may come first. -/
def count? (s : String) : Option Nat :=
  let ds :=
    match s.toList with
    | '+' :: ds => ds
    | ds => ds
  if ds.isEmpty ∨ !ds.all Char.isDigit then none
  else
    let n := Json.digitsValue ds
    if n ≤ 0xFFFFFFFFFFFFFFFF then some n else none

/-- Checks a value. -/
def ValueKind.check (kind : ValueKind) (value : String) : Except Usage Unit :=
  match kind with
  | .path => if value = "" then .error .invalidValue else .ok ()
  | .text => .ok ()
  | .count => if (count? value).isSome then .ok () else .error .malformedValue
  | .word words => if words.contains value then .ok () else .error .invalidValue

/-- A parameter of a command. -/
structure Parameter where
  name : String
  /-- What values it takes; none for a switch. -/
  kind : Option ValueKind
  /-- It may be given several times. -/
  many : Bool := false
  deriving DecidableEq, Repr

/-- The parameters of a command. -/
structure Grammar where
  options : List Parameter
  positionals : List Parameter := []

/-- The option of a name. -/
def Grammar.option? (g : Grammar) (name : String) : Option Parameter :=
  g.options.find? (fun p => p.name = name)

/-! ## §3 Reading -/

/-- The arguments read so far. -/
structure Reading where
  /-- The parameters given, each with its value; a switch has the empty one. -/
  given : List (String × String) := []
  /-- The parameter whose values are being read. -/
  pending : Option (Parameter × List String) := none
  /-- The pending parameter is an option that still has no value. -/
  awaiting : Bool := false
  /-- The number of positional parameters that are complete. -/
  position : Nat := 0

namespace Reading

/-- The parameter has been given. -/
def has (r : Reading) (name : String) : Bool := r.given.any (fun g => g.1 = name)

/-- Takes the values of a parameter, after checking that it may be given and has values it
takes. -/
def take (r : Reading) (p : Parameter) (values : List String) : Except Usage Reading := do
  if values.isEmpty then throw .invalidValue
  if !p.many ∧ r.has p.name then throw .conflict
  values.forM fun value => (p.kind.getD .text).check value
  return { r with given := r.given ++ values.map (p.name, ·) }

/-- Takes the values of the pending parameter. -/
def settle (r : Reading) : Except Usage Reading :=
  match r.pending with
  | none => .ok r
  | some (p, values) => { r with pending := none, awaiting := false }.take p values

/-- Takes a switch. -/
def switch (r : Reading) (name : String) : Except Usage Reading := do
  let r ← r.settle
  if name = "help" then throw .help
  if name = "version" then throw .version
  if name = "verbose" then return r
  r.take ⟨name, none, false⟩ [""]

/-- Takes an option by its long name, which may have its value attached. -/
def long (r : Reading) (g : Grammar) (body : List Char) : Except Usage Reading := do
  let name := String.ofList (body.takeWhile (· != '='))
  let attached :=
    match body.dropWhile (· != '=') with
    | [] => none
    | _ :: value => some (String.ofList value)
  match g.option? name with
  | none => throw .unknownArgument
  | some p =>
    match p.kind, attached with
    -- An unknown option and a superfluous value are faults before any value is checked.
    | none, some _ => throw .tooManyValues
    | none, none => r.switch name
    | some _, some value => (← r.settle).take p [value]
    | some _, none => return { ← r.settle with pending := some (p, []), awaiting := true }

/-- The long name of a switch with a short one. -/
def shortName? (g : Grammar) (c : Char) : Option String :=
  let name :=
    match c with
    | 'v' => "verbose"
    | 'h' => "help"
    | 'V' => "version"
    | _ => ""
  (g.option? name).map (·.name)

/-- Takes switches by their short names. -/
def shorts (r : Reading) (g : Grammar) : List Char → Except Usage Reading
  | [] => .ok r
  | c :: cs =>
    match shortName? g c with
    | none => .error .unknownArgument
    | some name =>
      match r.switch name with
      | .ok r => r.shorts g cs
      | .error e => .error e

/-- Takes a positional argument. -/
def positional (r : Reading) (g : Grammar) (value : String) : Except Usage Reading :=
  match g.positionals[r.position]? with
  | none => .error .unknownArgument
  | some p =>
    if p.many then
      match r.pending with
      | some (q, values) =>
        if q = p then .ok { r with pending := some (p, values ++ [value]) }
        else r.settle.map fun r => { r with pending := some (p, [value]) }
      | none => .ok { r with pending := some (p, [value]) }
    else
      r.settle.map fun r => { r with pending := some (p, [value]), position := r.position + 1 }

/-- Reads the arguments of a command.  After a double dash all of them are positional. -/
def all (g : Grammar) : (onlyPositional : Bool) → Reading → List String → Except Usage Reading
  | _, r, [] => r.settle
  -- Behind two dashes everything is positional, switches included.
  | true, r, a :: rest =>
    match r.positional g a with
    | .ok r => all g true r rest
    | .error e => .error e
  | false, r, a :: rest =>
    let step :=
      match a.toList with
      | '-' :: '-' :: body => r.long g body
      | '-' :: c :: cs => r.shorts g (c :: cs)
      -- Neither a long nor a short switch: the argument is the value of an option, or positional.
      | _ =>
        match r.awaiting, r.pending with
        | true, some (p, values) =>
          .ok { r with pending := some (p, values ++ [a]), awaiting := false }
        | _, _ => r.positional g a
    if a = "--" then all g true r rest
    else
      match step with
      | .ok r => all g false r rest
      | .error e => .error e

/-! ## §4 Values -/

/-- The value of a parameter. -/
def value? (r : Reading) (name : String) : Option String := r.given.lookup name

/-- All values of a parameter. -/
def values (r : Reading) (name : String) : List String :=
  (r.given.filter (fun g => g.1 = name)).map (·.2)

/-- The value of a parameter that has to be given. -/
def need (r : Reading) (name : String) : Except Usage String :=
  match r.value? name with
  | some value => .ok value
  | none => .error .missingArgument

end Reading

end SchemaGraph.CommandLine
