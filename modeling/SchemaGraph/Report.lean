import SchemaGraph.Model.Encoding
import SchemaGraph.Yaml.Text

/-!
# Reports

The definitions of a cache as a report for readers or for other tools.
-/

namespace SchemaGraph

/-- The forms a report can take. -/
inductive ReportFormat where
  | json
  | yaml
  | markdown
  | table
  deriving DecidableEq, Inhabited, Repr

namespace ReportFormat

/-- The word for a format. -/
def word : ReportFormat → String
  | .json => "json"
  | .yaml => "yaml"
  | .markdown => "markdown"
  | .table => "table"

/-- The formats in the order in which they are offered. -/
def all : List ReportFormat := [.json, .yaml, .markdown, .table]

/-- The format of a word. -/
def ofWord? (w : String) : Option ReportFormat := all.find? (fun f => f.word = w)

end ReportFormat

/-! ## §1 Tables -/

namespace Definition

/-- A line for the definition and an indented line for each of its fields. -/
def tableLines (d : Definition) : List String :=
  (d.tagName ++ " : " ++ d.parentName) ::
    d.fields.map fun f => "  -- " ++ f.name ++ " : " ++ f.declaredType

/-! ## §2 Markdown -/

end Definition

/-- A kind in the words of a report. -/
def FieldKind.label : FieldKind → String
  | .scalar => "scalar"
  | .enumerated => "enum"
  | .nested => "nested"
  | .list => "list"
  | .polymorphicList => "polymorphic list"
  | .metadata => "metadata"
  | .external => "external"

/-- The row of a field in a Markdown table. -/
def Field.markdownRow (f : Field) : String :=
  "| \x60" ++ f.name ++ "\x60 | \x60" ++ f.declaredType ++ "\x60 | " ++ f.kind.label
    ++ (if f.mustLocalize then ", localized" else "") ++ " |"

/-- The Markdown section of a definition. -/
def Definition.markdownLines (d : Definition) : List String :=
  ["## " ++ d.tagName, "",
    "**Type:** \x60" ++ d.fullName ++ "\x60"
      ++ (if d.parentName = "" then "" else "  **Parent:** \x60" ++ d.parentName ++ "\x60")
      ++ (if d.isAbstract then "  *(abstract)*" else ""), ""]
    ++ if d.fields.isEmpty then []
      else ["| Field | Type | Kind |", "|-------|------|------|"]
        ++ d.fields.map Field.markdownRow ++ [""]

/-! ## §3 Reports -/

/-- The text of lines, each with its line end. -/
def textOfLines (lines : List String) : String := String.join (lines.map (· ++ "\n"))

/-- The definitions of a cache in a format. -/
def Cache.report (c : Cache) : ReportFormat → String
  | .json => (Json.arr (c.definitions.map Definition.toJson)).pretty
  | .yaml => Yaml.document (.arr (c.definitions.map Definition.toJson))
  | .markdown => textOfLines ("# Definitions" :: "" :: c.definitions.flatMap (·.markdownLines))
  | .table => textOfLines (c.definitions.flatMap (·.tableLines))

end SchemaGraph
