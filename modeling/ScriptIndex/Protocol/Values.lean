import ScriptIndex.Json
import ScriptIndex.Query

/-!
# Answers in the language server protocol

How positions, places, completions, signatures and findings are written in messages to an editor.
What has no value is left out, not written as `null`.
-/

namespace ScriptIndex

namespace Json

def markdown (text : String) : Json :=
  obj [("kind", str "markdown"), ("value", str text)]

end Json

def Position.json (p : Position) : Json :=
  .obj [("line", .nat p.line), ("character", .nat p.character)]

def Range.json (r : Range) : Json :=
  .obj [("start", r.start.json), ("end", r.stop.json)]

def Location.json (location : Location) : Json :=
  .obj [("uri", .str location.uri.text), ("range", location.range.json)]

def CompletionItem.json : CompletionItem → Json
  | function label detail documentation =>
    .obj [("label", .str label), ("kind", .nat 3), ("detail", .str detail),
      ("documentation", .markdown documentation)]
  | word label => .obj [("label", .str label), ("kind", .nat 1)]

def Query.hoverJson (markdown : String) : Json :=
  .obj [("contents", .markdown markdown)]

def SignatureHelp.json (help : SignatureHelp) : Json :=
  let active := Json.optional "activeParameter" (help.active.map Json.nat)
  let signature := Json.obj <|
    [("label", .str help.label)] ++
    Json.optional "documentation" (help.documentation.map Json.markdown) ++
    [("parameters", .arr (help.parameters.map fun label => .obj [("label", .str label)]))] ++
    active
  .obj ([("signatures", .arr [signature]), ("activeSignature", .nat 0)] ++ active)

def Diagnostic.json (diagnostic : Diagnostic) : Json :=
  .obj [("range", diagnostic.range.json), ("severity", .nat diagnostic.severity.code),
    ("source", .str "dasls"), ("message", .str diagnostic.message)]

end ScriptIndex
