import ScriptIndex.Json.Fault
import ScriptIndex.Naming

/-!
# Settings

What an editor can configure: how source files are named, whether every word of a document is
offered as a completion, and how serious a circular require is. Settings arrive as JSON in two
sections, `symbols` and `diagnostics`; what they leave out keeps its standard value.

* `Settings` — the configuration, and `Settings.standard`;
* `Settings.ofJson` — the settings of a JSON value, none if it has neither section;
* `SettingsFault` — what is wrong with which section.
-/

namespace ScriptIndex

inductive Severity where
  | error
  | warning
  | information
  | hint
deriving DecidableEq, Repr

namespace Severity

/-- The number of a severity in messages to the editor. -/
def code : Severity → Nat
  | error => 1
  | warning => 2
  | information => 3
  | hint => 4

def name : Severity → String
  | error => "Error"
  | warning => "Warning"
  | information => "Information"
  | hint => "Hint"

/-- The severity of a word, in upper or lower case; any other word means a warning. The words are
ASCII and no other character has a letter of theirs as its lower case. -/
def ofWord (word : String) : Severity :=
  let word := String.ofList (word.toList.map Char.toLower)
  if word = "error" then error
  else if word = "information" || word = "info" then information
  else if word = "hint" then hint
  else warning

end Severity

structure Settings where
  fileExtension : String := Naming.standard.extension
  /-- What stands between module and extension in the second spelling. -/
  specSuffix : String := Naming.standard.specSuffix
  /-- Whether every word of a document is offered as a completion. -/
  identifierCompletions : Bool := true
  circularRequireSeverity : Severity := .warning
deriving DecidableEq, Repr

inductive SettingsSection where
  | symbols
  | diagnostics
deriving DecidableEq, Repr

namespace SettingsSection

def key : SettingsSection → String
  | symbols => "symbols"
  | diagnostics => "diagnostics"

/-- What a section is called where one is expected. -/
def expectation : SettingsSection → String
  | symbols => "struct SymbolSettings"
  | diagnostics => "struct DiagnosticSettings"

/-- How many values a section has when it is written as a list. -/
def length : SettingsSection → Nat
  | symbols => 3
  | diagnostics => 1

/-- What a list of values is expected to be. -/
def listExpectation (s : SettingsSection) : String :=
  s.expectation ++ " with " ++ toString s.length ++ (if s.length = 1 then " element" else " elements")

end SettingsSection

structure SettingsFault where
  part : SettingsSection
  fault : JsonFault

/-- The values of the section `symbols`, as far as they are given. -/
structure SymbolValues where
  fileExtension : Option String := none
  specSuffix : Option String := none
  identifierCompletions : Option Bool := none
deriving DecidableEq, Repr

namespace Settings

def standard : Settings := {}

def naming (settings : Settings) : Naming :=
  Naming.ofWritten settings.fileExtension settings.specSuffix

/-- Whether a change of settings changes which files modules stand for. -/
def namingDiffers (before after : Settings) : Bool :=
  before.fileExtension != after.fileExtension || before.specSuffix != after.specSuffix

theorem naming_eq {before after : Settings} (h : ¬ before.namingDiffers after = true) :
    after.naming = before.naming := by
  simp only [namingDiffers, Bool.not_eq_true, Bool.or_eq_false_iff, bne_eq_false_iff_eq] at h
  unfold naming
  rw [h.1, h.2]

def isSourceFile (settings : Settings) (path : Path) : Bool :=
  path.extension? = some (Text.encode settings.fileExtension.toList)

/-! ### Reading the sections -/

/-- Reads one member of the section `symbols`; unknown members are ignored. -/
def readSymbolMember (values : SymbolValues) (member : String × Json) :
    Except JsonFault SymbolValues :=
  let (key, json) := member
  if key = "fileExtension" then
    (Json.readText json).map fun value => { values with fileExtension := value }
  else if key = "specSuffix" then
    (Json.readText json).map fun value => { values with specSuffix := value }
  else if key = "identifierCompletions" then
    (Json.readSwitch json).map fun value => { values with identifierCompletions := value }
  else .ok values

/-- Reads the section `symbols`, which is an object or a list of exactly its three values. -/
def readSymbols : Json → Except JsonFault SymbolValues
  | .obj members => members.foldlM readSymbolMember {}
  | .arr items =>
    let part := SettingsSection.symbols
    match items with
    | [] => .error (.tooShort 0 part.listExpectation)
    | first :: items => do
      let fileExtension ← Json.readText first
      match items with
      | [] => .error (.tooShort 1 part.listExpectation)
      | second :: items =>
        let specSuffix ← Json.readText second
        match items with
        | [] => .error (.tooShort 2 part.listExpectation)
        | third :: rest =>
          let identifierCompletions ← Json.readSwitch third
          if rest.isEmpty then .ok { fileExtension, specSuffix, identifierCompletions }
          else .error (.tooLong (rest.length + 3))
  | found => .error (.wrongType found SettingsSection.symbols.expectation)

/-- Reads one member of the section `diagnostics`; unknown members are ignored. -/
def readDiagnosticMember (value : Option String) (member : String × Json) :
    Except JsonFault (Option String) :=
  if member.1 = "circularRequireSeverity" then Json.readText member.2 else .ok value

/-- Reads the section `diagnostics`, which is an object or a list of exactly its one value. -/
def readDiagnostics : Json → Except JsonFault (Option String)
  | .obj members => members.foldlM readDiagnosticMember none
  | .arr items =>
    match items with
    | [] => .error (.tooShort 0 SettingsSection.diagnostics.listExpectation)
    | first :: rest => do
      let value ← Json.readText first
      if rest.isEmpty then .ok value else .error (.tooLong (rest.length + 1))
  | found => .error (.wrongType found SettingsSection.diagnostics.expectation)

/-- Reads a section that may be absent. -/
def readSection {α : Type} (part : SettingsSection) (read : Json → Except JsonFault α) (absent : α)
    (json : Json) : Except SettingsFault α :=
  match json.get? part.key with
  | none => .ok absent
  | some value => (read value).mapError fun fault => { part, fault }

/-! ### Applying the values -/

/-- A text that counts only if it is not blank, trimmed. -/
def given? (value : Option String) : Option String :=
  match value with
  | none => none
  | some text =>
    let inner := Text.trim text.toList
    if inner = [] then none else some (String.ofList inner)

/-- The standard settings with the given values in their place. -/
def ofValues (symbols : SymbolValues) (severity : Option String) : Settings where
  fileExtension :=
    ((given? symbols.fileExtension).map Naming.withoutLeadingDots).getD standard.fileExtension
  specSuffix := ((given? symbols.specSuffix).map Naming.withoutOuterDots).getD standard.specSuffix
  identifierCompletions := symbols.identifierCompletions.getD standard.identifierCompletions
  circularRequireSeverity := (severity.map Severity.ofWord).getD standard.circularRequireSeverity

/-- The settings of a JSON value, none if it has neither section. A section that cannot be used
spoils the whole; the section `symbols` is looked at first. -/
def ofJson (json : Json) : Except SettingsFault (Option Settings) :=
  if (json.get? SettingsSection.symbols.key).isNone &&
      (json.get? SettingsSection.diagnostics.key).isNone then
    .ok none
  else do
    let symbols ← readSection .symbols readSymbols {} json
    let severity ← readSection .diagnostics readDiagnostics none json
    return some (ofValues symbols severity)

def ofJson? (json : Json) : Option Settings :=
  match ofJson json with
  | .ok settings => settings
  | .error _ => none

end Settings

end ScriptIndex
