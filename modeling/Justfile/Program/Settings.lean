import Justfile.Failure
import Justfile.Table
import Justfile.Tree.Item

/-!
# Settings of a justfile

Each setting is given at most once. Settings that ask for a Windows shell are refused, and so is a
shell without arguments.
-/

namespace Justfile

/-- The settings of a justfile by name. -/
abbrev Settings := Table SettingValue

namespace Settings

/-- Whether a setting is given and neither false nor empty. -/
def isGiven (s : Settings) (name : String) : Bool :=
  match s.find? name with
  | some v => v.isGiven
  | none => false

/-- The words of the shell setting, if there are any. -/
def shell? (s : Settings) : Option (String × List String) :=
  match s.find? "shell" with
  | some (.words (shell :: args)) => some (shell, args)
  | _ => none

/-- The settings with those of further items. -/
def collect (s : Settings) : List Item → Except Failure Settings
  | [] => pure s
  | { declaration := .setting name value, .. } :: rest =>
    if s.contains name then throw (.settingRepeated name) else collect (s.put name value) rest
  | _ :: rest => collect s rest

/-- Refuses settings that no script can follow. -/
def check (s : Settings) : Except Failure Unit := do
  if s.isGiven "windows-shell" || s.isGiven "windows-powershell" then throw .windowsUnsupported
  match s.shell? with
  | some (_, []) => throw .shellTooShort
  | _ => pure ()

/-- The settings of a justfile. -/
def ofItems (items : List Item) : Except Failure Settings := do
  let s ← collect .empty items
  s.check
  pure s

end Settings

end Justfile
