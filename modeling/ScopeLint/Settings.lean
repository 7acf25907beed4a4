import ScopeLint.Config.Options
import ScopeLint.Datum
import ScopeLint.Path
import ScopeLint.Tool

/-! Settings of a check: the defaults, what configuration files say, and what a caller overrides. -/
namespace ScopeLint

/-- Settings by name. An earlier entry hides a later one. -/
abbrev Settings := List (String × Datum)

namespace Settings

/-- A value for a setting, which keeps its place if it has one. -/
def set (key : String) (value : Datum) : Settings → Settings
  | [] => [(key, value)]
  | e :: rest => if e.1 = key then (key, value) :: rest else e :: set key value rest

def update (settings more : Settings) : Settings :=
  more.foldl (fun known e => set e.1 e.2 known) settings

def ignoredKey : String := "ignore_" ++ Tool.name ++ "_errors"

def ignoredForKey (base : String) : String := ignoredKey ++ "_for_" ++ base

def extend (d more : Datum) : Except Fault Datum :=
  match d, more with
  | .list xs, more => (more.items).map fun ys => .list (xs ++ ys)
  | d, more => d.add more

def ignoredIn (settings : Settings) (filename : String) : Except Fault Datum :=
  let general := (settings.lookup ignoredKey).getD (.list [])
  match settings.lookup (ignoredForKey (Path.base filename)) with
  | some specific => if specific.truthy then extend general specific else .ok general
  | none => .ok general

/-- What a key starts with when it takes items away from a list. -/
def negation : String := "not_"

def isNegated (key : String) : Bool := negation.toList.isPrefixOf key.toList

def subject (key : String) : String := Text.lower (Text.eraseAll negation key)

/-- The settings that hold without any configuration, less the general list of what is ignored,
which is kept apart because checks share it. -/
def unconfigured : Settings :=
  [("skip", .list []),
   (ignoredKey ++ "_for__init__.py", .list [.text "E101", .text "E103"]),
   ("verbose", .bool false),
   ("run_doctests", .bool false)]

/-- What is ignored from the start. -/
def initiallyIgnored : List Datum := [.text "W201"]

def withShared (ignored : List Datum) (settings : Settings) : Settings :=
  match settings.lookup ignoredKey with
  | some _ => settings
  | none => settings.set ignoredKey (.list ignored)

def revise (away : Bool) (old new : List Datum) : List Datum :=
  if away then old.filter fun x => !Datum.among new x else Datum.distinct (old ++ new)

inductive Form where
  | list
  | switch
  | text

/-- The form of what an option sets: that of the default, and a list for what is ignored in files
of some name. -/
def formOf (key : String) : Settings.Form :=
  if (ignoredKey ++ "_for").toList.isPrefixOf key.toList then .list
  else
    match (withShared [] unconfigured).lookup (subject key) with
    | some (.list _) => .list
    | some (.bool _) => .switch
    | _ => .text

def itemsSoFar (ignored : List Datum) (settings : Settings) (key : String) : List Datum :=
  match (settings.withShared ignored).lookup key with
  | some d => (d.items.toOption).getD []
  | none => []

/-- The settings after one option of a configuration file. Items of lists stand between commas,
and a switch is off if it says so or says nothing. -/
def applyOption (ignored : List Datum) (settings : Settings) (key value : String) : Settings :=
  let name := subject key
  match formOf key with
  | .list =>
    let old := Datum.distinct (itemsSoFar ignored settings name)
    let new := (Text.split ',' value).map Datum.text
    settings.set name (.list (revise (isNegated key) old new))
  | .switch =>
    let off := Text.trim (Text.lower value).toList == "false".toList || value == ""
    settings.set name (.bool !off)
  | .text => settings.set name (.text value)

def applyOptions (ignored : List Datum) (settings : Settings) (options : Config.Options) :
    Settings :=
  options.foldl (fun known e => applyOption ignored known e.1 e.2) settings

def applyOverride (settings : Settings) (key : String) (value : Datum) : Except Fault Settings :=
  match settings.lookup (subject key) with
  | some (.list old) => do
    let old ← Datum.setOf old
    let new ← Datum.setOf (← value.items)
    return settings.set (subject key) (.list (revise (isNegated key) old new))
  | _ => .ok (settings.set key value)

/-- The settings in force for a caller: revised by the overrides in turn, and then with the
overrides in place of what they name. -/
def override (settings overrides : Settings) : Except Fault Settings := do
  let revised ← overrides.foldlM (fun known e => applyOverride known e.1 e.2) settings
  return revised.update overrides

end Settings

end ScopeLint
