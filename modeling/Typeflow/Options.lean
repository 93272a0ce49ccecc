import Typeflow.Text.Count
import Typeflow.Text.Split

/-! The settings of an analysis and how they are read from texts such as `--lang=2`. -/
namespace Typeflow

inductive Language where
  | v2
  | v3
  deriving DecidableEq, Repr, Inhabited

def Language.number : Language → Nat
  | .v2 => 2
  | .v3 => 3

/-- How many values a set may hold before it becomes top; zero sets no limit. -/
structure Limits where
  variableTypes : Nat := 0
  returnTypes : Nat := 0
  memberTypes : Nat := 0
  deriving DecidableEq, Repr, Inhabited

inductive LogCategory where
  | modules
  | units
  | specializations
  | host
  deriving DecidableEq, Repr, Inhabited

namespace LogCategory

/-- Every category, in the order of declaration. -/
def all : List LogCategory := [.modules, .units, .specializations, .host]

def label : LogCategory → String
  | .modules => "modules"
  | .units => "units"
  | .specializations => "specializations"
  | .host => "host"

def ofLabel? (text : String) : Option LogCategory := all.find? fun category => category.label = text

end LogCategory

/-- Which categories are written. -/
structure LogSwitches where
  modules : Bool := false
  units : Bool := false
  specializations : Bool := false
  host : Bool := true
  deriving DecidableEq, Repr, Inhabited

namespace LogSwitches

def none : LogSwitches := ⟨false, false, false, false⟩

def every : LogSwitches := ⟨true, true, true, true⟩

def isOn (switches : LogSwitches) : LogCategory → Bool
  | .modules => switches.modules
  | .units => switches.units
  | .specializations => switches.specializations
  | .host => switches.host

def turn (switches : LogSwitches) (on : Bool) : LogCategory → LogSwitches
  | .modules => { switches with modules := on }
  | .units => { switches with units := on }
  | .specializations => { switches with specializations := on }
  | .host => { switches with host := on }

end LogSwitches

structure Options where
  language : Language := .v3
  /-- The name of the builtin module; when empty it follows from the language. -/
  builtins : String := ""
  limits : Limits := {}
  /-- Whether a host object without a kind is an error. -/
  strictHost : Bool := true
  resourceLoader : String := "wpf"
  log : LogSwitches := {}
  deriving DecidableEq, Repr, Inhabited

/-- The name of the builtin module. -/
def Options.builtinsName (options : Options) : String :=
  if options.builtins.isEmpty then
    match options.language with
    | .v3 => "builtins"
    | .v2 => "__builtin__"
  else options.builtins

inductive Limit where
  | variableTypes
  | returnTypes
  | memberTypes
  deriving DecidableEq, Repr, Inhabited

def Limit.flag : Limit → String
  | .variableTypes => "--max-variable-types="
  | .returnTypes => "--max-return-types="
  | .memberTypes => "--max-member-types="

def Limits.set (limits : Limits) (count : Nat) : Limit → Limits
  | .variableTypes => { limits with variableTypes := count }
  | .returnTypes => { limits with returnTypes := count }
  | .memberTypes => { limits with memberTypes := count }

inductive SettingError where
  | badLanguage
  | badCount (limit : Limit) (why : Text.CountError)
  | unknownCategory (name : String)
  | unknownSetting (text : String)
  deriving DecidableEq, Repr

def SettingError.message : SettingError → String
  | .badLanguage => "invalid value for --lang= expected 2 or 3"
  | .badCount limit why => "invalid value for " ++ limit.flag ++ " " ++ why.message
  | .unknownCategory name => "unknown log category '" ++ name ++ "'"
  | .unknownSetting text => "unknown option '" ++ text ++ "'"

/-- A setting as it is written, its value not checked yet. -/
inductive Setting where
  | language (value : String)
  | builtins (name : String)
  | limit (limit : Limit) (count : String)
  | resourceLoader (name : String)
  | log (categories : List String)
  | strictHost (on : Bool)
  | unknown (text : String)
  deriving DecidableEq, Repr

/-- The forms that take a value, tried in order. -/
def Setting.forms : List (String × (String → Setting)) :=
  [("--lang=", .language), ("--builtins=", .builtins),
    (Limit.variableTypes.flag, .limit .variableTypes), (Limit.returnTypes.flag, .limit .returnTypes),
    (Limit.memberTypes.flag, .limit .memberTypes), ("--resource-loader=", .resourceLoader),
    ("--log=", fun list => .log (Text.items ',' list))]

def Setting.ofText (text : String) : Setting :=
  match forms.findSome? fun form => (Text.after? form.1 text).map form.2 with
  | some setting => setting
  | none =>
    if text = "--strict-host" then .strictHost true
    else if text = "--lenient-host" then .strictHost false
    else .unknown text

/-- Turns on the named categories from the left and stops at an unknown one. -/
def LogSwitches.turnOn (switches : LogSwitches) : List String → LogSwitches × Option SettingError
  | [] => (switches, Option.none)
  | name :: rest =>
    match LogCategory.ofLabel? name with
    | some category => (switches.turn true category).turnOn rest
    | Option.none =>
      if name = "all" then every.turnOn rest else (switches, some (.unknownCategory name))

namespace Options

/-- Applies one setting. A list of log categories starts from none and keeps those before the one
that fails. -/
def apply (options : Options) : Setting → Options × Option SettingError
  | .language value =>
    if value = "2" then ({ options with language := .v2 }, none)
    else if value = "3" then ({ options with language := .v3 }, none)
    else (options, some .badLanguage)
  | .builtins name => ({ options with builtins := name }, none)
  | .limit limit count =>
    match Text.readCount count with
    | .ok n => ({ options with limits := options.limits.set n limit }, none)
    | .error why => (options, some (.badCount limit why))
  | .resourceLoader name => ({ options with resourceLoader := name }, none)
  | .log categories =>
    let (log, error) := LogSwitches.none.turnOn categories
    ({ options with log }, error)
  | .strictHost on => ({ options with strictHost := on }, none)
  | .unknown text => (options, some (.unknownSetting text))

/-- Applies settings in order up to the first one that fails. -/
def parse (options : Options) : List String → Options × Option SettingError
  | [] => (options, none)
  | text :: rest =>
    match options.apply (Setting.ofText text) with
    | (changed, none) => changed.parse rest
    | (changed, some error) => (changed, some error)

end Options

end Typeflow
