import Typeflow.Override
import Typeflow.Options

/-! The replacements that every session has: functions of the builtin module whose results depend on
their arguments, and library code that is not worth analysing. -/
namespace Typeflow

/-- The type of text: byte strings in the older language. -/
def Language.textType : Language → TypeId
  | .v3 => .unicode
  | .v2 => .str

/-- A replacement under which the function itself runs as well. -/
def Override.beside (override : Override) (module name : String) : Registration :=
  ⟨module, name, ⟨override, true⟩⟩

/-- A replacement that runs alone. -/
def Override.alone (override : Override) (module name : String) : Registration :=
  ⟨module, name, ⟨override, false⟩⟩

def builtinRegistrations (builtins : String) : List Registration :=
  [Override.range.alone builtins "range",
    Override.unionOfArguments.beside builtins "min",
    Override.unionOfArguments.beside builtins "max",
    Override.getattr.alone builtins "getattr",
    Override.next.alone builtins "next",
    Override.iter.alone builtins "iter",
    Override.super.alone builtins "super"]

def libraryRegistrations (text : TypeId) : List Registration :=
  [Override.firstArgument.alone "copy" "deepcopy",
    Override.firstArgument.alone "copy" "copy",
    (Override.instanceOf .bytes).alone "pickle" "dumps",
    Override.nothing.alone "UserDict.UserDict" "update",
    Override.nothing.alone "pprint" "pprint",
    (Override.instanceOf text).alone "pprint" "pformat",
    (Override.instanceOf text).alone "pprint" "saferepr",
    (Override.instanceOf text).alone "pprint" "_safe_repr",
    (Override.instanceOf text).alone "pprint" "_format",
    (Override.instanceOf text).alone "pprint.PrettyPrinter" "_format",
    Override.nothing.alone "decimal.Decimal" "__new__",
    Override.nothing.alone "StringIO.StringIO" "write",
    Override.nothing.alone "threading.Thread" "__init__",
    Override.nothing.alone "subprocess.Popen" "__init__",
    Override.nothing.alone "Tkinter.Toplevel" "__init__",
    Override.nothing.alone "weakref.WeakValueDictionary" "update",
    (Override.instanceOf text).alone "os._Environ" "get",
    Override.nothing.alone "os._Environ" "update",
    (Override.instanceOf text).alone "ntpath" "expandvars",
    Override.nothing.alone "idlelib.EditorWindow.EditorWindow" "__init__"]

/-- The registrations of every session, in the order in which they are made. -/
def standardRegistrations (options : Options) : List Registration :=
  builtinRegistrations options.builtinsName ++ libraryRegistrations options.language.textType ++
    [Override.loadComponent.beside options.resourceLoader "LoadComponent"]

end Typeflow
