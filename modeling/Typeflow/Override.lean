import Typeflow.Host
import Typeflow.ValueSet

/-! Replacements for the calls of chosen functions. -/
namespace Typeflow

/-- What a replacement written by a caller yields. -/
inductive Recipe where
  /-- Leaves the result to the function itself. -/
  | noOpinion
  | constants (values : List Constant)
  | instanceOf (id : TypeId)
  | argument (index : Nat)
  | allArguments
  | object (object : Option ObjectId)
  | memberOf (index : Nat) (name : String)
  | callOf (index : Nat)
  deriving Repr

/-- How a caller's replacement is written: with the result as a set, as a list of values, or as an
action without a result. -/
inductive RecipeForm where
  | set
  | values
  | action
  deriving DecidableEq, Repr

/-- A replacement for a call. -/
inductive Override where
  /-- Yields nothing. -/
  | nothing
  | firstArgument
  | unionOfArguments
  | instanceOf (id : TypeId)
  /-- A list of whole numbers for each call. -/
  | range
  /-- The members of the first argument named by the second, and the third argument. -/
  | getattr
  /-- Calls the method of an iterator that yields the next element. -/
  | next
  /-- The iterators of one argument, or an iterator over the results of calling the first of two. -/
  | iter
  | super
  /-- Sets the objects that a resource file declares as members of the first argument. -/
  | loadComponent
  /-- Adds the last argument to the elements of a sequence. -/
  | append (sequence : ValueId)
  /-- Adds the elements of the last argument to those of a sequence. -/
  | extend (sequence : ValueId)
  /-- The elements of an iterator. -/
  | nextElement (iterator : ValueId)
  /-- The instances of the classes in the first argument. -/
  | newInstance
  /-- The instances of a type that is looked up in a module at each call. -/
  | instanceOfMember (module type : String)
  /-- A replacement written by a caller; its runs are recorded under the tag. -/
  | recipe (tag : Option String) (form : RecipeForm) (recipe : Recipe)
  /-- A replacement that is no function: the call goes through unchanged. -/
  | transparent
  deriving Repr

/-- A replacement that is installed; with `analyze` the function itself runs too. -/
structure Specialization where
  override : Override
  analyze : Bool
  deriving Repr

/-- A replacement as it was asked for: a function of a module, or of a class named like a module. -/
structure Registration where
  module : String
  name : String
  specialization : Specialization
  deriving Repr

/-- What a caller asks a session to replace. -/
inductive Request where
  | replace (registration : Registration)
  /-- Calls are to yield instances of a type given as `module.type`. -/
  | returning (module name type : String)
  deriving Repr

end Typeflow
