/-! Numbers of the things that a session keeps, one type for each sort. -/
namespace Typeflow

structure VarId where
  index : Nat
  deriving DecidableEq, Repr, Inhabited

structure ScopeId where
  index : Nat
  deriving DecidableEq, Repr, Inhabited

structure UnitId where
  index : Nat
  deriving DecidableEq, Repr, Inhabited

structure EntryId where
  index : Nat
  deriving DecidableEq, Repr, Inhabited

structure ResourceId where
  index : Nat
  deriving DecidableEq, Repr, Inhabited

structure RefId where
  index : Nat
  deriving DecidableEq, Repr, Inhabited

end Typeflow
