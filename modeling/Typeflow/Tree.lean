import Typeflow.Constant

/-! Syntax trees of the analysed programs. Every node has a number of its own, given out when a tree
is handed to a session. -/
namespace Typeflow

structure NodeId where
  index : Nat
  deriving DecidableEq, Repr, Inhabited

inductive NodeKind where
  | module
  | functionDef
  | classDef
  | returnStmt
  | assignStmt
  | exprStmt
  | ifStmt
  | whileStmt
  | forStmt
  | passStmt
  | importNames
  | importFrom
  | name
  | attribute
  | subscript
  | call
  | tupleLiteral
  | listLiteral
  | intLiteral
  | boolLiteral
  | floatLiteral
  | stringLiteral
  | bytesLiteral
  | noneLiteral
  | ellipsisLiteral
  deriving DecidableEq, Repr, Inhabited

namespace NodeKind

/-- Every kind, in the order of declaration. -/
def all : List NodeKind :=
  [.module, .functionDef, .classDef, .returnStmt, .assignStmt, .exprStmt, .ifStmt, .whileStmt,
    .forStmt, .passStmt, .importNames, .importFrom, .name, .attribute, .subscript, .call,
    .tupleLiteral, .listLiteral, .intLiteral, .boolLiteral, .floatLiteral, .stringLiteral,
    .bytesLiteral, .noneLiteral, .ellipsisLiteral]

def label : NodeKind → String
  | .module => "Module"
  | .functionDef => "FunctionDef"
  | .classDef => "ClassDef"
  | .returnStmt => "ReturnStmt"
  | .assignStmt => "AssignStmt"
  | .exprStmt => "ExprStmt"
  | .ifStmt => "IfStmt"
  | .whileStmt => "WhileStmt"
  | .forStmt => "ForStmt"
  | .passStmt => "PassStmt"
  | .importNames => "Import"
  | .importFrom => "ImportFrom"
  | .name => "Name"
  | .attribute => "Attribute"
  | .subscript => "Subscript"
  | .call => "Call"
  | .tupleLiteral => "TupleLiteral"
  | .listLiteral => "ListLiteral"
  | .intLiteral => "IntLiteral"
  | .boolLiteral => "BoolLiteral"
  | .floatLiteral => "FloatLiteral"
  | .stringLiteral => "StringLiteral"
  | .bytesLiteral => "BytesLiteral"
  | .noneLiteral => "NoneLiteral"
  | .ellipsisLiteral => "EllipsisLiteral"

end NodeKind

/-- The number of a node and its place in the source. -/
structure Mark where
  id : NodeId := ⟨0⟩
  line : Int := 0
  col : Int := 0
  deriving DecidableEq, Repr, Inhabited

/-- A node as the place where something is evaluated. -/
structure Node where
  kind : NodeKind
  mark : Mark
  deriving DecidableEq, Repr, Inhabited

def Mark.node (mark : Mark) (kind : NodeKind) : Node := ⟨kind, mark⟩

def Node.id (node : Node) : NodeId := node.mark.id

/-- An expression; `missing` stands where a tree has none. -/
inductive Expr where
  | missing
  | name (mark : Mark) (id : String)
  | attribute (mark : Mark) (value : Expr) (attr : String)
  | subscript (mark : Mark) (value slice : Expr)
  /-- `names` has one name per argument, empty for a positional one. -/
  | call (mark : Mark) (callee : Expr) (args : List Expr) (names : List String)
  | tuple (mark : Mark) (elements : List Expr)
  | list (mark : Mark) (elements : List Expr)
  | literal (mark : Mark) (value : Constant)
  deriving Inhabited

/-- How a parameter takes arguments: one, or all left-over positional or named ones. -/
inductive ParamKind where
  | plain
  | rest
  | namedRest
  deriving DecidableEq, Repr, Inhabited

structure Param where
  name : String
  kind : ParamKind := .plain
  default : Expr := .missing
  deriving Inhabited

/-- A name to import; `as` is empty when the name itself is bound. -/
structure Alias where
  name : String
  asName : String := ""
  deriving DecidableEq, Repr, Inhabited

inductive Stmt where
  | missing
  | functionDef (mark : Mark) (name : String) (params : List Param) (body : List Stmt)
      (decorators : List Expr)
  | classDef (mark : Mark) (name : String) (bases : List Expr) (body : List Stmt)
  | ret (mark : Mark) (value : Expr)
  | assign (mark : Mark) (targets : List Expr) (value : Expr)
  | expr (mark : Mark) (value : Expr)
  | pass (mark : Mark)
  | branch (mark : Mark) (cond : Expr) (thenBody elseBody : List Stmt)
  | loop (mark : Mark) (cond : Expr) (thenBody elseBody : List Stmt)
  | each (mark : Mark) (target iterable : Expr) (thenBody elseBody : List Stmt)
  | importNames (mark : Mark) (names : List Alias)
  | importFrom (mark : Mark) (module : String) (level : Int) (names : List Alias)
  deriving Inhabited

/-- The tree of a whole module. -/
structure Tree where
  mark : Mark := {}
  body : List Stmt := []
  deriving Inhabited

/-- A piece of code that is run as a whole: the body of a module, function or class. -/
structure Body where
  node : Node
  statements : List Stmt := []
  deriving Inhabited

def Tree.toBody (tree : Tree) : Body := ⟨tree.mark.node .module, tree.body⟩

/-- Gives the next free number to a node. -/
def Mark.number (mark : Mark) : StateM Nat Mark := fun next => ({ mark with id := ⟨next⟩ }, next + 1)

mutual

def Expr.number : Expr → StateM Nat Expr
  | .missing => pure .missing
  | .name mark id => return .name (← mark.number) id
  | .attribute mark value attr => return .attribute (← mark.number) (← value.number) attr
  | .subscript mark value slice =>
    return .subscript (← mark.number) (← value.number) (← slice.number)
  | .call mark callee args names =>
    return .call (← mark.number) (← callee.number) (← Expr.numberAll args) names
  | .tuple mark elements => return .tuple (← mark.number) (← Expr.numberAll elements)
  | .list mark elements => return .list (← mark.number) (← Expr.numberAll elements)
  | .literal mark value => return .literal (← mark.number) value

def Expr.numberAll : List Expr → StateM Nat (List Expr)
  | [] => pure []
  | e :: rest => return (← e.number) :: (← Expr.numberAll rest)

end

def Param.numberAll : List Param → StateM Nat (List Param)
  | [] => pure []
  | p :: rest => return { p with default := ← p.default.number } :: (← Param.numberAll rest)

mutual

def Stmt.number : Stmt → StateM Nat Stmt
  | .missing => pure .missing
  | .functionDef mark name params body decorators =>
    return .functionDef (← mark.number) name (← Param.numberAll params) (← Stmt.numberAll body)
      (← Expr.numberAll decorators)
  | .classDef mark name bases body =>
    return .classDef (← mark.number) name (← Expr.numberAll bases) (← Stmt.numberAll body)
  | .ret mark value => return .ret (← mark.number) (← value.number)
  | .assign mark targets value =>
    return .assign (← mark.number) (← Expr.numberAll targets) (← value.number)
  | .expr mark value => return .expr (← mark.number) (← value.number)
  | .pass mark => return .pass (← mark.number)
  | .branch mark cond thenBody elseBody =>
    return .branch (← mark.number) (← cond.number) (← Stmt.numberAll thenBody)
      (← Stmt.numberAll elseBody)
  | .loop mark cond thenBody elseBody =>
    return .loop (← mark.number) (← cond.number) (← Stmt.numberAll thenBody)
      (← Stmt.numberAll elseBody)
  | .each mark target iterable thenBody elseBody =>
    return .each (← mark.number) (← target.number) (← iterable.number) (← Stmt.numberAll thenBody)
      (← Stmt.numberAll elseBody)
  | .importNames mark names => return .importNames (← mark.number) names
  | .importFrom mark module level names => return .importFrom (← mark.number) module level names

def Stmt.numberAll : List Stmt → StateM Nat (List Stmt)
  | [] => pure []
  | s :: rest => return (← s.number) :: (← Stmt.numberAll rest)

end

/-- Numbers all nodes of a tree from `first` on and gives the first number left free. -/
def Tree.number (tree : Tree) : StateM Nat Tree := do
  return ⟨← tree.mark.number, ← Stmt.numberAll tree.body⟩

end Typeflow
