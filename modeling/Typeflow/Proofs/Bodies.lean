import Typeflow.Value

/-! The bodies of code in a tree, and the nodes for which running a body keeps values. -/
namespace Typeflow

mutual

/-- The nodes of an expression. -/
def Expr.places : Expr → List NodeId
  | .missing => []
  | .name mark _ | .literal mark _ => [mark.id]
  | .attribute mark value _ => mark.id :: value.places
  | .subscript mark value slice => mark.id :: (value.places ++ slice.places)
  | .call mark callee args _ => mark.id :: (callee.places ++ Expr.placesAll args)
  | .tuple mark elements | .list mark elements => mark.id :: Expr.placesAll elements

def Expr.placesAll : List Expr → List NodeId
  | [] => []
  | e :: rest => e.places ++ Expr.placesAll rest

end

def Param.placesAll (params : List Param) : List NodeId := params.flatMap fun p => p.default.places

mutual

/-- The nodes for which a statement may keep values, apart from those of the definitions in it. -/
def Stmt.places : Stmt → List NodeId
  | .missing | .pass _ | .importNames _ _ => []
  | .functionDef _ _ params _ decorators => Param.placesAll params ++ Expr.placesAll decorators
  | .classDef _ _ bases _ => Expr.placesAll bases
  | .ret _ value | .expr _ value => value.places
  | .assign _ targets value => Expr.placesAll targets ++ value.places
  | .branch _ cond thenBody elseBody | .loop _ cond thenBody elseBody =>
    cond.places ++ (Stmt.placesAll thenBody ++ Stmt.placesAll elseBody)
  | .each mark target iterable thenBody elseBody =>
    mark.id :: (target.places ++ (iterable.places ++
      (Stmt.placesAll thenBody ++ Stmt.placesAll elseBody)))
  | .importFrom mark _ _ _ => [mark.id]

def Stmt.placesAll : List Stmt → List NodeId
  | [] => []
  | s :: rest => s.places ++ Stmt.placesAll rest

end

mutual

/-- The bodies of the functions and classes that running a statement defines. -/
def Stmt.definitions : Stmt → List Body
  | .functionDef mark _ _ body _ => [⟨mark.node .functionDef, body⟩]
  | .classDef mark _ _ body => [⟨mark.node .classDef, body⟩]
  | .branch _ _ thenBody elseBody | .loop _ _ thenBody elseBody | .each _ _ _ thenBody elseBody =>
    Stmt.definitionsAll thenBody ++ Stmt.definitionsAll elseBody
  | .missing | .pass _ | .ret _ _ | .assign _ _ _ | .expr _ _ | .importNames _ _
  | .importFrom _ _ _ _ => []

def Stmt.definitionsAll : List Stmt → List Body
  | [] => []
  | s :: rest => s.definitions ++ Stmt.definitionsAll rest

end

mutual

/-- The functions that running a statement defines, with their names. -/
def Stmt.functions : Stmt → List (String × Body)
  | .functionDef mark name _ body _ => [(name, ⟨mark.node .functionDef, body⟩)]
  | .branch _ _ thenBody elseBody | .loop _ _ thenBody elseBody | .each _ _ _ thenBody elseBody =>
    Stmt.functionsAll thenBody ++ Stmt.functionsAll elseBody
  | .missing | .pass _ | .classDef _ _ _ _ | .ret _ _ | .assign _ _ _ | .expr _ _
  | .importNames _ _ | .importFrom _ _ _ _ => []

def Stmt.functionsAll : List Stmt → List (String × Body)
  | [] => []
  | s :: rest => s.functions ++ Stmt.functionsAll rest

end

mutual

/-- The bodies of all functions and classes in a statement, those inside others too. -/
def Stmt.bodies : Stmt → List Body
  | .functionDef mark _ _ body _ => ⟨mark.node .functionDef, body⟩ :: Stmt.bodiesAll body
  | .classDef mark _ _ body => ⟨mark.node .classDef, body⟩ :: Stmt.bodiesAll body
  | .branch _ _ thenBody elseBody | .loop _ _ thenBody elseBody | .each _ _ _ thenBody elseBody =>
    Stmt.bodiesAll thenBody ++ Stmt.bodiesAll elseBody
  | .missing | .pass _ | .ret _ _ | .assign _ _ _ | .expr _ _ | .importNames _ _
  | .importFrom _ _ _ _ => []

def Stmt.bodiesAll : List Stmt → List Body
  | [] => []
  | s :: rest => s.bodies ++ Stmt.bodiesAll rest

end

namespace Body

def places (b : Body) : List NodeId := Stmt.placesAll b.statements

def definitions (b : Body) : List Body := Stmt.definitionsAll b.statements

def functions (b : Body) : List (String × Body) := Stmt.functionsAll b.statements

/-- The kind of value that is made for the body of a definition. -/
def kind (b : Body) : ValueKind := if b.node.kind = .functionDef then .function else .userClass

end Body

/-- The body of a tree and those of all its functions and classes. -/
def Tree.bodies (tree : Tree) : List Body := tree.toBody :: Stmt.bodiesAll tree.body

theorem Tree.toBody_mem_bodies (tree : Tree) : tree.toBody ∈ tree.bodies := List.mem_cons_self

mutual

theorem Stmt.bodies_of_definitions (s : Stmt) {b : Body} (h : b ∈ s.definitions) : b ∈ s.bodies := by
  cases s <;> simp only [definitions, bodies, List.mem_append, List.mem_cons, List.not_mem_nil,
    or_false] at h ⊢
  case functionDef => exact .inl h
  case classDef => exact .inl h
  case branch a c => exact h.imp (bodiesAll_of_definitionsAll a) (bodiesAll_of_definitionsAll c)
  case loop a c => exact h.imp (bodiesAll_of_definitionsAll a) (bodiesAll_of_definitionsAll c)
  case each a c => exact h.imp (bodiesAll_of_definitionsAll a) (bodiesAll_of_definitionsAll c)

theorem Stmt.bodiesAll_of_definitionsAll (stmts : List Stmt) {b : Body}
    (h : b ∈ definitionsAll stmts) : b ∈ bodiesAll stmts := by
  cases stmts with
  | nil => exact h
  | cons s rest =>
    simp only [definitionsAll, bodiesAll, List.mem_append] at h ⊢
    exact h.imp (bodies_of_definitions s) (bodiesAll_of_definitionsAll rest)

end

mutual

theorem Stmt.definitions_of_functions (s : Stmt) {name : String} {b : Body} (h : (name, b) ∈ s.functions) :
    b ∈ s.definitions := by
  cases s <;> simp only [functions, definitions, List.mem_append, List.mem_singleton, List.not_mem_nil,
    Prod.mk.injEq] at h ⊢
  case functionDef => exact h.2
  case branch a c => exact h.imp (definitionsAll_of_functionsAll a) (definitionsAll_of_functionsAll c)
  case loop a c => exact h.imp (definitionsAll_of_functionsAll a) (definitionsAll_of_functionsAll c)
  case each a c => exact h.imp (definitionsAll_of_functionsAll a) (definitionsAll_of_functionsAll c)

theorem Stmt.definitionsAll_of_functionsAll (stmts : List Stmt) {name : String} {b : Body}
    (h : (name, b) ∈ functionsAll stmts) : b ∈ definitionsAll stmts := by
  cases stmts with
  | nil => cases h
  | cons s rest =>
    simp only [functionsAll, definitionsAll, List.mem_append] at h ⊢
    exact h.imp (definitions_of_functions s) (definitionsAll_of_functionsAll rest)

end

mutual

theorem Stmt.bodies_inner (s : Stmt) {b d : Body} (hb : b ∈ s.bodies) (hd : d ∈ b.definitions) :
    d ∈ s.bodies := by
  cases s <;> simp only [bodies, List.mem_append, List.mem_cons, List.not_mem_nil] at hb ⊢
  case functionDef mark _ _ body _ =>
    rcases hb with rfl | hb
    · exact .inr (bodiesAll_of_definitionsAll body hd)
    · exact .inr (bodiesAll_inner body hb hd)
  case classDef mark _ _ body =>
    rcases hb with rfl | hb
    · exact .inr (bodiesAll_of_definitionsAll body hd)
    · exact .inr (bodiesAll_inner body hb hd)
  case branch a c => exact hb.imp (bodiesAll_inner a · hd) (bodiesAll_inner c · hd)
  case loop a c => exact hb.imp (bodiesAll_inner a · hd) (bodiesAll_inner c · hd)
  case each a c => exact hb.imp (bodiesAll_inner a · hd) (bodiesAll_inner c · hd)

private theorem Stmt.bodiesAll_inner (stmts : List Stmt) {b d : Body} (hb : b ∈ bodiesAll stmts)
    (hd : d ∈ b.definitions) : d ∈ bodiesAll stmts := by
  cases stmts with
  | nil => cases hb
  | cons s rest =>
    simp only [bodiesAll, List.mem_append] at hb ⊢
    exact hb.imp (bodies_inner s · hd) (bodiesAll_inner rest · hd)

end

/-- What a body of a tree defines is a body of the tree. -/
theorem Tree.bodies_inner {tree : Tree} {b d : Body} (hb : b ∈ tree.bodies)
    (hd : d ∈ b.definitions) : d ∈ tree.bodies := by
  rcases List.mem_cons.1 hb with rfl | hb
  · exact List.mem_cons_of_mem _ (Stmt.bodiesAll_of_definitionsAll _ hd)
  · exact List.mem_cons_of_mem _ (Stmt.bodiesAll_inner _ hb hd)

end Typeflow
