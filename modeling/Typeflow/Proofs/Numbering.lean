import Typeflow.Proofs.Bodies

/-! The numbers of a tree: no node for which values are kept has the number of a body, and no two bodies
have the same number. -/
namespace Typeflow

mutual

/-- The nodes of a statement for which values may be kept, those inside its definitions too. -/
def Stmt.spots : Stmt → List NodeId
  | .missing | .pass _ | .importNames _ _ => []
  | .functionDef _ _ params body decorators =>
    Param.placesAll params ++ (Stmt.spotsAll body ++ Expr.placesAll decorators)
  | .classDef _ _ bases body => Expr.placesAll bases ++ Stmt.spotsAll body
  | .ret _ value | .expr _ value => value.places
  | .assign _ targets value => Expr.placesAll targets ++ value.places
  | .branch _ cond thenBody elseBody | .loop _ cond thenBody elseBody =>
    cond.places ++ (Stmt.spotsAll thenBody ++ Stmt.spotsAll elseBody)
  | .each mark target iterable thenBody elseBody =>
    [mark.id] ++ (target.places ++ (iterable.places ++
      (Stmt.spotsAll thenBody ++ Stmt.spotsAll elseBody)))
  | .importFrom mark _ _ _ => [mark.id]

def Stmt.spotsAll : List Stmt → List NodeId
  | [] => []
  | s :: rest => s.spots ++ Stmt.spotsAll rest

end

mutual

private theorem Stmt.places_subset (s : Stmt) : s.places ⊆ s.spots := by
  intro n hn
  cases s <;> simp only [places, spots, List.mem_append, List.mem_cons, List.not_mem_nil,
    or_false] at hn ⊢ <;> try exact hn
  case functionDef => exact hn.imp id .inr
  case classDef => exact .inl hn
  case branch a c => exact hn.imp id (Or.imp (fun h => placesAll_subset a h) fun h => placesAll_subset c h)
  case loop a c => exact hn.imp id (Or.imp (fun h => placesAll_subset a h) fun h => placesAll_subset c h)
  case each a c =>
    exact hn.imp id (Or.imp id (Or.imp id
      (Or.imp (fun h => placesAll_subset a h) fun h => placesAll_subset c h)))

private theorem Stmt.placesAll_subset (stmts : List Stmt) : placesAll stmts ⊆ spotsAll stmts := by
  intro n hn
  cases stmts with
  | nil => exact hn
  | cons s rest =>
    simp only [placesAll, spotsAll, List.mem_append] at hn ⊢
    exact hn.imp (fun h => places_subset s h) fun h => placesAll_subset rest h

end

mutual

theorem Stmt.places_of_bodies (s : Stmt) {b : Body} (hb : b ∈ s.bodies) : b.places ⊆ s.spots := by
  intro n hn
  cases s <;> simp only [bodies, spots, List.mem_append, List.mem_cons, List.not_mem_nil] at hb ⊢
  case functionDef body _ =>
    rcases hb with rfl | hb
    · exact .inr (.inl (placesAll_subset body hn))
    · exact .inr (.inl (places_of_bodiesAll body hb hn))
  case classDef body =>
    rcases hb with rfl | hb
    · exact .inr (placesAll_subset body hn)
    · exact .inr (places_of_bodiesAll body hb hn)
  case branch a c => exact .inr (hb.imp (places_of_bodiesAll a · hn) (places_of_bodiesAll c · hn))
  case loop a c => exact .inr (hb.imp (places_of_bodiesAll a · hn) (places_of_bodiesAll c · hn))
  case each a c =>
    exact .inr (.inr (.inr (hb.imp (places_of_bodiesAll a · hn) (places_of_bodiesAll c · hn))))

private theorem Stmt.places_of_bodiesAll (stmts : List Stmt) {b : Body} (hb : b ∈ bodiesAll stmts) :
    b.places ⊆ spotsAll stmts := by
  intro n hn
  cases stmts with
  | nil => cases hb
  | cons s rest =>
    simp only [bodiesAll, spotsAll, List.mem_append] at hb ⊢
    exact hb.imp (places_of_bodies s · hn) (places_of_bodiesAll rest · hn)

end

/-- Spots and bodies have numbers from a range, and no number belongs to two of them. -/
structure Fresh (first next : Nat) (spots : List NodeId) (bodies : List Body) : Prop where
  le : first ≤ next
  spot : ∀ n ∈ spots, first ≤ n.index ∧ n.index < next
  body : ∀ b ∈ bodies, first ≤ b.node.id.index ∧ b.node.id.index < next
  apart : ∀ b ∈ bodies, b.node.id ∉ spots
  same : ∀ b ∈ bodies, ∀ d ∈ bodies, b.node.id = d.node.id → b = d

namespace Fresh

variable {a m b : Nat} {spots more : List NodeId} {bodies others : List Body}

theorem nil (a : Nat) : Fresh a a [] [] where
  le := Nat.le_refl a
  spot _ h := nomatch h
  body _ h := nomatch h
  apart _ h := nomatch h
  same _ h := nomatch h

/-- A number that nothing is made of. -/
theorem skip (a : Nat) : Fresh a (a + 1) [] [] where
  le := Nat.le_succ a
  spot _ h := nomatch h
  body _ h := nomatch h
  apart _ h := nomatch h
  same _ h := nomatch h

private theorem ofSpot (a : Nat) : Fresh a (a + 1) [⟨a⟩] [] where
  le := Nat.le_succ a
  spot n hn := by
    rw [List.mem_singleton.1 hn]
    exact ⟨Nat.le_refl a, Nat.lt_succ_self a⟩
  body _ h := nomatch h
  apart _ h := nomatch h
  same _ h := nomatch h

private theorem ofBody (a : Nat) (kind : NodeKind) (mark : Mark) (statements : List Stmt) :
    Fresh a (a + 1) [] [⟨({ mark with id := ⟨a⟩ } : Mark).node kind, statements⟩] where
  le := Nat.le_succ a
  spot _ h := nomatch h
  body b hb := by
    rw [List.mem_singleton.1 hb]
    exact ⟨Nat.le_refl a, Nat.lt_succ_self a⟩
  apart _ _ := List.not_mem_nil
  same b hb d hd _ := (List.mem_singleton.1 hb).trans (List.mem_singleton.1 hd).symm

/-- Two ranges, one after the other. -/
theorem append (h : Fresh a m spots bodies) (g : Fresh m b more others) :
    Fresh a b (spots ++ more) (bodies ++ others) where
  le := Nat.le_trans h.le g.le
  spot n hn := by
    rcases List.mem_append.1 hn with hn | hn
    · exact ⟨(h.spot n hn).1, Nat.lt_of_lt_of_le (h.spot n hn).2 g.le⟩
    · exact ⟨Nat.le_trans h.le (g.spot n hn).1, (g.spot n hn).2⟩
  body d hd := by
    rcases List.mem_append.1 hd with hd | hd
    · exact ⟨(h.body d hd).1, Nat.lt_of_lt_of_le (h.body d hd).2 g.le⟩
    · exact ⟨Nat.le_trans h.le (g.body d hd).1, (g.body d hd).2⟩
  apart d hd hn := by
    rcases List.mem_append.1 hd with hd | hd <;> rcases List.mem_append.1 hn with hn | hn
    · exact h.apart d hd hn
    · exact absurd (h.body d hd).2 (Nat.not_lt_of_le (g.spot _ hn).1)
    · exact absurd (h.spot _ hn).2 (Nat.not_lt_of_le (g.body d hd).1)
    · exact g.apart d hd hn
  same c hc d hd same := by
    have index := congrArg NodeId.index same
    rcases List.mem_append.1 hc with hc | hc <;> rcases List.mem_append.1 hd with hd | hd
    · exact h.same c hc d hd same
    · exact absurd (h.body c hc).2 (Nat.not_lt_of_le (index ▸ (g.body d hd).1))
    · exact absurd (h.body d hd).2 (Nat.not_lt_of_le (index ▸ (g.body c hc).1))
    · exact g.same c hc d hd same

/-- A range without bodies behind another one. -/
theorem appendSpots (h : Fresh a m spots bodies) (g : Fresh m b more []) :
    Fresh a b (spots ++ more) bodies := by
  simpa using h.append g

end Fresh

mutual

theorem Expr.fresh_number (e : Expr) (a : Nat) :
    Fresh a (e.number a).2 (e.number a).1.places [] := by
  cases e with
  | missing => exact .nil a
  | name mark id => exact .ofSpot a
  | literal mark value => exact .ofSpot a
  | «attribute» mark value attr => exact (Fresh.ofSpot a).append (value.fresh_number _)
  | subscript mark value slice =>
    exact (Fresh.ofSpot a).append ((value.fresh_number _).append (slice.fresh_number _))
  | call mark callee args names =>
    exact (Fresh.ofSpot a).append ((callee.fresh_number _).append (fresh_numberAll args _))
  | tuple mark elements => exact (Fresh.ofSpot a).append (fresh_numberAll elements _)
  | list mark elements => exact (Fresh.ofSpot a).append (fresh_numberAll elements _)

private theorem Expr.fresh_numberAll (es : List Expr) (a : Nat) :
    Fresh a (Expr.numberAll es a).2 (Expr.placesAll (Expr.numberAll es a).1) [] := by
  cases es with
  | nil => exact .nil a
  | cons e rest => exact (e.fresh_number a).append (fresh_numberAll rest _)

end

private theorem Param.fresh_numberAll (params : List Param) (a : Nat) :
    Fresh a (Param.numberAll params a).2 (Param.placesAll (Param.numberAll params a).1) [] := by
  induction params generalizing a with
  | nil => exact .nil a
  | cons p rest ih => exact (p.default.fresh_number a).append (ih _)

mutual

theorem Stmt.fresh_number (s : Stmt) (a : Nat) :
    Fresh a (s.number a).2 (s.number a).1.spots (s.number a).1.bodies := by
  cases s with
  | missing => exact .nil a
  | pass mark => exact .skip a
  | functionDef mark name params body decorators =>
    exact (Fresh.ofBody a .functionDef mark _).append ((Param.fresh_numberAll params _).append
      ((fresh_numberAll body _).appendSpots (Expr.fresh_numberAll decorators _)))
  | classDef mark name bases body =>
    exact (Fresh.ofBody a .classDef mark _).append
      ((Expr.fresh_numberAll bases _).append (fresh_numberAll body _))
  | ret mark value => exact (Fresh.skip a).append (value.fresh_number _)
  | expr mark value => exact (Fresh.skip a).append (value.fresh_number _)
  | assign mark targets value =>
    exact (Fresh.skip a).append ((Expr.fresh_numberAll targets _).append (value.fresh_number _))
  | branch mark cond thenBody elseBody =>
    exact (Fresh.skip a).append ((cond.fresh_number _).append ((fresh_numberAll thenBody _).append
      (fresh_numberAll elseBody _)))
  | loop mark cond thenBody elseBody =>
    exact (Fresh.skip a).append ((cond.fresh_number _).append ((fresh_numberAll thenBody _).append
      (fresh_numberAll elseBody _)))
  | each mark target iterable thenBody elseBody =>
    exact (Fresh.ofSpot a).append ((target.fresh_number _).append ((iterable.fresh_number _).append
      ((fresh_numberAll thenBody _).append (fresh_numberAll elseBody _))))
  | importNames mark names => exact .skip a
  | importFrom mark module level names => exact .ofSpot a

private theorem Stmt.fresh_numberAll (stmts : List Stmt) (a : Nat) :
    Fresh a (Stmt.numberAll stmts a).2 (Stmt.spotsAll (Stmt.numberAll stmts a).1)
      (Stmt.bodiesAll (Stmt.numberAll stmts a).1) := by
  cases stmts with
  | nil => exact .nil a
  | cons s rest => exact (s.fresh_number a).append (fresh_numberAll rest _)

end

/-- No body goes by two names. -/
def NamedOnce (functions : List (String × Body)) : Prop :=
  ∀ name other b, (name, b) ∈ functions → (other, b) ∈ functions → name = other

/-- The bodies of two lists are numbered one after another, so that none is in both. -/
theorem NamedOnce.append {a m b : Nat} {spots more : List NodeId} {bodies others : List Body}
    {first second : List (String × Body)} (h : NamedOnce first) (g : NamedOnce second)
    (before : Fresh a m spots bodies) (behind : Fresh m b more others) (inFirst : ∀ f ∈ first, f.2 ∈ bodies)
    (inSecond : ∀ f ∈ second, f.2 ∈ others) : NamedOnce (first ++ second) := by
  intro name other d hn ho
  rcases List.mem_append.1 hn with hn | hn <;> rcases List.mem_append.1 ho with ho | ho
  · exact h name other d hn ho
  · exact absurd (before.body d (inFirst _ hn)).2 (Nat.not_lt_of_le (behind.body d (inSecond _ ho)).1)
  · exact absurd (before.body d (inFirst _ ho)).2 (Nat.not_lt_of_le (behind.body d (inSecond _ hn)).1)
  · exact g name other d hn ho

theorem NamedOnce.nil : NamedOnce [] := fun _ _ _ h => nomatch h

private theorem Stmt.bodiesAll_of_functionsAll {stmts : List Stmt} {f : String × Body} (h : f ∈ functionsAll stmts) :
    f.2 ∈ bodiesAll stmts :=
  bodiesAll_of_definitionsAll stmts (definitionsAll_of_functionsAll stmts h)

/-- The two parts of a statement are numbered one after the other. -/
theorem Stmt.namedOnce_both {thenBody elseBody : List Stmt} {a : Nat}
    (h : NamedOnce (functionsAll (numberAll thenBody a).1))
    (g : NamedOnce (functionsAll (numberAll elseBody (numberAll thenBody a).2).1)) :
    NamedOnce (functionsAll (numberAll thenBody a).1 ++
      functionsAll (numberAll elseBody (numberAll thenBody a).2).1) :=
  h.append g (fresh_numberAll thenBody a) (fresh_numberAll elseBody _) (fun _ => bodiesAll_of_functionsAll)
    fun _ => bodiesAll_of_functionsAll

mutual

private theorem Stmt.namedOnce_number (s : Stmt) (a : Nat) : NamedOnce (s.number a).1.functions := by
  cases s with
  | functionDef mark name params body decorators =>
    intro n o d hn ho
    have same := (List.mem_singleton.1 hn).trans (List.mem_singleton.1 ho).symm
    exact congrArg Prod.fst same
  | branch mark cond thenBody elseBody =>
    exact namedOnce_both (namedOnce_numberAll thenBody _) (namedOnce_numberAll elseBody _)
  | loop mark cond thenBody elseBody =>
    exact namedOnce_both (namedOnce_numberAll thenBody _) (namedOnce_numberAll elseBody _)
  | each mark target iterable thenBody elseBody =>
    exact namedOnce_both (namedOnce_numberAll thenBody _) (namedOnce_numberAll elseBody _)
  | _ => exact .nil

private theorem Stmt.namedOnce_numberAll (stmts : List Stmt) (a : Nat) : NamedOnce (functionsAll (numberAll stmts a).1) := by
  cases stmts with
  | nil => exact .nil
  | cons s rest =>
    exact (s.namedOnce_number a).append (namedOnce_numberAll rest _) (s.fresh_number a) (fresh_numberAll rest _)
      (fun f hf => bodies_of_definitions _ (definitions_of_functions _ hf)) fun _ => bodiesAll_of_functionsAll

end

mutual

theorem Stmt.named_number (s : Stmt) (a : Nat) : ∀ b ∈ (s.number a).1.bodies, NamedOnce b.functions := by
  cases s with
  | functionDef mark name params body decorators =>
    exact List.forall_mem_cons.2 ⟨namedOnce_numberAll body _, named_numberAll body _⟩
  | classDef mark name bases body =>
    exact List.forall_mem_cons.2 ⟨namedOnce_numberAll body _, named_numberAll body _⟩
  | branch mark cond thenBody elseBody =>
    exact List.forall_mem_append.2 ⟨named_numberAll thenBody _, named_numberAll elseBody _⟩
  | loop mark cond thenBody elseBody =>
    exact List.forall_mem_append.2 ⟨named_numberAll thenBody _, named_numberAll elseBody _⟩
  | each mark target iterable thenBody elseBody =>
    exact List.forall_mem_append.2 ⟨named_numberAll thenBody _, named_numberAll elseBody _⟩
  | _ => exact fun b hb => nomatch hb

private theorem Stmt.named_numberAll (stmts : List Stmt) (a : Nat) :
    ∀ b ∈ bodiesAll (numberAll stmts a).1, NamedOnce b.functions := by
  cases stmts with
  | nil => exact fun b hb => nomatch hb
  | cons s rest => exact List.forall_mem_append.2 ⟨s.named_number a, named_numberAll rest _⟩

end

theorem Tree.named_number (tree : Tree) (a : Nat) : ∀ b ∈ (tree.number a).1.bodies, NamedOnce b.functions :=
  List.forall_mem_cons.2 ⟨Stmt.namedOnce_numberAll tree.body (a + 1), Stmt.named_numberAll tree.body (a + 1)⟩

/-- The nodes of a tree for which values may be kept. -/
def Tree.spots (tree : Tree) : List NodeId := Stmt.spotsAll tree.body

theorem Tree.fresh_number (tree : Tree) (a : Nat) :
    Fresh a (tree.number a).2 (tree.number a).1.spots (tree.number a).1.bodies :=
  (Fresh.ofBody a .module tree.mark _).append (Stmt.fresh_numberAll tree.body (a + 1))

theorem Tree.places_of_bodies {tree : Tree} {b : Body} (hb : b ∈ tree.bodies) :
    b.places ⊆ tree.spots := by
  intro n hn
  rcases List.mem_cons.1 hb with rfl | hb
  · exact Stmt.placesAll_subset tree.body hn
  · exact Stmt.places_of_bodiesAll tree.body hb hn

end Typeflow
