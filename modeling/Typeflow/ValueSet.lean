/-! Sets of values as they gather at one point of a program: finite sets of value numbers with a
greatest element, `top`, which a set becomes when it outgrows its cap. -/
namespace Typeflow

/-- The number of a value; values are numbered in the order in which they are made. -/
structure ValueId where
  index : Nat
  deriving DecidableEq, Repr, Inhabited

/-- Adds a value in front of the first greater one. -/
def insertValue (v : ValueId) : List ValueId → List ValueId
  | [] => [v]
  | w :: rest =>
    if v.index < w.index then v :: w :: rest
    else if v = w then w :: rest
    else w :: insertValue v rest

private theorem mem_insertValue {v x : ValueId} {vs : List ValueId} :
    x ∈ insertValue v vs ↔ x = v ∨ x ∈ vs := by
  induction vs with
  | nil => simp [insertValue]
  | cons w rest ih =>
    by_cases hl : v.index < w.index
    · simp [insertValue, hl]
    · by_cases he : v = w
      · simp [insertValue, he]
      · simp only [insertValue, hl, he, ite_false, List.mem_cons, ih]
        exact or_left_comm

private theorem pairwise_insertValue {v : ValueId} {vs : List ValueId}
    (h : vs.Pairwise (·.index < ·.index)) : (insertValue v vs).Pairwise (·.index < ·.index) := by
  induction vs with
  | nil => simp [insertValue]
  | cons w rest ih =>
    obtain ⟨hw, hr⟩ := List.pairwise_cons.1 h
    by_cases hl : v.index < w.index
    · simp only [insertValue, hl, ite_true, List.pairwise_cons]
      refine ⟨fun x hx => ?_, hw, hr⟩
      rcases List.mem_cons.1 hx with rfl | hx
      · exact hl
      · exact Nat.lt_trans hl (hw x hx)
    · by_cases he : v = w
      · simpa [insertValue, he] using h
      · simp only [insertValue, hl, he, ite_false, List.pairwise_cons]
        refine ⟨fun x hx => ?_, ih hr⟩
        rcases mem_insertValue.1 hx with rfl | hx
        · have : x.index ≠ w.index := fun hxw => he (by cases x; cases w; simp_all)
          omega
        · exact hw x hx

/-- The merge of `v :: vs` with an increasing list, where `rest` merges `vs`: what is below `v` goes
in front of it, and a value that both lists have is taken once. -/
def mergeAt (v : ValueId) (rest : List ValueId → List ValueId) : List ValueId → List ValueId
  | [] => v :: rest []
  | w :: ws =>
    if v.index < w.index then v :: rest (w :: ws)
    else if v = w then v :: rest ws
    else w :: mergeAt v rest ws

/-- The merge of two increasing lists. -/
def mergeValues : List ValueId → List ValueId → List ValueId
  | [], ws => ws
  | v :: vs, ws => mergeAt v (mergeValues vs) ws

private theorem ValueId.trichotomy (v w : ValueId) : v.index < w.index ∨ v = w ∨ w.index < v.index := by
  rcases Nat.lt_trichotomy v.index w.index with h | h | h
  · exact .inl h
  · exact .inr (.inl (by cases v; cases w; simp_all))
  · exact .inr (.inr h)

section Merge

variable {x v w : ValueId} {rest : List ValueId → List ValueId} {vs ws : List ValueId}

private theorem mergeAt_of_lt (h : v.index < w.index) :
    mergeAt v rest (w :: ws) = v :: rest (w :: ws) := if_pos h

private theorem mergeAt_self : mergeAt v rest (v :: ws) = v :: rest ws := by simp [mergeAt]

private theorem mergeAt_of_gt (h : w.index < v.index) :
    mergeAt v rest (w :: ws) = w :: mergeAt v rest ws := by
  have he : v ≠ w := by rintro rfl; omega
  simp [mergeAt, he, Nat.lt_asymm h]

private theorem mem_mergeValues : x ∈ mergeValues vs ws ↔ x ∈ vs ∨ x ∈ ws := by
  induction vs generalizing ws with
  | nil => simp [mergeValues]
  | cons v vs ih =>
    rw [mergeValues]
    induction ws with
    | nil => simp [mergeAt, ih]
    | cons w ws ihw =>
      rcases v.trichotomy w with h | rfl | h
      · simp [mergeAt_of_lt h, ih, or_assoc]
      · simp only [mergeAt_self, List.mem_cons, ih]
        grind
      · simp only [mergeAt_of_gt h, List.mem_cons, ihw]
        grind

private theorem pairwise_mergeValues (hv : vs.Pairwise (·.index < ·.index))
    (hw : ws.Pairwise (·.index < ·.index)) :
    (mergeValues vs ws).Pairwise (·.index < ·.index) := by
  induction vs generalizing ws with
  | nil => exact hw
  | cons v vs ih =>
    obtain ⟨above, hv⟩ := List.pairwise_cons.1 hv
    rw [mergeValues]
    induction ws with
    | nil =>
      refine List.pairwise_cons.2 ⟨fun x hx => ?_, ih hv .nil⟩
      rcases mem_mergeValues.1 hx with hx | hx
      · exact above x hx
      · cases hx
    | cons w ws ihw =>
      obtain ⟨higher, hws⟩ := List.pairwise_cons.1 hw
      rcases v.trichotomy w with h | rfl | h
      · rw [mergeAt_of_lt h]
        refine List.pairwise_cons.2 ⟨fun x hx => ?_, ih hv hw⟩
        rcases mem_mergeValues.1 hx with hx | hx
        · exact above x hx
        · rcases List.mem_cons.1 hx with rfl | hx
          · exact h
          · exact Nat.lt_trans h (higher x hx)
      · rw [mergeAt_self]
        refine List.pairwise_cons.2 ⟨fun x hx => ?_, ih hv hws⟩
        rcases mem_mergeValues.1 hx with hx | hx
        · exact above x hx
        · exact higher x hx
      · rw [mergeAt_of_gt h]
        refine List.pairwise_cons.2 ⟨fun x hx => ?_, ihw hws⟩
        rcases (@mem_mergeValues _ (v :: vs) _).1 hx with hx | hx
        · rcases List.mem_cons.1 hx with rfl | hx
          · exact h
          · exact Nat.lt_trans h (above x hx)
        · exact higher x hx

private theorem sublist_mergeValues_left : vs.Sublist (mergeValues vs ws) := by
  induction vs generalizing ws with
  | nil => exact List.nil_sublist _
  | cons v vs ih =>
    rw [mergeValues]
    induction ws with
    | nil => exact ih.cons_cons v
    | cons w ws ihw =>
      rcases v.trichotomy w with h | rfl | h
      · rw [mergeAt_of_lt h]
        exact ih.cons_cons v
      · rw [mergeAt_self]
        exact ih.cons_cons v
      · rw [mergeAt_of_gt h]
        exact ihw.cons w

private theorem sublist_mergeValues_right : ws.Sublist (mergeValues vs ws) := by
  induction vs generalizing ws with
  | nil => exact List.Sublist.refl _
  | cons v vs ih =>
    rw [mergeValues]
    induction ws with
    | nil => exact List.nil_sublist _
    | cons w ws ihw =>
      rcases v.trichotomy w with h | rfl | h
      · rw [mergeAt_of_lt h]
        exact ih.cons v
      · rw [mergeAt_self]
        exact ih.cons_cons v
      · rw [mergeAt_of_gt h]
        exact ihw.cons_cons w

end Merge

/-- Values in strictly increasing order of their numbers. -/
structure ValueList where
  toList : List ValueId
  ordered : toList.Pairwise (·.index < ·.index)
  deriving DecidableEq

namespace ValueList

def nil : ValueList := ⟨[], .nil⟩

def insert (vs : ValueList) (v : ValueId) : ValueList :=
  ⟨insertValue v vs.toList, pairwise_insertValue vs.ordered⟩

/-- The values of a list, sorted and without repetitions. -/
def ofList (vs : List ValueId) : ValueList := vs.foldr (fun v acc => acc.insert v) nil

/-- The two lists merged into one. -/
def merge (a b : ValueList) : ValueList :=
  ⟨mergeValues a.toList b.toList, pairwise_mergeValues a.ordered b.ordered⟩

/-- The union of two lists. An operand that is the union already is returned itself. -/
def union (a b : ValueList) : ValueList :=
  if b.toList.isEmpty || a = b then a
  else if a.toList.isEmpty then b
  else
    let merged := a.merge b
    if merged.toList.length = a.toList.length then a
    else if merged.toList.length = b.toList.length then b
    else merged

@[simp] theorem mem_ofList {v : ValueId} {vs : List ValueId} : v ∈ (ofList vs).toList ↔ v ∈ vs := by
  induction vs with
  | nil => simp [ofList, nil]
  | cons w rest ih =>
    have : ofList (w :: rest) = (ofList rest).insert w := rfl
    rw [this]
    simp [insert, mem_insertValue, ih]

private theorem mem_merge {v : ValueId} {a b : ValueList} :
    v ∈ (a.merge b).toList ↔ v ∈ a.toList ∨ v ∈ b.toList := mem_mergeValues

theorem nodup (a : ValueList) : a.toList.Nodup := by
  apply List.nodup_iff_pairwise_ne.2
  exact a.ordered.imp fun h he => by
    subst he
    exact Nat.lt_irrefl _ h

/-- An increasing list is given by its members. -/
theorem ext_mem {a b : ValueList} (h : ∀ v, v ∈ a.toList ↔ v ∈ b.toList) : a = b := by
  have perm : a.toList.Perm b.toList := (List.perm_ext_iff_of_nodup a.nodup b.nodup).2 h
  have same : a.toList = b.toList :=
    perm.eq_of_pairwise (fun _ _ _ _ hab hba => absurd hba (Nat.lt_asymm hab)) a.ordered b.ordered
  cases a
  cases b
  simpa using same

private theorem eq_of_sublist {a b : ValueList} (h : a.toList.Sublist b.toList)
    (hl : b.toList.length = a.toList.length) : b = a :=
  ext_mem fun v => by rw [h.eq_of_length hl.symm]

/-- The shortcuts of the union return the operand that the merge would rebuild. -/
theorem union_eq_merge (a b : ValueList) : a.union b = a.merge b := by
  unfold union
  split
  next h =>
    apply ext_mem
    intro v
    rcases Bool.or_eq_true_iff.1 h with h | h
    · simp [mem_merge, List.isEmpty_iff.1 h]
    · simp [mem_merge, of_decide_eq_true h]
  next =>
    split
    next h =>
      apply ext_mem
      intro v
      simp [mem_merge, List.isEmpty_iff.1 h]
    next =>
      dsimp only
      split
      next h => exact (eq_of_sublist sublist_mergeValues_left h).symm
      next =>
        split
        next h => exact (eq_of_sublist sublist_mergeValues_right h).symm
        next => rfl

@[simp] theorem mem_union {v : ValueId} {a b : ValueList} :
    v ∈ (a.union b).toList ↔ v ∈ a.toList ∨ v ∈ b.toList := by
  rw [union_eq_merge, mem_merge]

end ValueList

/-- A set of values, or `top`, which stands for any value. -/
inductive ValueSet where
  | top
  | of (values : ValueList)
  deriving DecidableEq

namespace ValueSet

def empty : ValueSet := .of .nil

instance : Inhabited ValueSet := ⟨empty⟩

/-- The set of one value, or the empty set when there is none. -/
def single : Option ValueId → ValueSet
  | none => empty
  | some v => .of (ValueList.nil.insert v)

/-- The set of the values that are there. -/
def ofList (values : List (Option ValueId)) : ValueSet := .of (.ofList (values.filterMap fun v => v))

/-- The values in increasing order; `top` lists none. -/
def items : ValueSet → List ValueId
  | top => []
  | of values => values.toList

def isTop : ValueSet → Bool
  | top => true
  | of _ => false

def size (s : ValueSet) : Nat := s.items.length

/-- Whether there are no values to list; so it is for `top` too. -/
def isEmpty (s : ValueSet) : Bool := s.items.isEmpty

def contains (s : ValueSet) : Option ValueId → Bool
  | none => false
  | some v => v ∈ s.items

/-- A set that is larger than its cap is `top`; a cap of zero is none. -/
def capped (cap : Nat) : ValueSet → ValueSet
  | top => top
  | of values => if cap ≠ 0 && cap < values.toList.length then top else of values

/-- The union of two sets under a cap. -/
def union (a b : ValueSet) (cap : Nat) : ValueSet :=
  match a, b with
  | of x, of y => capped cap (of (x.union y))
  | _, _ => top

def add (s : ValueSet) (v : Option ValueId) (cap : Nat) : ValueSet := s.union (single v) cap

/-- The union of two sets without a cap. -/
def join (a b : ValueSet) : ValueSet := a.union b 0

@[simp] theorem top_join (s : ValueSet) : top.join s = top := rfl

@[simp] theorem join_top (s : ValueSet) : s.join top = top := by cases s <;> rfl

@[simp] theorem items_join_of (a b : ValueList) : ((of a).join (of b)).items = (a.union b).toList := rfl

theorem mem_items_join {v : ValueId} {a b : ValueSet} (h : a.join b ≠ top) :
    v ∈ (a.join b).items ↔ v ∈ a.items ∨ v ∈ b.items := by
  cases a with
  | top => exact absurd rfl h
  | of x =>
    cases b with
    | top => exact absurd rfl h
    | of y => exact ValueList.mem_union

/-- Joins sets from the left under a cap. The rest is not looked at once the union is `top`. -/
def unionFrom (acc : ValueSet) (cap : Nat) : List ValueSet → ValueSet
  | [] => acc
  | s :: rest =>
    match acc.union s cap with
    | top => top
    | of values => unionFrom (of values) cap rest

def unionAll (sets : List ValueSet) (cap : Nat) : ValueSet := unionFrom empty cap sets

/-- Joins the sets that an action yields for each item, in order. -/
def joinM {m : Type → Type} [Monad m] {α : Type} (items : List α) (f : α → m ValueSet) : m ValueSet :=
  items.foldlM (fun acc item => return acc.join (← f item)) empty

end ValueSet

end Typeflow
