import Typeflow.Proofs.Realm.Change

/-! Actions that stay within a realm: from a session whose realm is closed they proceed by changes of a
kind that keeps it closed, and what they yield belongs to the realm. -/
namespace Typeflow.Session

/-- Changes of the kind keep a realm closed. -/
class Realm.Guards (R : Realm) (T : Session → Session → Prop) : Prop where
  closed : ∀ {s t : Session}, R.Closed s → T s t → R.Closed t

instance (R : Realm) : R.Guards (Change R) := ⟨Realm.Closed.change⟩

theorem Realm.Guards.closed_all {R : Realm} {T : Session → Session → Prop} [R.Guards T] {s t : Session}
    (h : R.Closed s) (c : Relation.ReflTransGen T s t) : R.Closed t := by
  induction c with
  | refl => exact h
  | tail _ c ih => exact Realm.Guards.closed ih c

/-- From this session the action proceeds by changes of the kind, up to where it ends or fails, and yields what
is right. -/
def Proceeds (T : Session → Session → Prop) {α : Type} (m : Analysis α) (Q : α → Prop) (s : Session) : Prop :=
  Relation.ReflTransGen T s (after m s) ∧ ∀ a t, m s = .ok a t → Q a

/-- From every session in which the realm is closed the action proceeds by changes of the kind. -/
def Within (R : Realm) (T : Session → Session → Prop) {α : Type} (m : Analysis α) (Q : α → Prop) : Prop :=
  ∀ s, R.Closed s → Relation.ReflTransGen T s (after m s) ∧ ∀ a t, m s = .ok a t → Q a

namespace Proceeds

variable {R : Realm} {T : Session → Session → Prop} {α β : Type} {Q : α → Prop} {P : β → Prop} {s : Session}

theorem pure {a : α} (h : Q a) : Proceeds T (Pure.pure a) Q s := ⟨.refl, fun _ _ ha => by cases ha; exact h⟩

theorem read {f : Session → Analysis β} (h : Proceeds T (f s) P s) : Proceeds T (get >>= f) P s := h

variable [R.Guards T]

theorem bind {m : Analysis α} {f : α → Analysis β} (hs : R.Closed s) (hm : Proceeds T m Q s)
    (hf : ∀ a t, Relation.ReflTransGen T s t → R.Closed t → Q a → Proceeds T (f a) P t) :
    Proceeds T (m >>= f) P s := by
  obtain ⟨steps, yields⟩ := hm
  cases h : m s with
  | ok a t =>
    rw [after_of_ok h] at steps
    have next := hf a t steps (Realm.Guards.closed_all hs steps) (yields a t h)
    rw [Proceeds, after_bind_of_ok h, bind_of_ok h]
    exact ⟨steps.trans next.1, next.2⟩
  | error e t =>
    rw [after_of_error h] at steps
    rw [Proceeds, after_bind_of_error h, bind_of_error h]
    exact ⟨steps, fun _ _ ha => nomatch ha⟩

theorem forM {f : α → Analysis Unit} {items : List α} (hs : R.Closed s)
    (h : ∀ a ∈ items, ∀ t, Relation.ReflTransGen T s t → R.Closed t → Proceeds T (f a) (fun _ => True) t) :
    Proceeds T (items.forM f) (fun _ => True) s := by
  induction items generalizing s with
  | nil => exact pure trivial
  | cons a rest ih =>
    refine bind hs (h a List.mem_cons_self s .refl hs) fun _ t steps ht _ => ih ht fun b hb r more hr => ?_
    exact h b (List.mem_cons_of_mem _ hb) r (steps.trans more) hr

theorem joinM {f : α → Analysis ValueSet} {items : List α} (hs : R.Closed s)
    (h : ∀ a ∈ items, ∀ t, Relation.ReflTransGen T s t → R.Closed t → Proceeds T (f a) R.set t) :
    Proceeds T (ValueSet.joinM items f) R.set s := by
  have loop : ∀ (items : List α) (acc : ValueSet) (r : Session), R.set acc → R.Closed r →
      Relation.ReflTransGen T s r →
      (∀ a ∈ items, ∀ t, Relation.ReflTransGen T s t → R.Closed t → Proceeds T (f a) R.set t) →
      Proceeds T (items.foldlM (fun acc item => do return acc.join (← f item)) acc) R.set r := by
    intro items
    induction items with
    | nil => exact fun _ _ hacc _ _ _ => pure hacc
    | cons a rest ih =>
      intro acc r hacc hr before hall
      refine bind (Q := R.set) hr ?_ fun grown t steps ht hgrown =>
        ih grown t hgrown ht (before.trans steps) fun b hb => hall b (List.mem_cons_of_mem _ hb)
      exact bind hr (hall a List.mem_cons_self r before hr) fun _ _ _ _ hv => pure (Realm.set_join hacc hv)
  exact loop items .empty s Realm.set_empty hs .refl h

end Proceeds

namespace Within

variable {R : Realm} {T : Session → Session → Prop} {α β : Type} {Q : α → Prop} {P : β → Prop}

/-- Changes of a kind that may be put together lead to one change of the kind. -/
theorem whole {m : Analysis α} (refl : ∀ s, T s s) (trans : ∀ {s t r}, T s t → T t r → T s r)
    (h : Within .all T m Q) (s : Session) : T s (after m s) := by
  have steps := (h s (Realm.closed_all s)).1
  generalize after m s = t at steps
  induction steps with
  | refl => exact refl s
  | tail _ step ih => exact trans ih step

theorem of_change {m : Analysis α} (h : ∀ s, R.Closed s → T s (after m s)) :
    Within R T m fun _ => True :=
  fun s hs => ⟨.single (h s hs), fun _ _ _ => trivial⟩

theorem mono {m : Analysis α} {Q' : α → Prop} (h : Within R T m Q) (hQ : ∀ a, Q a → Q' a) :
    Within R T m Q' :=
  fun s hs => ⟨(h s hs).1, fun a t ha => hQ a ((h s hs).2 a t ha)⟩

/-- What is yielded does not matter. -/
theorem any {m : Analysis α} (h : Within R T m Q) : Within R T m fun _ => True :=
  h.mono fun _ _ => trivial

theorem pure {a : α} (h : Q a) : Within R T (Pure.pure a) Q :=
  fun _ _ => ⟨.refl, fun _ _ ha => by cases ha; exact h⟩

theorem throw (e : Fault) : Within R T (MonadExcept.throw e : Analysis α) Q :=
  fun _ _ => ⟨.refl, fun _ _ ha => nomatch ha⟩

/-- Reading the session changes nothing, and what is read belongs to the realm. -/
theorem read {f : Session → Analysis β} (hf : ∀ s, R.Closed s → Within R T (f s) P) :
    Within R T (get >>= f) P :=
  fun s hs => hf s hs s hs

theorem ite {c : Prop} [Decidable c] {m n : Analysis α} (hm : Within R T m Q) (hn : Within R T n Q) :
    Within R T (if c then m else n) Q := by
  split
  · exact hm
  · exact hn

variable [R.Guards T]

theorem bind {m : Analysis α} {f : α → Analysis β} (hm : Within R T m Q)
    (hf : ∀ a, Q a → Within R T (f a) P) : Within R T (m >>= f) P :=
  fun s hs => Proceeds.bind hs (hm s hs) fun a t _ ht ha => hf a ha t ht

theorem forM {f : α → Analysis Unit} {items : List α}
    (h : ∀ a ∈ items, Within R T (f a) fun _ => True) : Within R T (items.forM f) fun _ => True :=
  fun _ hs => Proceeds.forM hs fun a ha t _ ht => h a ha t ht

theorem mapM {f : α → Analysis β} {items : List α} (h : ∀ a ∈ items, Within R T (f a) P) :
    Within R T (items.mapM f) fun found => ∀ b ∈ found, P b := by
  induction items with
  | nil => exact pure fun _ hb => nomatch hb
  | cons a rest ih =>
    rw [List.mapM_cons]
    refine bind (h a List.mem_cons_self) fun first hfirst =>
      bind (ih fun b hb => h b (List.mem_cons_of_mem _ hb)) fun more hmore => pure ?_
    exact List.forall_mem_cons.2 ⟨hfirst, hmore⟩

theorem filterMapM {f : α → Analysis (Option β)} {items : List α}
    (h : ∀ a ∈ items, Within R T (f a) fun _ => True) :
    Within R T (items.filterMapM f) fun _ => True := by
  have loop : ∀ (items : List α) (found : List β), (∀ a ∈ items, Within R T (f a) fun _ => True) →
      Within R T (List.filterMapM.loop f items found) fun _ => True := by
    intro items
    induction items with
    | nil => exact fun _ _ => pure trivial
    | cons a rest ih =>
      intro found hall
      refine bind (hall a List.mem_cons_self) fun b _ => ?_
      cases b with
      | none => exact ih _ fun b hb => hall b (List.mem_cons_of_mem _ hb)
      | some b => exact ih _ fun b hb => hall b (List.mem_cons_of_mem _ hb)
  exact loop items [] h

theorem joinM {f : α → Analysis ValueSet} {items : List α}
    (h : ∀ a ∈ items, Within R T (f a) R.set) : Within R T (ValueSet.joinM items f) R.set :=
  fun _ hs => Proceeds.joinM hs fun a ha t _ ht => h a ha t ht

theorem all {ask : Ask} {q : Question} {site : Site} {values : ValueSet} (hv : R.set values)
    (h : ∀ v, R.value v → Within R T (ask v q site) R.set) :
    Within R T (ask.all values q site) R.set :=
  joinM fun v hm => h v (hv v hm)

/-- A cleanup that follows an action in any case. -/
theorem cleanup {m : Analysis α} {c : Analysis β} (hm : Within R T m Q)
    (hc : Within R T c fun _ => True) : Within R T (tryFinally m c) Q := by
  intro s hs
  obtain ⟨steps, yields⟩ := hm s hs
  refine ⟨?_, fun a t ha => ?_⟩
  · rw [after_tryFinally]
    exact steps.trans (hc _ (Realm.Guards.closed_all hs steps)).1
  · simp only [tryFinally, MonadFinally.tryFinally', Functor.map, EStateM.map] at ha
    cases h : m s with
    | ok b r =>
      rw [h] at ha
      cases hr : c r with
      | ok d q =>
        simp only [hr] at ha
        cases ha
        exact yields _ _ h
      | error e q =>
        simp only [hr] at ha
        cases ha
    | error e r =>
      rw [h] at ha
      cases hr : c r <;> simp only [hr] at ha <;> cases ha

end Within

end Typeflow.Session
