import Typeflow.Session.Lifecycle

/-! What an action leaves behind, whether it succeeds or fails. -/
namespace Typeflow.Session

variable {α β : Type}

/-- The session that an action leaves behind. -/
def after (m : Analysis α) (s : Session) : Session :=
  match m s with
  | .ok _ t => t
  | .error _ t => t

@[simp] theorem after_pure (a : α) (s : Session) : after (pure a) s = s := rfl

theorem read_run (f : Session → Analysis β) (s : Session) : (get >>= f) s = f s s := rfl

theorem modifyGet_run (f : Session → α × Session) (s : Session) :
    (modifyGet f : Analysis α) s = .ok (f s).1 (f s).2 := rfl

@[simp] theorem after_modify (f : Session → Session) (s : Session) : after (modify f) s = f s := rfl

theorem after_of_ok {m : Analysis α} {s t : Session} {a : α} (h : m s = .ok a t) : after m s = t := by
  simp [after, h]

theorem after_of_error {m : Analysis α} {s t : Session} {e : Fault} (h : m s = .error e t) :
    after m s = t := by
  simp [after, h]

theorem bind_of_ok {m : Analysis α} {f : α → Analysis β} {s t : Session} {a : α}
    (h : m s = .ok a t) : (m >>= f) s = f a t := by
  simp [bind, EStateM.bind, h]

theorem bind_of_error {m : Analysis α} {f : α → Analysis β} {s t : Session} {e : Fault}
    (h : m s = .error e t) : (m >>= f) s = .error e t := by
  simp [bind, EStateM.bind, h]

theorem after_bind_of_ok {m : Analysis α} {f : α → Analysis β} {s t : Session} {a : α}
    (h : m s = .ok a t) : after (m >>= f) s = after (f a) t := by
  rw [after, after, bind_of_ok h]

theorem after_bind_of_error {m : Analysis α} {f : α → Analysis β} {s t : Session} {e : Fault}
    (h : m s = .error e t) : after (m >>= f) s = t :=
  after_of_error (bind_of_error h)

/-- What comes before goes on in the same way when it does the same. -/
theorem bind_congr_run {m n : Analysis α} (f : α → Analysis β) {s : Session} (h : m s = n s) :
    (m >>= f) s = (n >>= f) s := by
  simp [bind, EStateM.bind, h]

/-- What an action yields may be ignored. -/
theorem after_ignore (m : Analysis α) (s : Session) :
    after (m >>= fun _ => (pure () : Analysis Unit)) s = after m s := by
  cases h : m s with
  | ok a t => rw [after_bind_of_ok h, after_of_ok h, after_pure]
  | error e t => rw [after_bind_of_error h, after_of_error h]

/-- A relation that may be repeated holds from before a sequence to after it if it does so for both parts. -/
theorem related_bind {R : Session → Session → Prop} (trans : ∀ {s t r}, R s t → R t r → R s r)
    {m : Analysis α} {f : α → Analysis β} (hm : ∀ s, R s (after m s)) (hf : ∀ a s, R s (after (f a) s))
    (s : Session) : R s (after (m >>= f) s) := by
  have first := hm s
  cases h : m s with
  | ok a t =>
    rw [after_of_ok h] at first
    rw [after_bind_of_ok h]
    exact trans first (hf a t)
  | error e t =>
    rw [after_of_error h] at first
    rwa [after_bind_of_error h]

/-- The same for a lookup, with what it computes and with each change of its memo table. -/
theorem related_recall {R : Session → Session → Prop} (refl : ∀ s, R s s)
    (trans : ∀ {s t r}, R s t → R t r → R s r) {κ γ : Type} [BEq κ] {field : CacheField Session κ γ} {key : κ}
    {make : Analysis (Option γ)} (beside : ∀ cache s, R s (field.write cache s)) (h : ∀ s, R s (after make s))
    (s : Session) : R s (after (field.recall key make) s) := by
  cases hk : (field.read s).find? key with
  | some kept =>
    rw [after_of_ok (CacheField.recall_of_find? hk make)]
    exact refl s
  | none =>
    have made := trans (beside ((field.read s).reserve key) s) (h _)
    cases hm : make (field.write ((field.read s).reserve key) s) with
    | ok value t =>
      rw [after_of_ok hm] at made
      rw [after_of_ok (CacheField.recall_of_make hk hm)]
      exact trans made (beside _ t)
    | error e t =>
      have fails : field.recall key make s = .error e (field.write ((field.read t).erase key) t) := by
        simp only [CacheField.recall, hk, hm]
      rw [after_of_error hm] at made
      rw [after_of_error fails]
      exact trans made (beside _ t)

/-- An action that succeeds goes through the session in between. -/
theorem bind_eq_ok {m : Analysis α} {f : α → Analysis β} {s t : Session} {b : β}
    (h : (m >>= f) s = .ok b t) : ∃ a r, m s = .ok a r ∧ f a r = .ok b t := by
  cases hm : m s with
  | ok a r => exact ⟨a, r, rfl, by rwa [bind_of_ok hm] at h⟩
  | error e r => rw [bind_of_error hm] at h; cases h

/-- A cleanup goes on from where the action ended or failed. -/
theorem after_tryFinally (m : Analysis α) (c : Analysis β) (s : Session) :
    after (tryFinally m c) s = after c (after m s) := by
  simp only [after, tryFinally, MonadFinally.tryFinally', Functor.map, EStateM.map]
  cases hm : m s with
  | ok a t => cases hc : c t <;> simp [hc]
  | error e t => cases hc : c t <;> simp [hc]

/-- A sequence has the property if its parts have it. -/
structure Composes (P : ∀ {α : Type}, Analysis α → Prop) : Prop where
  pure : ∀ {α : Type} (a : α), P (Pure.pure a : Analysis α)
  bind : ∀ {α β : Type} {m : Analysis α} {f : α → Analysis β}, P m → (∀ a, P (f a)) → P (m >>= f)

/-! So has a loop, if every round of it has it. -/
namespace Composes

variable {P : ∀ {α : Type}, Analysis α → Prop}

theorem forM (c : Composes P) {f : α → Analysis Unit} (h : ∀ a, P (f a)) (items : List α) : P (items.forM f) := by
  induction items with
  | nil => exact c.pure _
  | cons a rest ih => exact c.bind (h a) fun _ => ih

theorem foldlM (c : Composes P) {f : β → α → Analysis β} (h : ∀ b a, P (f b a)) (items : List α) (b : β) :
    P (items.foldlM f b) := by
  induction items generalizing b with
  | nil => exact c.pure _
  | cons a rest ih => exact c.bind (h b a) ih

theorem mapM (c : Composes P) {f : α → Analysis β} (h : ∀ a, P (f a)) (items : List α) : P (items.mapM f) := by
  induction items with
  | nil => exact c.pure _
  | cons a rest ih =>
    rw [List.mapM_cons]
    exact c.bind (h a) fun _ => c.bind ih fun _ => c.pure _

theorem filterMapM (c : Composes P) {f : α → Analysis (Option β)} (h : ∀ a, P (f a)) (items : List α) :
    P (items.filterMapM f) := by
  have loop : ∀ (items : List α) (found : List β), P (List.filterMapM.loop f items found) := by
    intro items
    induction items with
    | nil => exact fun _ => c.pure _
    | cons a rest ih =>
      intro found
      refine c.bind (h a) fun b => ?_
      cases b with
      | none => exact ih found
      | some b => exact ih (b :: found)
  exact loop items []

theorem joinM (c : Composes P) {f : α → Analysis ValueSet} (h : ∀ a, P (f a)) (items : List α) :
    P (ValueSet.joinM items f) :=
  c.foldlM (fun _ a => c.bind (h a) fun _ => c.pure _) items _

end Composes

/-- The action always succeeds. -/
def Total (m : Analysis α) : Prop := ∀ s, ∃ a, m s = .ok a (after m s)

namespace Total

theorem pure (a : α) : Total (Pure.pure a) := fun _ => ⟨a, rfl⟩

theorem modify (f : Session → Session) : Total (modify f) := fun _ => ⟨(), rfl⟩

theorem modifyGet (f : Session → α × Session) : Total (modifyGet f) := fun s => ⟨(f s).1, rfl⟩

theorem bind {m : Analysis α} {f : α → Analysis β} (hm : Total m) (hf : ∀ a, Total (f a)) :
    Total (m >>= f) := by
  intro s
  obtain ⟨a, ha⟩ := hm s
  obtain ⟨b, hb⟩ := hf a (after m s)
  rw [bind_of_ok ha, after_bind_of_ok ha]
  exact ⟨b, hb⟩

theorem read {f : Session → Analysis β} (hf : ∀ s, Total (f s)) : Total (get >>= f) := fun s => hf s s

theorem ite {c : Prop} [Decidable c] {m n : Analysis α} (hm : Total m) (hn : Total n) :
    Total (if c then m else n) := by
  split
  · exact hm
  · exact hn

theorem composes : Composes @Total := ⟨pure, bind⟩

theorem forM {f : α → Analysis Unit} (h : ∀ a, Total (f a)) (items : List α) : Total (items.forM f) :=
  composes.forM h items

theorem joinM {f : α → Analysis ValueSet} (h : ∀ a, Total (f a)) (items : List α) : Total (ValueSet.joinM items f) :=
  composes.joinM h items

end Total

@[simp] theorem after_read (f : Session → Analysis β) (s : Session) :
    after (get >>= f) s = after (f s) s := rfl

theorem after_seq {m : Analysis Unit} {f : Unit → Analysis β} (h : Total m) (s : Session) :
    after (m >>= f) s = after (f ()) (after m s) := by
  obtain ⟨⟨⟩, ha⟩ := h s
  exact after_bind_of_ok ha

/-- A loop goes on from where its first round ended. -/
theorem after_forM_cons {f : α → Analysis Unit} (total : ∀ a, Total (f a)) (a : α) (rest : List α) (s : Session) :
    after ((a :: rest).forM f) s = after (rest.forM f) (after (f a) s) := after_seq (total a) s

/-- A property that every round keeps holds after a loop. -/
theorem after_forM {P : Session → Prop} {f : α → Analysis Unit} (total : ∀ a, Total (f a))
    (round : ∀ a s, P s → P (after (f a) s)) (items : List α) {s : Session} (hs : P s) : P (after (items.forM f) s) := by
  induction items generalizing s with
  | nil => exact hs
  | cons a rest ih =>
    rw [after_forM_cons total]
    exact ih (round a s hs)

end Typeflow.Session
