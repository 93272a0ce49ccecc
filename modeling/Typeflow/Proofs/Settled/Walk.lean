import Typeflow.Proofs.Settled

/-! A body that is run to its end has settled all that it defines. -/
namespace Typeflow.Session

namespace Settling

variable {L : Licence} {u : UnitId}

/-- A definition is found or made. What was made has its unit or was held back in what follows. -/
theorem definition {body : Body} {kind : ValueKind} {functions : List (String × Body)}
    {make : Analysis ValueId} {f : Option Definition → Analysis Unit} (hkind : body.kind = kind)
    (makes : Makes kind u body make) (licensed : L.define u body) (apart : ¬ L.keep body.node.id)
    (step : ∀ s, Step L s (after (definitionAt u body.node kind make) s))
    (rest : ∀ found, Stepwise L.keeping (f found))
    (new : ∀ e v s t, Ready L s → s.Stands e body v → f (some ⟨v, true⟩) s = .ok () t →
      Provided t v ∨ HeldBack L u functions s t v) :
    Settling L u [body] functions (definitionAt u body.node kind make >>= f) := by
  intro s a t ready hu ends
  obtain ⟨found, r, defined, more⟩ := bind_eq_ok ends
  have first := step s
  rw [after_of_ok defined] at first
  have second := rest found r
  rw [after_of_ok more] at second
  have next := ready.step first
  have steps : Steps L s t := .head first second.of_keeping
  have unmade : ∀ v, (r.form v).code? = none → (t.form v).code? = none := fun v free =>
    second.no_code next.sane (fun _ _ no => no) free
  have filled : r.slot (s.unit u).scope body.node.id ≠ none →
      ∀ b ∈ [body], t.slot (s.unit u).scope b.node.id ≠ none := by
    intro kept b hb
    rw [List.mem_singleton.1 hb]
    exact next.slot_kept second.of_keeping apart kept
  rcases definitionAt_run makes s with ⟨values, kept, run⟩ | ⟨-, q, run, defines⟩
  · rw [run] at defined
    cases defined
    refine ⟨steps, filled ?_, fun v free made => absurd (unmade v free) made⟩
    rw [slot, kept]
    exact Option.some_ne_none values
  · rw [run] at defined
    cases defined
    have look := defines.nodes (ready.sane.coherent.unitScope u hu)
    refine ⟨steps, filled ?_, fun v free made => ?_⟩
    · rw [slot, look, if_pos ⟨rfl, rfl⟩]
      exact Option.some_ne_none _
    · by_cases hv : v.index = s.values.size
      · obtain rfl : v = ⟨s.values.size⟩ := ValueId.index_inj.1 hv
        obtain ⟨-, e, he, -⟩ := ready.sound u body licensed
        have stands : r.Stands e body ⟨s.values.size⟩ :=
          ⟨⟨_, defines.code, he, rfl⟩, defines.kind.trans hkind.symm⟩
        rcases new e _ r t next stands more with has | ⟨name, b, e, q, mem, before, later, held⟩
        · exact .inl has
        · exact .inr ⟨name, b, e, q, mem, .head first before, later, held⟩
      · refine absurd (unmade v ?_) made
        rw [defines.form v hv]
        exact free

private theorem holdsBack_of_functionBinding {v : ValueId} {name : String} {s t : Session} {bound : ValueSet}
    (h : functionBinding u v name s = .ok (bound, false) t) : s.holdsBack u name = true := by
  obtain ⟨_, _, got, h⟩ := bind_eq_ok h
  cases got
  cases he : (s.unit u).entry with
  | none =>
    simp only [he] at h
    cases h
  | some e =>
    simp only [he] at h
    cases hs : s.specialization? (s.entry e).module (s.qualifiedName u name) with
    | none =>
      simp only [hs] at h
      cases h
    | some specialization =>
      simp only [hs] at h
      obtain ⟨wrapper, r, -, h⟩ := bind_eq_ok h
      cases analyze : specialization.analyze with
      | true =>
        rw [analyze] at h
        cases h
      | false => simp [holdsBack, he, hs, analyze]

theorem walkFunction {body : Body} {name : String} {params : List Param} {decorators : List Expr}
    (h : ∀ n ∈ Param.placesAll params ++ Expr.placesAll decorators, L.keep n)
    (hd : L.define u body) (apart : ¬ L.keep body.node.id) (kind : body.kind = .function) :
    Settling L u [body] [(name, body)] (Session.walkFunction u body name params decorators) := by
  rw [List.forall_mem_append] at h
  have defaults : ∀ v, Stepwise L.keeping (params.forM (addDefault u v)) := fun v =>
    .defaults v params h.1
  have decorate : Stepwise L.keeping (evaluateAll u decorators) := .evaluateAll decorators h.2
  refine definition kind (makes_newFunction u body name _) hd apart
    (fun _ => .defineFunction _ _ _ _ hd kind) (fun found => ?_) fun e v s t ready stands ends => ?_
  · cases found with
    | none => exact .pure _
    | some made =>
      exact .bind (defaults made.value) fun _ => .bind decorate fun _ =>
        .bind (.functionBinding _ _) fun _ => .bind (.bindName _ _ _) fun _ =>
          .ite (.enqueueBody _ _) (.pure _)
  · obtain ⟨_, r, defaulted, ends⟩ := bind_eq_ok ends
    obtain ⟨_, q, decorated, ends⟩ := bind_eq_ok ends
    have first := defaults v s
    rw [after_of_ok defaulted] at first
    have second := decorate r
    rw [after_of_ok decorated] at second
    have before : Steps L s q := Steps.of_keeping (first.trans second)
    have later : Steps L.keeping q t := by
      rw [← after_of_ok ends]
      refine Stepwise.bind (.functionBinding _ _) (fun _ => ?_) q
      exact .bind (.bindName _ _ _) fun _ => .ite (.enqueueBody _ _) (.pure _)
    obtain ⟨⟨bound, runBody⟩, p, binds, ends⟩ := bind_eq_ok ends
    obtain ⟨_, o, -, ends⟩ := bind_eq_ok ends
    cases runBody with
    | true =>
      rw [← after_of_ok ends]
      exact .inl (provided_enqueueBody v .front o)
    | false =>
      exact .inr ⟨name, body, e, q, List.mem_singleton_self _, before, later.of_keeping,
        (ready.carries before).stands _ _ _ stands, holdsBack_of_functionBinding binds⟩

theorem walkClass {body : Body} {name : String} {es : List Expr}
    (h : ∀ n ∈ Expr.placesAll es, L.keep n) (hd : L.define u body) (apart : ¬ L.keep body.node.id)
    (kind : body.kind = .userClass) : Settling L u [body] [] (Session.walkClass u body name es) := by
  refine definition kind (makes_newClass u body name) hd apart
    (fun _ => .defineClass _ _ _ hd kind) (fun found => ?_) fun e v s t _ _ ends => ?_
  · cases found with
    | none => exact .pure _
    | some made =>
      exact .bind (.bases made.value es h) fun _ => .bind (.bindName _ _ _) fun _ =>
        .ite (.enqueueBody _ _) (.pure _)
  · obtain ⟨_, r, -, ends⟩ := bind_eq_ok ends
    obtain ⟨_, q, -, ends⟩ := bind_eq_ok ends
    rw [← after_of_ok ends]
    exact .inl (provided_enqueueBody v .front q)

mutual

theorem walk (s : Stmt) (hp : ∀ n ∈ s.places, L.keep n) (hd : ∀ b ∈ s.definitions, L.define u b)
    (apart : ∀ b ∈ s.definitions, ¬ L.keep b.node.id) :
    Settling L u s.definitions s.functions (Session.walk u s) := by
  cases s <;> simp only [Stmt.places, Stmt.definitions, List.forall_mem_cons,
    List.forall_mem_append] at hp hd apart
  case functionDef mark name params body decorators =>
    exact walkFunction (List.forall_mem_append.2 hp) hd.1 apart.1 rfl
  case classDef mark name es body => exact walkClass hp hd.1 apart.1 rfl
  case branch mark cond thenBody elseBody =>
    exact afterwards (.evaluate cond hp.1) fun _ =>
      bind apart.1 (walkAll thenBody hp.2.1 hd.1 apart.1) fun _ =>
        walkAll elseBody hp.2.2 hd.2 apart.2
  case loop mark cond thenBody elseBody =>
    exact afterwards (.evaluate cond hp.1) fun _ =>
      bind apart.1 (walkAll thenBody hp.2.1 hd.1 apart.1) fun _ =>
        walkAll elseBody hp.2.2 hd.2 apart.2
  case each mark target iterable thenBody elseBody =>
    exact afterwards (.evaluate iterable hp.2.2.1) fun _ =>
      afterwards (.all (fun v => .answer hp.1 v _) _) fun _ =>
        afterwards (.assignTo _ _ target hp.2.1) fun _ =>
          bind apart.1 (walkAll thenBody hp.2.2.2.1 hd.1 apart.1) fun _ =>
            walkAll elseBody hp.2.2.2.2 hd.2 apart.2
  case missing => exact of_stepwise (.pure _)
  case pass mark => exact of_stepwise (.pure _)
  case ret mark value => exact of_stepwise (.walkReturn value hp)
  case assign mark targets value =>
    exact of_stepwise (.bind (.evaluate value hp.2) fun _ => .assignEach _ _ targets hp.1)
  case expr mark value => exact of_stepwise (.bind (.evaluate value hp) fun _ => .pure _)
  case importNames mark names => exact of_stepwise (.forM (.importAlias _) names)
  case importFrom mark module level names => exact of_stepwise (.walkImportFrom _ hp.1 _ _ _)

theorem walkAll (stmts : List Stmt) (hp : ∀ n ∈ Stmt.placesAll stmts, L.keep n)
    (hd : ∀ b ∈ Stmt.definitionsAll stmts, L.define u b)
    (apart : ∀ b ∈ Stmt.definitionsAll stmts, ¬ L.keep b.node.id) :
    Settling L u (Stmt.definitionsAll stmts) (Stmt.functionsAll stmts) (Session.walkAll u stmts) := by
  cases stmts with
  | nil => exact of_stepwise (.pure _)
  | cons s rest =>
    rw [Stmt.placesAll, List.forall_mem_append] at hp
    rw [Stmt.definitionsAll, List.forall_mem_append] at hd apart
    exact bind apart.1 (walk s hp.1 hd.1 apart.1) fun _ => walkAll rest hp.2 hd.2 apart.2

end

end Settling

/-- A run of a unit that ends settles what the body of the unit defines. -/
theorem settles_runBody {s t : Session} {u : UnitId} (h : Sane s) (slots : Slots s)
    (alive : s.isAlive u = true) (ends : runBody u s = .ok () t) :
    Settles (licence u (s.unit u).body) u (s.unit u).body.definitions (s.unit u).body.functions s t := by
  have ready := Ready.licence h slots alive
  have apart : ∀ b ∈ (s.unit u).body.definitions, ¬ (licence u (s.unit u).body).keep b.node.id := by
    intro b hb hk
    obtain ⟨-, e, -, -, has⟩ := ready.sound u b ⟨rfl, hb⟩
    exact ready.apart.keep _ hk ⟨e, b, has, rfl⟩
  have walks := Settling.walkAll (L := licence u (s.unit u).body) (u := u) (s.unit u).body.statements
    (fun _ hn => hn) (fun _ hb => ⟨rfl, hb⟩) apart
  exact walks s () t ready (index_lt_of_isAlive alive) ends

end Typeflow.Session
