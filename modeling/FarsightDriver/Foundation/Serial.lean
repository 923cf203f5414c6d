import FarsightDriver.Foundation.System

/-!
# Calls on a shared object behind a door

A call on a shared object is a program of many steps, and nothing in the object
keeps the steps of two calls apart.  A door does when at most one process is
inside at a time and calls are made inside only: the calls are then served one
after the other, and each returns what it returns on the object that the calls
before it have left.
-/

namespace FarsightDriver.Foundation.Serial

/-- A step of a call looks at the object and changes it, and goes on or returns a result. -/
structure Program (Q C L R E : Type*) where
  start : C → L
  step : Q → L → Except E (Q × (L ⊕ R))

namespace Program

variable {Q C L R E : Type*} (M : Program Q C L R E)

inductive Steps : Q → L → Q → L → Prop
  | refl (q : Q) (l : L) : Steps q l q l
  | tail {q q' q'' : Q} {l l' l'' : L} (h : Steps q l q' l')
      (hstep : M.step q' l' = .ok (q'', .inl l'')) : Steps q l q'' l''

variable {M} in
theorem Steps.head {q q' q'' : Q} {l l' l'' : L} (hstep : M.step q l = .ok (q', .inl l'))
    (h : M.Steps q' l' q'' l'') : M.Steps q l q'' l'' := by
  induction h with
  | refl => exact (Steps.refl q l).tail hstep
  | tail _ hlast ih => exact (ih hstep).tail hlast

/-- The object and the result that the steps from `l` on lead to, said without the steps. -/
structure Meaning (denote : Q → L → Except E (Q × R)) : Prop where
  unfold : ∀ q l, denote q l = (M.step q l).bind fun (q, next) =>
    match next with
    | .inl l => denote q l
    | .inr result => .ok (q, result)

variable {M} {denote : Q → L → Except E (Q × R)}

theorem Meaning.go (h : M.Meaning denote) {q q' : Q} {l l' : L}
    (hstep : M.step q l = .ok (q', .inl l')) : denote q l = denote q' l' := by
  rw [h.unfold q l, hstep]
  rfl

theorem Meaning.finish (h : M.Meaning denote) {q q' : Q} {l : L} {result : R}
    (hstep : M.step q l = .ok (q', .inr result)) : denote q l = .ok (q', result) := by
  rw [h.unfold q l, hstep]
  rfl

theorem Meaning.steps (h : M.Meaning denote) {q q' : Q} {l l' : L}
    (hsteps : M.Steps q l q' l') : denote q l = denote q' l' := by
  induction hsteps with
  | refl => rfl
  | tail _ hstep ih => exact ih.trans (h.go hstep)

theorem Meaning.enabled (h : M.Meaning denote) {q q' : Q} {l : L} {result : R}
    (hok : denote q l = .ok (q', result)) : ∃ next, M.step q l = .ok next := by
  cases hstep : M.step q l with
  | ok next => exact ⟨next, rfl⟩
  | error fault =>
      rw [h.unfold q l, hstep] at hok
      cases hok

end Program

/-- Only the process that acts passes the door, and `exclusive` lets one in at a time. -/
structure Door (σ α P : Type*) where
  system : System σ α
  guard : σ → α → Prop
  actor : α → P
  inside : σ → P → Bool
  exclusive : ∀ {s}, system.ReachableWith guard s →
    ∀ p q, inside s p = true → inside s q = true → p = q
  others : ∀ {s a next}, system.step s a = some next →
    ∀ p, p ≠ actor a → inside next p = inside s p

/-- The log has the calls that returned, in this order. -/
structure State (σ Q P C L R : Type*) where
  door : σ
  object : Q
  call : P → Option (C × L)
  log : List (P × C × R)

inductive Label (α P C : Type*) where
  | door (a : α)
  | call (p : P) (c : C)
  | tick (p : P)

/-- The door without its guard, when it does not need the guard to let one in at a time. -/
def Door.unguarded {σ α P : Type*} (D : Door σ α P)
    (hone : ∀ {s}, D.system.Reachable s →
      ∀ p q, D.inside s p = true → D.inside s q = true → p = q) : Door σ α P :=
  { D with guard := fun _ _ => True, exclusive := hone }

section Composition

variable {σ α Q P C L R E : Type*} [DecidableEq P]

/-- A process that is in a call does not go to the door. -/
def step (D : Door σ α P) (M : Program Q C L R E) (s : State σ Q P C L R) :
    Label α P C → Option (State σ Q P C L R)
  | .door a =>
      match s.call (D.actor a) with
      | some _ => none
      | none => (D.system.step s.door a).map fun door => { s with door := door }
  | .call p c =>
      match s.call p with
      | some _ => none
      | none =>
          if D.inside s.door p then
            some { s with call := Function.update s.call p (some (c, M.start c)) }
          else none
  | .tick p =>
      match s.call p with
      | none => none
      | some (c, l) =>
          match M.step s.object l with
          | .error _ => none
          | .ok (q, .inl l) =>
              some { s with object := q, call := Function.update s.call p (some (c, l)) }
          | .ok (q, .inr result) =>
              some { s with
                object := q
                call := Function.update s.call p none
                log := s.log ++ [(p, c, result)] }

def system (D : Door σ α P) (M : Program Q C L R E) (created : Q) :
    System (State σ Q P C L R) (Label α P C) where
  init s := D.system.init s.door ∧ s.object = created ∧ (∀ p, s.call p = none) ∧ s.log = []
  step := step D M

def guard (D : Door σ α P) (s : State σ Q P C L R) : Label α P C → Prop
  | .door a => D.guard s.door a
  | _ => True

/-- The calls of the log one after the other, each served whole. -/
inductive Replays (serve : Q → C → Except E (Q × R)) (created : Q) :
    List (P × C × R) → Q → Prop
  | nil : Replays serve created [] created
  | concat {log : List (P × C × R)} {q q' : Q} {p : P} {c : C} {result : R}
      (h : Replays serve created log q) (hcall : serve q c = .ok (q', result)) :
      Replays serve created (log ++ [(p, c, result)]) q'

variable {D : Door σ α P} {M : Program Q C L R E} {denote : Q → L → Except E (Q × R)}

/--
The object is where the one call in progress has brought the object `settled`,
which the calls of the log have left.
-/
structure Served (D : Door σ α P) (M : Program Q C L R E) (denote : Q → L → Except E (Q × R))
    (created : Q) (s : State σ Q P C L R) (settled : Q) : Prop where
  log : Replays (fun q c => denote q (M.start c)) created s.log settled
  busy : ∀ p c l, s.call p = some (c, l) →
    D.inside s.door p = true ∧ M.Steps settled (M.start c) s.object l
  quiet : (∀ p, s.call p = none) → s.object = settled

variable {created : Q} {s next : State σ Q P C L R}

theorem run_door {as : List α} {door : σ} (hquiet : ∀ a ∈ as, s.call (D.actor a) = none)
    (hrun : D.system.run s.door as = some door) :
    (system D M created).run s (as.map .door) = some { s with door := door } := by
  induction as generalizing s with
  | nil =>
      simp only [System.run_nil, Option.some.injEq] at hrun
      subst hrun
      rfl
  | cons a as ih =>
      obtain ⟨middle, hstep, hrest⟩ := Option.bind_eq_some_iff.mp hrun
      have hfirst : step D M s (.door a) = some { s with door := middle } := by
        simp only [step, hquiet a List.mem_cons_self, hstep, Option.map_some]
      refine Option.bind_eq_some_iff.mpr ⟨_, hfirst, ?_⟩
      exact ih (s := { s with door := middle })
        (fun b hb => hquiet b (List.mem_cons_of_mem a hb)) hrest

/-- Nobody needs to have called for the door to be where it can be. -/
theorem reachable_of_door {door : σ} (h : D.system.Reachable door) :
    (system D M created).Reachable ⟨door, created, fun _ => none, []⟩ := by
  induction h with
  | init hinit => exact .init ⟨hinit, rfl, fun _ => rfl, rfl⟩
  | @step s next a _ _ hstep ih =>
      have hpass : (system D M created).step ⟨s, created, fun _ => none, []⟩ (.door a) =
          some ⟨next, created, fun _ => none, []⟩ := by
        simp only [system, step, hstep, Option.map_some]
      exact ih.step trivial hpass

/-- Whoever is inside can be anywhere on the way that its call takes alone. -/
theorem reachable_call (h : (system D M created).Reachable s) {p : P} {c : C} {l : L} {q : Q}
    (hquiet : s.call p = none) (hinside : D.inside s.door p = true)
    (hsteps : M.Steps s.object (M.start c) q l) :
    (system D M created).Reachable
      { s with object := q, call := Function.update s.call p (some (c, l)) } := by
  generalize hstart : M.start c = first at hsteps
  induction hsteps with
  | refl =>
      have hbegun : (system D M created).step s (.call p c) =
          some { s with call := Function.update s.call p (some (c, M.start c)) } := by
        simp only [system, step, hquiet, hinside, if_true]
      exact h.step trivial (hstart ▸ hbegun)
  | @tail q q' _ l l' _ hstep ih =>
      have htick : (system D M created).step
          { s with object := q, call := Function.update s.call p (some (c, l)) } (.tick p) =
          some { s with object := q', call := Function.update s.call p (some (c, l')) } := by
        simp only [system, step, Function.update_self, hstep, Function.update_idem]
      exact (ih hstart).step trivial htick

theorem reachable_return (h : (system D M created).Reachable s) {p : P} {c : C} {l : L} {q : Q}
    {result : R} (hcall : s.call p = some (c, l))
    (hstep : M.step s.object l = .ok (q, .inr result)) :
    (system D M created).Reachable { s with
      object := q
      call := Function.update s.call p none
      log := s.log ++ [(p, c, result)] } := by
  have htick : (system D M created).step s (.tick p) = some { s with
      object := q
      call := Function.update s.call p none
      log := s.log ++ [(p, c, result)] } := by
    simp only [system, step, hcall, hstep]
  exact h.step trivial htick

/-- A call whose remaining steps amount to a result returns it after finitely many of them. -/
theorem run_ticks (hmeaning : M.Meaning denote) (measure : L → Nat)
    (hdecreases : ∀ {q q' l l'}, M.step q l = .ok (q', .inl l') → measure l' < measure l)
    {p : P} {c : C} {l : L} {q : Q} {result : R} (hcall : s.call p = some (c, l))
    (hrest : denote s.object l = .ok (q, result)) :
    ∃ n, (system D M created).run s (List.replicate n (.tick p)) = some { s with
      object := q
      call := Function.update s.call p none
      log := s.log ++ [(p, c, result)] } := by
  induction hsize : measure l using Nat.strongRecOn generalizing s l with
  | _ size ih =>
      obtain ⟨⟨q', l' | reply⟩, hstep⟩ := hmeaning.enabled hrest
      · have hfirst : step D M s (.tick p) = some { s with
            object := q', call := Function.update s.call p (some (c, l')) } := by
          simp only [step, hcall, hstep]
        obtain ⟨n, hrun⟩ := ih (measure l') (hsize ▸ hdecreases hstep)
          (s := { s with object := q', call := Function.update s.call p (some (c, l')) })
          (l := l') (Function.update_self ..) ((hmeaning.go hstep).symm.trans hrest) rfl
        refine ⟨n + 1, Option.bind_eq_some_iff.mpr ⟨_, hfirst, ?_⟩⟩
        simpa only [Function.update_idem] using hrun
      · rw [hmeaning.finish hstep] at hrest
        cases hrest
        refine ⟨1, Option.bind_eq_some_iff.mpr ⟨_, ?_, rfl⟩⟩
        simp only [system, step, hcall, hstep]

theorem door_reachable (h : (system D M created).ReachableWith (guard D) s) :
    D.system.ReachableWith D.guard s.door := by
  induction h with
  | init hinit => exact .init hinit.1
  | @step s next label _ hguard hstep ih =>
      cases label with
      | door a =>
          simp only [system, step] at hstep
          cases hcall : s.call (D.actor a) with
          | some _ => simp only [hcall, reduceCtorEq] at hstep
          | none =>
              simp only [hcall] at hstep
              obtain ⟨door, hdoor, rfl⟩ := Option.map_eq_some_iff.mp hstep
              exact ih.step hguard hdoor
      | call p c =>
          simp only [system, step] at hstep
          split at hstep
          · cases hstep
          · split at hstep <;> cases hstep
            exact ih
      | tick p =>
          simp only [system, step] at hstep
          split at hstep
          · cases hstep
          · split at hstep <;> cases hstep <;> exact ih

omit [DecidableEq P] in
theorem Served.alone {settled : Q} (h : Served D M denote created s settled)
    (hdoor : D.system.ReachableWith D.guard s.door) {p q : P} (hp : s.call p ≠ none)
    (hq : s.call q ≠ none) : p = q := by
  obtain ⟨⟨c, l⟩, hp⟩ := Option.ne_none_iff_exists'.mp hp
  obtain ⟨⟨c', l'⟩, hq⟩ := Option.ne_none_iff_exists'.mp hq
  exact D.exclusive hdoor p q (h.busy p c l hp).1 (h.busy q c' l' hq).1

omit [DecidableEq P] in
theorem Served.others_quiet {settled : Q} (h : Served D M denote created s settled)
    (hdoor : D.system.ReachableWith D.guard s.door) {p q : P}
    (hp : D.inside s.door p = true) (hne : q ≠ p) : s.call q = none := by
  cases hq : s.call q with
  | none => rfl
  | some entry =>
      obtain ⟨c, l⟩ := entry
      exact absurd (D.exclusive hdoor q p (h.busy q c l hq).1 hp) hne

theorem update_eq_some {β : Type*} {f : P → Option β} {p r : P} {value : Option β} {entry : β}
    (hothers : ∀ q, q ≠ p → f q = none) (hr : Function.update f p value r = some entry) :
    r = p ∧ value = some entry := by
  by_cases hrp : r = p
  · subst hrp
    exact ⟨rfl, by simpa using hr⟩
  · rw [Function.update_of_ne hrp, hothers r hrp] at hr
    cases hr

theorem served_door {settled : Q} {a : α} (h : Served D M denote created s settled)
    (hstep : step D M s (.door a) = some next) : Served D M denote created next settled := by
  simp only [step] at hstep
  cases hcall : s.call (D.actor a) with
  | some _ => simp only [hcall, reduceCtorEq] at hstep
  | none =>
      simp only [hcall] at hstep
      obtain ⟨door, hdoor, rfl⟩ := Option.map_eq_some_iff.mp hstep
      refine ⟨h.log, fun p c l hp => ?_, h.quiet⟩
      have hne : p ≠ D.actor a := by
        rintro rfl
        rw [hcall] at hp
        cases hp
      exact ⟨(D.others hdoor p hne).trans (h.busy p c l hp).1, (h.busy p c l hp).2⟩

theorem served_call {settled : Q} {p : P} {c : C} (h : Served D M denote created s settled)
    (hdoor : D.system.ReachableWith D.guard s.door)
    (hstep : step D M s (.call p c) = some next) : Served D M denote created next settled := by
  simp only [step] at hstep
  cases hcall : s.call p with
  | some _ => simp only [hcall, reduceCtorEq] at hstep
  | none =>
      simp only [hcall, Option.ite_none_right_eq_some, Option.some.injEq] at hstep
      obtain ⟨hinside, rfl⟩ := hstep
      have hquiet : ∀ q, s.call q = none := by
        intro q
        by_cases hq : q = p
        · exact hq ▸ hcall
        · exact h.others_quiet hdoor hinside hq
      refine ⟨h.log, fun q c' l' hq => ?_, fun hnone => ?_⟩
      · obtain ⟨rfl, hentry⟩ := update_eq_some (fun q _ => hquiet q) hq
        cases hentry
        refine ⟨hinside, ?_⟩
        rw [h.quiet hquiet]
        exact .refl _ _
      · have hself := hnone p
        simp at hself

theorem served_tick (hmeaning : M.Meaning denote) {settled : Q} {p : P}
    (h : Served D M denote created s settled)
    (hdoor : D.system.ReachableWith D.guard s.door)
    (hstep : step D M s (.tick p) = some next) :
    ∃ settled, Served D M denote created next settled := by
  simp only [step] at hstep
  cases hcall : s.call p with
  | none => simp only [hcall, reduceCtorEq] at hstep
  | some entry =>
      obtain ⟨c, l⟩ := entry
      obtain ⟨hinside, hsteps⟩ := h.busy p c l hcall
      have hothers : ∀ q, q ≠ p → s.call q = none := fun q => h.others_quiet hdoor hinside
      cases hnext : M.step s.object l with
      | error fault => simp only [hcall, hnext, reduceCtorEq] at hstep
      | ok result =>
          obtain ⟨q, l' | result⟩ := result
          · simp only [hcall, hnext, Option.some.injEq] at hstep
            subst hstep
            refine ⟨settled, h.log, fun r c' l'' hr => ?_, fun hnone => ?_⟩
            · obtain ⟨rfl, hentry⟩ := update_eq_some hothers hr
              cases hentry
              exact ⟨hinside, hsteps.tail hnext⟩
            · have hself := hnone p
              simp at hself
          · simp only [hcall, hnext, Option.some.injEq] at hstep
            subst hstep
            -- the call returns, and the object it leaves is the one to go on from
            have hdone : denote settled (M.start c) = .ok (q, result) :=
              (hmeaning.steps hsteps).trans (hmeaning.finish hnext)
            refine ⟨q, h.log.concat hdone, fun r c' l' hr => ?_, fun _ => rfl⟩
            obtain ⟨-, hentry⟩ := update_eq_some hothers hr
            cases hentry

theorem served_of_reachable (hmeaning : M.Meaning denote)
    (h : (system D M created).ReachableWith (guard D) s) :
    ∃ settled, Served D M denote created s settled := by
  induction h with
  | init hinit =>
      obtain ⟨-, hobject, hnone, hlog⟩ := hinit
      refine ⟨created, ?_, fun p c l hp => ?_, fun _ => hobject⟩
      · rw [hlog]
        exact .nil
      · rw [hnone p] at hp
        cases hp
  | @step s next label reached hguard hstep ih =>
      obtain ⟨settled, hserved⟩ := ih
      have hdoor := door_reachable reached
      cases label with
      | door a => exact ⟨settled, served_door hserved hstep⟩
      | call p c => exact ⟨settled, served_call hserved hdoor hstep⟩
      | tick p => exact served_tick hmeaning hserved hdoor hstep

end Composition

end FarsightDriver.Foundation.Serial
