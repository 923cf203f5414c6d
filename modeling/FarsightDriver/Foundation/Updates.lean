import FarsightDriver.Foundation.Masked
import FarsightDriver.Foundation.System
import Mathlib.Data.List.Induction

/-!
# Masked updates without a lock

Processes change shared registers by masked updates, each a load and, in a later
step, a store of what was made of the loaded value.  What others stored in
between is overwritten.  That does no harm when every update of a register sets
or clears all the bits that another one changes: the registers are then what the
updates give one after the other, in the order of their stores.
-/

namespace FarsightDriver.Foundation.Updates

variable {A P : Type*} {w : Nat}

abbrev Update (A : Type*) (w : Nat) := A × Masked w

structure State (A P : Type*) (w : Nat) where
  mem : A → BitVec w
  todo : P → List (Update A w)
  loaded : P → Option (BitVec w)
  stores : List (Update A w)

def resting (mem : A → BitVec w) : State A P w := ⟨mem, fun _ => [], fun _ => none, []⟩

@[simp] theorem resting_todo (mem : A → BitVec w) (p : P) : (resting mem).todo p = [] := rfl

inductive Label (A P : Type*) (w : Nat) where
  | call (p : P) (program : List (Update A w))
  | load (p : P)
  | store (p : P)

section Fields

variable [DecidableEq P]

def State.call (s : State A P w) (p : P) (program : List (Update A w)) : State A P w :=
  { s with todo := Function.update s.todo p program }

def State.load (s : State A P w) (p : P) (addr : A) : State A P w :=
  { s with loaded := Function.update s.loaded p (some (s.mem addr)) }

variable (s : State A P w) (p : P) {q : P}

@[simp] theorem call_todo_self (program : List (Update A w)) :
    (s.call p program).todo p = program :=
  Function.update_self ..

@[simp] theorem call_todo_of_ne (h : q ≠ p) (program : List (Update A w)) :
    (s.call p program).todo q = s.todo q :=
  Function.update_of_ne h ..

@[simp] theorem load_loaded_self (addr : A) : (s.load p addr).loaded p = some (s.mem addr) :=
  Function.update_self ..

@[simp] theorem load_loaded_of_ne (h : q ≠ p) (addr : A) :
    (s.load p addr).loaded q = s.loaded q :=
  Function.update_of_ne h ..

variable [DecidableEq A]

def State.store (s : State A P w) (p : P) (update : Update A w) (rest : List (Update A w))
    (data : BitVec w) : State A P w where
  mem := Function.update s.mem update.1 (update.2.apply data)
  todo := Function.update s.todo p rest
  loaded := Function.update s.loaded p none
  stores := s.stores ++ [update]

variable (update : Update A w) (rest : List (Update A w)) (data : BitVec w)

@[simp] theorem store_todo_self : (s.store p update rest data).todo p = rest :=
  Function.update_self ..

@[simp] theorem store_todo_of_ne (h : q ≠ p) :
    (s.store p update rest data).todo q = s.todo q :=
  Function.update_of_ne h ..

@[simp] theorem store_loaded_self : (s.store p update rest data).loaded p = none :=
  Function.update_self ..

@[simp] theorem store_loaded_of_ne (h : q ≠ p) :
    (s.store p update rest data).loaded q = s.loaded q :=
  Function.update_of_ne h ..

@[simp] theorem store_stores : (s.store p update rest data).stores = s.stores ++ [update] := rfl

end Fields

variable [DecidableEq A] [DecidableEq P]

def step (s : State A P w) : Label A P w → Option (State A P w)
  | .call p program =>
      match s.todo p with
      | [] => some (s.call p program)
      | _ :: _ => none
  | .load p =>
      match s.todo p, s.loaded p with
      | (addr, _) :: _, none => some (s.load p addr)
      | _, _ => none
  | .store p =>
      match s.todo p, s.loaded p with
      | update :: rest, some data => some (s.store p update rest data)
      | _, _ => none

def system (mem : A → BitVec w) : System (State A P w) (Label A P w) where
  init s := s.mem = mem ∧ (∀ p, s.todo p = []) ∧ (∀ p, s.loaded p = none) ∧ s.stores = []
  step := step

theorem resting_init (mem : A → BitVec w) : (system mem).init (resting mem : State A P w) :=
  ⟨rfl, fun _ => rfl, fun _ => rfl, rfl⟩

/-- Only these programs are called. -/
def Calls (programs : List (Update A w) → Prop) (_ : State A P w) : Label A P w → Prop
  | .call _ program => programs program
  | .load _ | .store _ => True

def Allowed (programs : List (Update A w) → Prop) (update : Update A w) : Prop :=
  ∃ program, programs program ∧ update ∈ program

/-- One update after the other. -/
def serial (mem : A → BitVec w) (stores : List (Update A w)) : A → BitVec w :=
  stores.foldl (fun mem update => update.2.store update.1 mem) mem

@[simp] theorem serial_nil (mem : A → BitVec w) : serial mem [] = mem := rfl

theorem serial_append (mem : A → BitVec w) (stores : List (Update A w)) (update : Update A w) :
    serial mem (stores ++ [update]) = update.2.store update.1 (serial mem stores) := by
  rw [serial, List.foldl_append]
  rfl

/-! ## Updates that absorb one another -/

/-- Nothing of `v` is left after `u`. -/
def Absorbs (u v : Masked w) : Prop := ∀ data, u.apply (v.apply data) = u.apply data

theorem absorbs_of_covers {u v : Masked w}
    (h : ∀ i, v.clear.getLsbD i = true ∨ v.set.getLsbD i = true →
      u.clear.getLsbD i = true ∨ u.set.getLsbD i = true) : Absorbs u v := by
  intro data
  refine BitVec.eq_of_getLsbD_eq fun i _ => ?_
  have hi := h i
  simp only [Masked.getLsbD_apply]
  revert hi
  cases u.clear.getLsbD i <;> cases u.set.getLsbD i <;> cases v.clear.getLsbD i <;>
    cases v.set.getLsbD i <;> simp

/-- The updates of one register absorb one another. -/
def Absorbing (programs : List (Update A w) → Prop) : Prop :=
  ∀ update update', Allowed programs update → Allowed programs update' →
    update.1 = update'.1 → Absorbs update.2 update'.2

/-- The update in progress makes of the loaded value what it makes of the register. -/
def Current (s : State A P w) (p : P) : Prop :=
  ∀ update rest data, s.todo p = update :: rest → s.loaded p = some data →
    update.2.apply data = update.2.apply (s.mem update.1)

structure Inv (programs : List (Update A w) → Prop) (mem : A → BitVec w) (s : State A P w) :
    Prop where
  serial : s.mem = serial mem s.stores
  todo : ∀ p, ∀ update ∈ s.todo p, Allowed programs update
  stores : ∀ update ∈ s.stores, Allowed programs update
  idle : ∀ p, s.todo p = [] → s.loaded p = none
  current : ∀ p, Current s p

/-! ## The steps -/

variable {programs : List (Update A w) → Prop} {mem : A → BitVec w} {s s' : State A P w}

theorem Inv.call (h : Inv programs mem s) {p : P} (htodo : s.todo p = [])
    {program : List (Update A w)} (hprogram : programs program) :
    Inv programs mem (s.call p program) := by
  have hloaded := h.idle p htodo
  refine ⟨h.serial, fun q update hmem => ?_, h.stores, fun q hq => ?_,
    fun q update rest data hq hdata => ?_⟩
  all_goals by_cases hpq : q = p
  · subst hpq
    rw [call_todo_self] at hmem
    exact ⟨program, hprogram, hmem⟩
  · rw [call_todo_of_ne s p hpq] at hmem
    exact h.todo q update hmem
  · exact hpq ▸ hloaded
  · rw [call_todo_of_ne s p hpq] at hq
    exact h.idle q hq
  · subst hpq
    exact absurd (hloaded.symm.trans hdata) nofun
  · rw [call_todo_of_ne s p hpq] at hq
    exact h.current q update rest data hq hdata

theorem Inv.load (h : Inv programs mem s) {p : P} {update : Update A w}
    {rest : List (Update A w)} (htodo : s.todo p = update :: rest) :
    Inv programs mem (s.load p update.1) := by
  refine ⟨h.serial, h.todo, h.stores, fun q hq => ?_, fun q update' rest' data hq hdata => ?_⟩
  · have hpq : q ≠ p := by
      rintro rfl
      exact absurd (htodo.symm.trans hq) nofun
    rw [load_loaded_of_ne s p hpq]
    exact h.idle q hq
  · by_cases hpq : q = p
    · subst hpq
      obtain ⟨rfl, -⟩ := List.cons.inj (htodo.symm.trans hq)
      rw [load_loaded_self] at hdata
      exact congrArg update.2.apply (Option.some.inj hdata).symm
    · rw [load_loaded_of_ne s p hpq] at hdata
      exact h.current q update' rest' data hq hdata

/-- A current update changes the register as if it were loaded now. -/
theorem store_mem (p : P) {update : Update A w} (rest : List (Update A w)) {data : BitVec w}
    (hcurrent : update.2.apply data = update.2.apply (s.mem update.1)) :
    (s.store p update rest data).mem = update.2.store update.1 s.mem :=
  congrArg (Function.update s.mem update.1) hcurrent

theorem Inv.store (habsorb : Absorbing programs) (h : Inv programs mem s) {p : P}
    {update : Update A w} {rest : List (Update A w)} {data : BitVec w}
    (htodo : s.todo p = update :: rest) (hloaded : s.loaded p = some data) :
    Inv programs mem (s.store p update rest data) := by
  have hmem := store_mem p rest (h.current p update rest data htodo hloaded)
  have hallowed : ∀ update' ∈ update :: rest, Allowed programs update' := htodo ▸ h.todo p
  have hstores : ∀ update' ∈ s.stores ++ [update], Allowed programs update' := by
    intro update' hmem'
    rcases List.mem_append.mp hmem' with hfront | hlast
    · exact h.stores update' hfront
    · exact hallowed update' (List.mem_singleton.mp hlast ▸ List.mem_cons_self)
  refine ⟨?_, fun q update' hmem' => ?_, hstores, fun q hq => ?_,
    fun q update' rest' data' hq hdata => ?_⟩
  · rw [hmem, store_stores, serial_append, h.serial]
  all_goals by_cases hpq : q = p
  · subst hpq
    rw [store_todo_self] at hmem'
    exact hallowed update' (List.mem_cons_of_mem _ hmem')
  · rw [store_todo_of_ne s p update rest data hpq] at hmem'
    exact h.todo q update' hmem'
  · subst hpq
    exact store_loaded_self ..
  · rw [store_todo_of_ne s p update rest data hpq] at hq
    rw [store_loaded_of_ne s p update rest data hpq]
    exact h.idle q hq
  · subst hpq
    rw [store_loaded_self] at hdata
    exact absurd hdata nofun
  · rw [store_todo_of_ne s p update rest data hpq] at hq
    rw [store_loaded_of_ne s p update rest data hpq] at hdata
    rw [h.current q update' rest' data' hq hdata, hmem]
    by_cases haddr : update'.1 = update.1
    · have hother : Allowed programs update' := h.todo q update' (hq ▸ List.mem_cons_self)
      rw [haddr, Masked.store_self,
        habsorb update' update hother (hallowed update List.mem_cons_self) haddr]
    · rw [Masked.store_of_ne _ haddr]

theorem step_inv (habsorb : Absorbing programs) (h : Inv programs mem s) {label : Label A P w}
    (hcalls : Calls programs s label) (hstep : step s label = some s') : Inv programs mem s' := by
  cases label with
  | call p program =>
      simp only [step] at hstep
      split at hstep
      · rename_i htodo
        exact Option.some.inj hstep ▸ h.call htodo hcalls
      · cases hstep
  | load p =>
      simp only [step] at hstep
      split at hstep
      · rename_i htodo hloaded
        exact Option.some.inj hstep ▸ h.load htodo
      · cases hstep
  | store p =>
      simp only [step] at hstep
      split at hstep
      · rename_i htodo hloaded
        exact Option.some.inj hstep ▸ h.store habsorb htodo hloaded
      · cases hstep

theorem inv_init (hinit : (system mem).init s) : Inv programs mem s := by
  obtain ⟨hmem, htodo, hloaded, hstores⟩ := hinit
  refine ⟨by rw [hmem, hstores, serial_nil], fun p update hp => ?_, fun update hupdate => ?_,
    fun p _ => hloaded p, fun p update rest data hp _ => ?_⟩
  · rw [htodo p] at hp
    exact absurd hp List.not_mem_nil
  · rw [hstores] at hupdate
    exact absurd hupdate List.not_mem_nil
  · exact absurd ((htodo p).symm.trans hp) nofun

theorem inv_reachable (habsorb : Absorbing programs)
    (h : (system mem).ReachableWith (Calls programs) s) : Inv programs mem s :=
  h.invariant (Inv programs mem) (fun _ hinit => inv_init hinit)
    fun _ _ _ hinv hcalls hstep => step_inv habsorb hinv hcalls hstep

/-- The registers are what the stores of the run give when nothing comes between. -/
theorem mem_eq_serial (habsorb : Absorbing programs)
    (h : (system mem).ReachableWith (Calls programs) s) : s.mem = serial mem s.stores :=
  (inv_reachable habsorb h).serial

/-- Once the update is stored, the register stays as it makes it. -/
theorem serial_settled {update : Update A w} {stores : List (Update A w)}
    (h : ∀ update' ∈ stores, update'.1 = update.1 →
      ∀ data, update.2.apply (update'.2.apply data) = update'.2.apply data)
    (hmem : update ∈ stores) (mem : A → BitVec w) :
    update.2.apply (serial mem stores update.1) = serial mem stores update.1 := by
  induction stores using List.reverseRecOn with
  | nil => exact absurd hmem List.not_mem_nil
  | append_singleton front last ih =>
      rw [serial_append]
      by_cases haddr : last.1 = update.1
      · rw [← haddr, Masked.store_self]
        exact h last (List.mem_append_right _ List.mem_cons_self) haddr _
      · rw [Masked.store_of_ne _ (Ne.symm haddr)]
        refine ih (fun update' hfront => h update' (List.mem_append_left _ hfront)) ?_
        rcases List.mem_append.mp hmem with hfront | hlast
        · exact hfront
        · exact absurd (congrArg Prod.fst (List.mem_singleton.mp hlast)).symm haddr

/-! ## Runs -/

def Label.called : Label A P w → Option (P × List (Update A w))
  | .call p program => some (p, program)
  | .load _ | .store _ => none

/-- The steps of `p` from the call of a program to its return. -/
def turns (p : P) (program : List (Update A w)) : List (Label A P w) :=
  program.flatMap fun _ => [.load p, .store p]

omit [DecidableEq A] [DecidableEq P] in
@[simp] theorem called_turns (p : P) (program : List (Update A w)) :
    (turns p program).filterMap Label.called = [] := by
  induction program with
  | nil => rfl
  | cons update program ih => exact ih

/-- A run that calls only these programs, said by its labels. -/
theorem reachable_run (h : (system mem).ReachableWith (Calls programs) s)
    {labels : List (Label A P w)} (hrun : (system mem).run s labels = some s')
    (hcalled : ∀ call ∈ labels.filterMap Label.called, programs call.2) :
    (system mem).ReachableWith (Calls programs) s' := by
  induction labels generalizing s with
  | nil => exact Option.some.inj hrun ▸ h
  | cons label labels ih =>
      obtain ⟨next, hstep, hrest⟩ := Option.bind_eq_some_iff.mp hrun
      cases label with
      | call p program =>
          obtain ⟨hprogram, hcalled⟩ := List.forall_mem_cons.mp hcalled
          exact ih (h.step (a := Label.call p program) hprogram hstep) hrest hcalled
      | load p => exact ih (h.step (a := Label.load p) trivial hstep) hrest hcalled
      | store p => exact ih (h.step (a := Label.store p) trivial hstep) hrest hcalled

section Turns

variable (mem) {p : P} {update : Update A w} {rest : List (Update A w)}

theorem step_call (htodo : s.todo p = []) (program : List (Update A w)) :
    (system mem).step s (.call p program) = some (s.call p program) := by
  simp only [system, step, htodo]

theorem step_load (htodo : s.todo p = update :: rest) (hloaded : s.loaded p = none) :
    (system mem).step s (.load p) = some (s.load p update.1) := by
  simp only [system, step, htodo, hloaded]

theorem step_store {data : BitVec w} (htodo : s.todo p = update :: rest)
    (hloaded : s.loaded p = some data) :
    (system mem).step s (.store p) = some (s.store p update rest data) := by
  simp only [system, step, htodo, hloaded]

/-- While the others rest, the updates of one process are one after the other. -/
theorem run_turns {front : List (Update A w)} (htodo : s.todo p = front ++ rest)
    (hloaded : s.loaded p = none) :
    ∃ s', (system mem).run s (turns p front) = some s' ∧ s'.mem = serial s.mem front ∧
      s'.todo = Function.update s.todo p rest ∧ s'.loaded = s.loaded ∧
      s'.stores = s.stores ++ front := by
  induction front generalizing s with
  | nil =>
      refine ⟨s, rfl, rfl, ?_, rfl, (List.append_nil _).symm⟩
      rw [← List.nil_append rest, ← htodo, Function.update_eq_self]
  | cons update front ih =>
      have hload := step_load mem htodo hloaded
      have hstore := step_store mem (s := s.load p update.1) htodo (load_loaded_self ..)
      obtain ⟨s', hrun, hmem, htodo', hloaded', hstores⟩ :=
        ih (store_todo_self (s.load p update.1) p update (front ++ rest) (s.mem update.1))
          (store_loaded_self ..)
      refine ⟨s', ?_, hmem, ?_, ?_, ?_⟩
      · change (system mem).run s (.load p :: .store p :: turns p front) = some s'
        rw [System.run_cons, hload, Option.bind_some, System.run_cons, hstore, Option.bind_some]
        exact hrun
      · rw [htodo']
        exact Function.update_idem ..
      · rw [hloaded', State.store, State.load, Function.update_idem, ← hloaded,
          Function.update_eq_self]
      · rw [hstores, store_stores, List.append_assoc]
        rfl

variable {mem} (h : (system mem).ReachableWith (Calls programs) s)

include h

theorem reachable_call (htodo : s.todo p = []) {program : List (Update A w)}
    (hprogram : programs program) :
    (system mem).ReachableWith (Calls programs) (s.call p program) :=
  h.step (a := Label.call p program) hprogram (step_call mem htodo program)

theorem reachable_load (htodo : s.todo p = update :: rest) (hloaded : s.loaded p = none) :
    (system mem).ReachableWith (Calls programs) (s.load p update.1) :=
  h.step (a := Label.load p) trivial (step_load mem htodo hloaded)

theorem alone {front : List (Update A w)} (htodo : s.todo p = front ++ rest)
    (hloaded : s.loaded p = none) :
    ∃ s', (system mem).ReachableWith (Calls programs) s' ∧ s'.mem = serial s.mem front ∧
      s'.todo = Function.update s.todo p rest ∧ s'.loaded = s.loaded ∧
      s'.stores = s.stores ++ front := by
  obtain ⟨s', hrun, hs'⟩ := run_turns mem htodo hloaded
  exact ⟨s', reachable_run h hrun (by simp), hs'⟩

end Turns

/-! ## Lost updates -/

theorem serial_append_list (mem : A → BitVec w) (front back : List (Update A w)) :
    serial mem (front ++ back) = serial (serial mem front) back :=
  List.foldl_append ..

/-- `q` stores between the load and the store of an update of `p`, and both finish. -/
theorem overtaken {p q : P} (hpq : p ≠ q) (front back front' back' : List (Update A w))
    (update : Update A w) (mem : A → BitVec w) :
    ∃ labels s, (system mem).run (resting mem) labels = some s ∧
      labels.filterMap Label.called = [(p, front ++ update :: back), (q, front' ++ back')] ∧
      (∀ r, s.todo r = []) ∧ s.stores = front ++ front' ++ back' ++ [update] ++ back ∧
      s.mem = serial (Function.update (serial mem (front ++ front' ++ back')) update.1
        (update.2.apply (serial mem (front ++ front') update.1))) back := by
  -- `p` runs up to the update, and `q` up to where it is overtaken.
  have hcall := step_call mem (s := resting mem) (p := p) rfl (front ++ update :: back)
  obtain ⟨s₁, hrun₁, hmem₁, htodo₁, hloaded₁, hstores₁⟩ :=
    run_turns mem (call_todo_self (resting mem) p (front ++ update :: back)) rfl
  have hidle : s₁.todo q = [] := by
    rw [htodo₁, Function.update_of_ne hpq.symm, call_todo_of_ne _ _ hpq.symm, resting_todo]
  have hcall' := step_call mem hidle (front' ++ back')
  obtain ⟨s₂, hrun₂, hmem₂, htodo₂, hloaded₂, hstores₂⟩ :=
    run_turns mem (call_todo_self s₁ q (front' ++ back'))
      ((congrFun hloaded₁ q).trans rfl)
  have htodop : s₂.todo p = update :: back := by
    rw [htodo₂, Function.update_of_ne hpq, call_todo_of_ne _ _ hpq, htodo₁, Function.update_self]
  have hnone : ∀ r, s₂.loaded r = none := fun r =>
    (congrFun hloaded₂ r).trans ((congrFun hloaded₁ r).trans rfl)
  have hload := step_load mem htodop (hnone p)
  have htodoq : (s₂.load p update.1).todo q = back' ++ [] := by
    rw [List.append_nil]
    exact (congrFun htodo₂ q).trans (Function.update_self ..)
  obtain ⟨s₃, hrun₃, hmem₃, htodo₃, hloaded₃, hstores₃⟩ :=
    run_turns mem htodoq ((load_loaded_of_ne _ _ hpq.symm _).trans (hnone q))
  have htodop' : s₃.todo p = update :: back := by
    rw [htodo₃, Function.update_of_ne hpq]
    exact htodop
  have hdata : s₃.loaded p = some (s₂.mem update.1) := by
    rw [hloaded₃, load_loaded_self]
  have hstore := step_store mem htodop' hdata
  have htodop'' : (s₃.store p update back (s₂.mem update.1)).todo p = back ++ [] := by
    rw [store_todo_self, List.append_nil]
  obtain ⟨s₄, hrun₄, hmem₄, htodo₄, -, hstores₄⟩ :=
    run_turns mem htodop'' (store_loaded_self ..)
  refine ⟨.call p (front ++ update :: back) :: turns p front ++
    .call q (front' ++ back') :: turns q front' ++ .load p :: turns q back' ++
    .store p :: turns p back, s₄, ?_, ?_, fun r => ?_, ?_, ?_⟩
  · simp only [List.append_assoc, List.cons_append, System.run_cons, System.run_append, hcall,
      hrun₁, hcall', hrun₂, hload, hrun₃, hstore, hrun₄, Option.bind_some]
  · simp only [List.filterMap_append, List.filterMap_cons, Label.called, called_turns,
      List.append_nil, List.singleton_append]
  · rw [htodo₄]
    by_cases hrp : r = p
    · rw [hrp, Function.update_self]
    · rw [Function.update_of_ne hrp, store_todo_of_ne _ _ _ _ _ hrp, htodo₃]
      by_cases hrq : r = q
      · rw [hrq, Function.update_self]
      · rw [Function.update_of_ne hrq]
        calc (s₂.load p update.1).todo r
            = (s₁.call q (front' ++ back')).todo r := by
              rw [State.load, htodo₂, Function.update_of_ne hrq]
          _ = [] := by
              rw [call_todo_of_ne _ _ hrq, htodo₁, Function.update_of_ne hrp,
                call_todo_of_ne _ _ hrp, resting_todo]
  · calc s₄.stores
        = s₂.stores ++ back' ++ [update] ++ back := by
          rw [hstores₄, store_stores, hstores₃]
          rfl
      _ = front ++ front' ++ back' ++ [update] ++ back := by
          have hfirst : s₁.stores = front := hstores₁
          have hsecond : s₂.stores = s₁.stores ++ front' := hstores₂
          rw [hsecond, hfirst]
  · have hfirst : s₁.mem = serial mem front := hmem₁
    have hsecond : s₂.mem = serial mem (front ++ front') := by
      rw [serial_append_list, ← hfirst]
      exact hmem₂
    have hthird : s₃.mem = serial mem (front ++ front' ++ back') := by
      rw [serial_append_list, ← hsecond]
      exact hmem₃
    rw [hmem₄, ← hthird, ← hsecond]
    rfl

end FarsightDriver.Foundation.Updates
