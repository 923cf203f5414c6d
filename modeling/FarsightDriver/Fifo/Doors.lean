import FarsightDriver.Exclusive.Atomic
import FarsightDriver.Exclusive.Irq
import FarsightDriver.Exclusive.Mutex
import FarsightDriver.Fifo.Serial

/-!
# The queue behind an open that admits two

The drivers that guard `myopen` by disabled interrupts, by the mutex or by the
atomic counter have the `myread`, `mywrite` and queue of the driver with the
spinlock.  What their calls do to the queue is decided at the door: as soon as
two processes have the device open, two writes can both report a byte of which
the queue keeps one.
-/

namespace FarsightDriver.Fifo

open FarsightDriver.Foundation
open FarsightDriver.Que
open FarsightDriver.Fifo.Accesses

variable {model : DataModel}

/-! ## A byte that is lost -/

structure HasRoom (Q : QUE) : Prop where
  num_nonneg : 0 ≤ Q.num
  num_lt : Q.num + 1 < queSize
  tail_ge : -1 ≤ Q.tail
  tail_lt : Q.tail < queSize

theorem created_hasRoom : HasRoom created.que := by
  constructor <;> decide

def oneByte (model : DataModel) (buf : Buf) (byte : DataT) : Call model := .write buf [byte] 1

theorem step_oneByte (Q : QUE) (buf : Buf) (byte : DataT) :
    (program model).step Q ((program model).start (oneByte model buf byte)) =
      .ok (Q, .inl (.enque (byte :: buf.toList.drop 1) 1)) := by
  have hone : (1 : SizeT model).toNat = 1 := by cases model <;> rfl
  have hlen : ¬ buf.toList.length < 1 := by
    rw [buf_length]
    decide
  simp only [program, oneByte, start, Accesses.step, clampSize_toNat, hone, copyFromUser, bind,
    Except.bind, Nat.min_eq_left (by decide : 1 ≤ 512), if_neg hlen]
  rfl

/-- A write of one byte has stored it and loaded `num`, which it has not yet changed. -/
theorem oneByte_loads (model : DataModel) {Q : QUE} (h : HasRoom Q) (buf : Buf) (byte : DataT) :
    ∃ Q', HasRoom Q' ∧ Q'.num = Q.num ∧
      (program model).Steps Q ((program model).start (oneByte model buf byte)) Q'
        (.enqueNumStore 1 (Q.num + 1)) := by
  have hnum := h.num_nonneg
  have hlt := h.num_lt
  have hge := h.tail_ge
  have htail := h.tail_lt
  let tail := (Q.tail + 1).tmod queSize
  let rest := buf.toList.drop 1
  have hnext : 0 ≤ tail ∧ tail < queSize := by
    simp only [tail, queSize_eq, Int.tmod_eq_emod_of_nonneg (by omega : 0 ≤ Q.tail + 1)]
    omega
  obtain ⟨cells, hcells⟩ : ∃ cells, storeCell Q.data tail byte = .ok cells :=
    ⟨_, dif_pos hnext⟩
  have hfull : isfullQue Q = false := by
    simp only [isfullQue, beq_eq_false_iff_ne]
    omega
  have hfree : checkedInt (queSize - Q.num) = .ok (queSize - Q.num) :=
    checkedInt_index (by omega) (by omega)
  have hadd : checkedInt (Q.tail + 1) = .ok (Q.tail + 1) :=
    checkedInt_index (by omega) (by omega)
  have hcount : checkedInt (Q.num + 1) = .ok (Q.num + 1) :=
    checkedInt_index (by omega) (by omega)
  have hsize : (1 : Int) < queSize - Q.num := by omega
  refine ⟨{ Q with tail := tail, data := cells }, ⟨hnum, hlt, ?_, hnext.2⟩, rfl, ?_⟩
  · exact le_trans (by decide) hnext.1
  have henque : (program model).step Q (.enque (byte :: rest) 1) =
      .ok (Q, .inl (.enqueCompare (byte :: rest) 1)) := by
    simp only [program, Accesses.step, hfull]
    rfl
  have hcompare : (program model).step Q (.enqueCompare (byte :: rest) 1) =
      .ok (Q, .inl (.enqueLoop (byte :: rest) 1 1)) := by
    simp only [program, Accesses.step, hfree, bind, Except.bind, if_pos hsize]
    rfl
  have hload : (program model).step Q (.enqueTailLoad byte rest 0 1) =
      .ok (Q, .inl (.enqueTailStore byte rest 0 1 tail)) := by
    simp only [program, Accesses.step, hadd]
    rfl
  have hcell : (program model).step { Q with tail := tail } (.enqueCell byte rest 0 1 tail) =
      .ok ({ Q with tail := tail, data := cells }, .inl (.enqueLoop rest 0 1)) := by
    simp only [program, Accesses.step, hcells]
    rfl
  have hnumber : (program model).step { Q with tail := tail, data := cells } (.enqueNumLoad 1) =
      .ok ({ Q with tail := tail, data := cells }, .inl (.enqueNumStore 1 (Q.num + 1))) := by
    simp only [program, Accesses.step, hcount]
    rfl
  exact .head (step_oneByte Q buf byte) <| .head henque <| .head hcompare <| .head rfl <|
    .head hload <| .head rfl <| .head rfl <| .head hcell <| .head rfl <| .head hnumber <|
    .refl _ _

/-! ## Two processes inside -/

variable {P : Type*} [DecidableEq P] {σ α : Type*} {D : Serial.Door σ α P}

/-- Both write a byte and both are told that it has been stored. -/
theorem byte_lost {s : Users σ model P} (h : (users D model).Reachable s) {p q : P} (hne : p ≠ q)
    (hquiet : ∀ r, s.call r = none) (hp : D.inside s.door p = true)
    (hq : D.inside s.door q = true) (hroom : HasRoom s.object) (buf : Buf) (byte : DataT) :
    ∃ after, (users D model).Reachable after ∧ (∀ r, after.call r = none) ∧
      after.door = s.door ∧ after.object.num = s.object.num + 1 ∧
      after.log = s.log ++ [(q, oneByte model buf byte, ⟨1, []⟩)] ++
        [(p, oneByte model buf byte, ⟨1, []⟩)] := by
  obtain ⟨Q₁, hroom₁, hnum₁, hsteps₁⟩ := oneByte_loads model hroom buf byte
  obtain ⟨Q₂, -, -, hsteps₂⟩ := oneByte_loads model hroom₁ buf byte
  rw [hnum₁] at hsteps₂
  -- `p` comes to its store of `num` and pauses, `q` loads the same `num`
  let paused : Option (Call model × Pc model) :=
    some (oneByte model buf byte, .enqueNumStore 1 (s.object.num + 1))
  have hpaused := Serial.reachable_call h (hquiet p) hp hsteps₁
  have hfree := (Function.update_of_ne hne.symm paused s.call).trans (hquiet q)
  have hboth := Serial.reachable_call hpaused hfree hq hsteps₂
  have hstored := Serial.reachable_return hboth (Function.update_self q ..) rfl
  -- `q` has stored its `num`, and `p` stores the same once more
  have hpending := (Function.update_of_ne hne none _).trans
    ((Function.update_of_ne hne paused _).trans (Function.update_self p paused s.call))
  refine ⟨_, Serial.reachable_return hstored hpending rfl, fun r => ?_, rfl, rfl, rfl⟩
  by_cases hrp : r = p
  · rw [hrp]
    exact Function.update_self ..
  · refine (Function.update_of_ne hrp ..).trans ?_
    by_cases hrq : r = q
    · rw [hrq]
      exact Function.update_self ..
    · refine (Function.update_of_ne hrq ..).trans ((Function.update_of_ne hrq ..).trans ?_)
      exact (Function.update_of_ne hrp ..).trans (hquiet r)

/-- With `p` and `q` both inside, each has been told that its byte is stored, and the queue has
one byte. -/
def LosesByte (D : Serial.Door σ α P) (model : DataModel) (p q : P) : Prop :=
  ∀ buf byte, ∃ after : Users σ model P, (users D model).Reachable after ∧
    (∀ r, after.call r = none) ∧ D.inside after.door p = true ∧ D.inside after.door q = true ∧
    after.log = [(q, oneByte model buf byte, ⟨1, []⟩), (p, oneByte model buf byte, ⟨1, []⟩)] ∧
    after.object.num = 1

theorem losesByte {door : σ} (hdoor : D.system.Reachable door) {p q : P} (hne : p ≠ q)
    (hp : D.inside door p = true) (hq : D.inside door q = true) : LosesByte D model p q := by
  intro buf byte
  have hstart : (users D model).Reachable ⟨door, created.que, fun _ => none, []⟩ :=
    Serial.reachable_of_door hdoor
  obtain ⟨after, hreach, hquiet, hkept, hnum, hlog⟩ :=
    byte_lost hstart hne (fun _ => rfl) hp hq created_hasRoom buf byte
  refine ⟨after, hreach, hquiet, ?_, ?_, hlog, hnum⟩
  · rw [hkept]
    exact hp
  · rw [hkept]
    exact hq

/-- What the calls return in every run is what they return one after the other, if and only if
the door never lets two processes in. -/
theorem serialized_iff_exclusive (D : Serial.Door σ α P) :
    (∀ s : Users σ model P, (users D model).Reachable s → ∃ settled, Serialized D s settled) ↔
      ∀ door, D.system.Reachable door →
        ∀ p q, D.inside door p = true → D.inside door q = true → p = q := by
  constructor
  · intro hall door hdoor p q hp hq
    by_contra hne
    have hloses : LosesByte D model p q := losesByte hdoor hne hp hq
    obtain ⟨after, hreach, hquiet, -, -, hlog, hnum⟩ := hloses (Vector.replicate 512 0) 7
    obtain ⟨settled, hserialized⟩ := hall after hreach
    have hstored : contents settled = [7, 7] := by
      have hkept := hserialized.conserved
      rw [hlog] at hkept
      exact hkept (by simp [Kept, oneByte])
    have hone : (contents settled).length = 1 := by
      rw [← hserialized.quiet hquiet, contents_length, hnum]
      rfl
    rw [hstored] at hone
    contradiction
  · intro hone s hs
    have hguarded : (users (D.unguarded fun h => hone _ h) model).ReachableWith
        (Serial.guard (D.unguarded fun h => hone _ h)) s :=
      hs.mono fun s label _ => by cases label <;> trivial
    obtain ⟨settled, hserved⟩ := Serial.served_of_reachable meaning hguarded
    exact ⟨settled, serialized_of_served ⟨hserved.log, hserved.busy, hserved.quiet⟩⟩

theorem serialized_iff (D : Serial.Door σ α P) {related : P → P → Prop}
    (hapart : ∀ p q, ¬ related p q → p ≠ q ∧ ∃ door, D.system.Reachable door ∧
      D.inside door p = true ∧ D.inside door q = true)
    (htogether : (∀ p q, related p q) → ∀ door, D.system.Reachable door →
      ∀ p q, D.inside door p = true → D.inside door q = true → p = q) :
    (∀ s : Users σ model P, (users D model).Reachable s → ∃ settled, Serialized D s settled) ↔
      ∀ p q, related p q := by
  refine (serialized_iff_exclusive D).trans ⟨fun hone p q => ?_, htogether⟩
  by_contra hrelated
  obtain ⟨hne, door, hdoor, hp, hq⟩ := hapart p q hrelated
  exact hne (hone door hdoor p q hp hq)

/-- Where every two processes can be inside together, only one process is safe. -/
theorem serialized_iff_subsingleton (D : Serial.Door σ α P)
    (htwo : ∀ p q, p ≠ q → ∃ door, D.system.Reachable door ∧
      D.inside door p = true ∧ D.inside door q = true) :
    (∀ s : Users σ model P, (users D model).Reachable s → ∃ settled, Serialized D s settled) ↔
      Subsingleton P := by
  rw [subsingleton_iff]
  exact serialized_iff D (fun p q hne => ⟨hne, htwo p q hne⟩) fun heq _ _ p q _ _ => heq p q

theorem serialized_of_guarded {s : Users σ model P}
    (h : (users D model).ReachableWith (Serial.guard D) s) :
    ∃ settled, Serialized D s settled := by
  obtain ⟨settled, hserved⟩ := Serial.served_of_reachable meaning h
  exact ⟨settled, serialized_of_served hserved⟩

/-! ## Interrupts disabled -/

section Irq

variable {C : Type*} [DecidableEq C] (cpu : P → C)

/-- A process with interrupts off holds up the opens and closes on its CPU but not the calls, which
is more interleavings than there are. -/
def irqDoor : Serial.Door (Exclusive.Irq.State C P) P P where
  system := Exclusive.Irq.system cpu
  guard := Exclusive.Irq.TestsAlone
  actor := id
  inside s p := s.pc p == .opened
  exclusive h p q hp hq := by
    refine (Exclusive.Irq.contract_of_testsAlone cpu h).1 p q ?_ ?_
    · exact congrArg Exclusive.Irq.Pc.phase (eq_of_beq hp)
    · exact congrArg Exclusive.Irq.Pc.phase (eq_of_beq hq)
  others hstep p hp := by rw [Exclusive.Irq.step_others hstep hp]

theorem irq_opens_two {p q : P} (hcpu : cpu p ≠ cpu q) :
    ∃ s, (irqDoor cpu).system.Reachable s ∧ (irqDoor cpu).inside s p = true ∧
      (irqDoor cpu).inside s q = true := by
  obtain ⟨s, hrun, hp, hq⟩ := Exclusive.Irq.opens_beside cpu hcpu
  refine ⟨s, System.reachable_of_run ⟨fun _ => rfl, rfl, fun _ => rfl⟩ hrun, ?_, ?_⟩
  · exact beq_iff_eq.mpr hp
  · exact beq_iff_eq.mpr hq

/--
Disabled interrupts keep the calls apart as long as nobody tests the flag
between the test and the store of another process, which only processes on one
CPU can be sure of.  Two processes on two CPUs can lose a byte.
-/
theorem irq_calls_serialized :
    (∀ s : Users (Exclusive.Irq.State C P) model P,
      (users (irqDoor cpu) model).ReachableWith (Serial.guard (irqDoor cpu)) s →
        ∃ settled, Serialized (irqDoor cpu) s settled) ∧
    ((∀ s : Users (Exclusive.Irq.State C P) model P, (users (irqDoor cpu) model).Reachable s →
      ∃ settled, Serialized (irqDoor cpu) s settled) ↔ ∀ p q, cpu p = cpu q) ∧
    ∀ p q, cpu p ≠ cpu q → LosesByte (irqDoor cpu) model p q := by
  refine ⟨fun _ => serialized_of_guarded, serialized_iff (irqDoor cpu)
    (fun _ _ hcpu => ⟨fun heq => hcpu (congrArg cpu heq), irq_opens_two cpu hcpu⟩)
    fun hone _ hdoor => (irqDoor cpu).exclusive (Exclusive.Irq.testsAlone_of_reachable hone hdoor),
    fun p q hcpu => ?_⟩
  obtain ⟨door, hdoor, hp, hq⟩ := irq_opens_two cpu hcpu
  exact losesByte hdoor (fun heq => hcpu (congrArg cpu heq)) hp hq

end Irq

/-! ## The mutex -/

def mutexDoor (P : Type*) [DecidableEq P] : Serial.Door (Exclusive.Mutex.State P) P P where
  system := Exclusive.Mutex.system P
  guard := Exclusive.Mutex.UnlocksAlone
  actor := id
  inside s p := s.pc p == .opened
  exclusive h p q hp hq := by
    have hexcl := TestAndSet.exclusive_of_reachable (Exclusive.Mutex.simulation.reachable h)
    refine hexcl.owner_unique p q ?_ ?_
    · exact congrArg Exclusive.Mutex.Pc.phase (eq_of_beq hp)
    · exact congrArg Exclusive.Mutex.Pc.phase (eq_of_beq hq)
  others hstep p hp := by rw [Exclusive.Mutex.step_others hstep hp]

theorem mutex_opens_two {p q : P} (hne : p ≠ q) :
    ∃ s, (mutexDoor P).system.Reachable s ∧ (mutexDoor P).inside s p = true ∧
      (mutexDoor P).inside s q = true := by
  obtain ⟨s, hreach, hp, hq⟩ := Exclusive.Mutex.opens_beside hne
  exact ⟨s, hreach, beq_iff_eq.mpr hp, beq_iff_eq.mpr hq⟩

/--
The mutex keeps the calls apart as long as no `myclose` unlocks it under an
opener; its two unlocks are enough for one other process to be let in beside,
and for a byte to be lost.
-/
theorem mutex_calls_serialized (P : Type*) [DecidableEq P] :
    (∀ s : Users (Exclusive.Mutex.State P) model P,
      (users (mutexDoor P) model).ReachableWith (Serial.guard (mutexDoor P)) s →
        ∃ settled, Serialized (mutexDoor P) s settled) ∧
    ((∀ s : Users (Exclusive.Mutex.State P) model P, (users (mutexDoor P) model).Reachable s →
      ∃ settled, Serialized (mutexDoor P) s settled) ↔ Subsingleton P) ∧
    ∀ p q, p ≠ q → LosesByte (mutexDoor P) model p q := by
  refine ⟨fun _ => serialized_of_guarded,
    serialized_iff_subsingleton (mutexDoor P) fun _ _ => mutex_opens_two, fun p q hne => ?_⟩
  obtain ⟨door, hdoor, hp, hq⟩ := mutex_opens_two hne
  exact losesByte hdoor hne hp hq

/-! ## The atomic counter -/

def atomicDoor (P : Type*) [DecidableEq P] : Serial.Door (Exclusive.Atomic.State P) P P where
  system := Exclusive.Atomic.system P
  guard := Exclusive.Atomic.DecrementsFree
  actor := id
  inside s p := s.pc p == .opened
  exclusive h p q hp hq := by
    refine Exclusive.Atomic.exclusive_of_decrementsFree h p q ?_ ?_
    · exact congrArg Exclusive.Atomic.Pc.holds (eq_of_beq hp)
    · exact congrArg Exclusive.Atomic.Pc.holds (eq_of_beq hq)
  others hstep p hp := by rw [Exclusive.Atomic.step_others hstep hp]

theorem atomic_opens_two {p q : P} (hne : p ≠ q) :
    ∃ s, (atomicDoor P).system.Reachable s ∧ (atomicDoor P).inside s p = true ∧
      (atomicDoor P).inside s q = true := by
  obtain ⟨s, hrun, hp, hq⟩ := Exclusive.Atomic.opens_beside hne
  refine ⟨s, System.reachable_of_run ⟨rfl, fun _ => rfl⟩ hrun, ?_, ?_⟩
  · exact beq_iff_eq.mpr hp
  · exact beq_iff_eq.mpr hq

/--
The counter keeps the calls apart as long as no `myopen` decrements it while
the device is held; the wrong test lets every further opener in.
-/
theorem atomic_calls_serialized (P : Type*) [DecidableEq P] :
    (∀ s : Users (Exclusive.Atomic.State P) model P,
      (users (atomicDoor P) model).ReachableWith (Serial.guard (atomicDoor P)) s →
        ∃ settled, Serialized (atomicDoor P) s settled) ∧
    ((∀ s : Users (Exclusive.Atomic.State P) model P, (users (atomicDoor P) model).Reachable s →
      ∃ settled, Serialized (atomicDoor P) s settled) ↔ Subsingleton P) :=
  ⟨fun _ => serialized_of_guarded,
    serialized_iff_subsingleton (atomicDoor P) fun _ _ => atomic_opens_two⟩

end FarsightDriver.Fifo
