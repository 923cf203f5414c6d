import FarsightDriver.Fifo.Blocking

/-!
# What concurrent readers deliver

`myread` reads the queue length, reads it again and then calls `deque`, whose
result it ignores.  Another process may act in between, so the length it returns
may be neither within the request nor the number of bytes it removed.  It is
when the queue it finds at its second look fits the request, and when its
`deque` still finds the bytes it chose.
-/

namespace FarsightDriver.Fifo.Blocking

open FarsightDriver.Foundation
open FarsightDriver.Que

variable {model : DataModel} {P : Type*} [DecidableEq P]

/-- The two program points of `myread` that a step of another process can spoil. -/
def Pc.Undisturbed (num : Int) : Pc model → Prop
  | .readChoose args => num ≤ args.size.toNat
  | .readDeque _ totalsize => totalsize ≤ num
  | _ => True

instance (num : Int) : (pc : Pc model) → Decidable (pc.Undisturbed num)
  | .readChoose args => inferInstanceAs (Decidable (num ≤ args.size.toNat))
  | .readDeque _ totalsize => inferInstanceAs (Decidable (totalsize ≤ num))
  | .idle | .readPrepare _ | .readTest _ | .readSleep _ | .readCompare _ | .readCopy _ _ _ _
  | .smashed | .writeEnque _ _ | .writeWakeUp _ | .pollPrepare | .pollTest | .pollSleep =>
      .isTrue trivial

def ReadsUndisturbed (s : State model P) (label : P × Input model) : Prop :=
  (s.pc label.1).Undisturbed (getQueNum s.que)

instance (s : State model P) (label : P × Input model) :
    Decidable (ReadsUndisturbed s label) :=
  inferInstanceAs (Decidable (Pc.Undisturbed _ _))

def Exact (ledger : Ledger P DataT) (delivery : Delivery P) : Prop :=
  0 ≤ delivery.ret →
    delivery.ret ≤ delivery.size ∧
    ∃ bytes, ledger.removals[delivery.removal]? = some (delivery.reader, bytes) ∧
      delivery.copied = bytes ∧ (bytes.length : Int) = delivery.ret

def ReadFacts (ledger : Ledger P DataT) (p : P) : Pc model → Prop
  | .readDeque args totalsize => totalsize ≤ args.size.toNat
  | .readCopy args totalsize memory removal =>
      totalsize ≤ args.size.toNat ∧
      ∃ bytes, ledger.removals[removal]? = some (p, bytes) ∧
        memory.take totalsize.toNat = bytes ∧ (bytes.length : Int) = totalsize
  | _ => True

structure Faithful (s : State model P) : Prop where
  reads : ∀ p, ReadFacts s.ledger p (s.pc p)
  exact : ∀ delivery ∈ s.deliveries, Exact s.ledger delivery

omit [DecidableEq P] in
theorem ReadFacts.mono {ledger ledger' : Ledger P DataT} {q : P} {pc : Pc model}
    (h : ReadFacts ledger q pc) (hledger : ledger.Extends ledger') :
    ReadFacts ledger' q pc := by
  cases pc with
  | readCopy args totalsize memory removal =>
      obtain ⟨hsize, bytes, hentry, hbytes⟩ := h
      exact ⟨hsize, bytes, hledger _ _ hentry, hbytes⟩
  | _ => exact h

omit [DecidableEq P] in
theorem Exact.mono {ledger ledger' : Ledger P DataT} {delivery : Delivery P}
    (h : Exact ledger delivery) (hledger : ledger.Extends ledger') :
    Exact ledger' delivery := by
  intro hret
  obtain ⟨hsize, bytes, hentry, hbytes⟩ := h hret
  exact ⟨hsize, bytes, hledger _ _ hentry, hbytes⟩

variable {s next : State model P} {p : P}

theorem reads_update {ledger : Ledger P DataT} {pc : Pc model} (h : Faithful s)
    (hpc : next.pc = Function.update s.pc p pc) (hledger : s.ledger.Extends ledger)
    (hself : ReadFacts ledger p pc) : ∀ q, ReadFacts ledger q (next.pc q) := by
  rw [hpc]
  exact (Function.forall_update_iff s.pc (ReadFacts ledger)).mpr
    ⟨hself, fun q _ => (h.reads q).mono hledger⟩

omit [DecidableEq P] in
theorem Entry.readFacts {input : Input model} (hguard : ReadsUndisturbed s (p, input))
    {pc : Pc model} (hentry : Entry s p pc) : ReadFacts s.ledger p pc := by
  cases hentry with
  | plain hplain => cases pc <;> trivial
  | size _ _ => exact le_refl _
  | num hp =>
      rw [ReadsUndisturbed, hp] at hguard
      exact hguard
  | write _ _ => trivial

theorem faithful_of_effect {input : Input model} (hfaithful : Faithful s)
    (hguard : ReadsUndisturbed s (p, input)) (heffect : Effect s p next) : Faithful next := by
  cases heffect with
  | stay hpc hentry hque hledger hdeliveries =>
      constructor
      · rw [hledger]
        exact reads_update hfaithful hpc (.refl _) (hentry.readFacts hguard)
      · rw [hledger, hdeliveries]
        exact hfaithful.exact
  | enque hpc hque hcontents hledger hdeliveries =>
      constructor
      · rw [hledger]
        exact reads_update hfaithful hpc (.refl _) trivial
      · rw [hledger, hdeliveries]
        exact hfaithful.exact
  | @deque args totalsize removed pc hp hremoved hpc hentry hque hcontents hledger hdeliveries =>
      have hkept := s.ledger.extends_remove p ((contents s.que).take removed)
      constructor
      · rw [hledger]
        refine reads_update hfaithful hpc hkept ?_
        rcases hentry with rfl | rfl
        · trivial
        · have hsize := hfaithful.reads p
          rw [hp] at hsize
          simp only [ReadsUndisturbed, hp, Pc.Undisturbed, getQueNum] at hguard
          have hlength := contents_length s.que
          have htotal : totalsize.toNat = removed := by omega
          have htake : ((contents s.que).take removed).length = removed := by
            rw [List.length_take]
            omega
          refine ⟨hsize, _, Ledger.removals_remove_self _ _ _, ?_, by omega⟩
          rw [htotal, List.take_left' htake]
      · rw [hledger, hdeliveries]
        intro delivery hmem
        exact (hfaithful.exact delivery hmem).mono hkept
  | @copy args totalsize ret memory copied removal hp hret hpc hque hledger hdeliveries =>
      constructor
      · rw [hledger]
        exact reads_update hfaithful hpc (.refl _) trivial
      · rw [hledger, hdeliveries]
        intro delivery hmem
        rcases List.mem_append.mp hmem with hold | hnew
        · exact hfaithful.exact delivery hold
        · rw [List.mem_singleton] at hnew
          subst hnew
          intro hnonneg
          obtain ⟨rfl, rfl⟩ := hret hnonneg
          have hfacts := hfaithful.reads p
          rw [hp] at hfacts
          exact hfacts

theorem faithful_of_reachable {s : State model P}
    (h : (system model P).ReachableWith ReadsUndisturbed s) : Inv s ∧ Faithful s := by
  refine h.invariant (fun s => Inv s ∧ Faithful s) (fun s hs => ?_)
    fun s label next hinv hguard hstep => ?_
  · refine ⟨inv_init hs, fun p => ?_, ?_⟩
    · rw [hs.2.2.2 p]
      trivial
    · simp [hs.2.2.1]
  · have heffect := step_effect hinv.1 hstep
    exact ⟨inv_of_effect hinv.1 heffect, faithful_of_effect hinv.2 hguard heffect⟩

theorem blocking_reads_faithful {s : State model P}
    (h : (system model P).ReachableWith ReadsUndisturbed s) :
    (∀ delivery ∈ s.deliveries, 0 ≤ delivery.ret →
      delivery.ret ≤ delivery.size ∧
      ∃ bytes, s.ledger.removals[delivery.removal]? = some (delivery.reader, bytes) ∧
        delivery.copied = bytes ∧ (bytes.length : Int) = delivery.ret) ∧
    (s.deliveries.map Delivery.removal).Nodup ∧
    s.ledger.accepted = (s.ledger.removals.map Prod.snd).flatten ++ contents s.que := by
  obtain ⟨hinv, hfaithful⟩ := faithful_of_reachable h
  exact ⟨hfaithful.exact, hinv.once, hinv.balanced⟩

/-- Writer 2 stores two bytes, then reader 0 asks for five. -/
def writeThenRead : List (Fin 3 × Input .ilp32) :=
  [(2, .write blankBuf [7, 8] 2), (2, .tick), (2, .tick),
    (0, .read ⟨5, blankBuf, [], 5⟩), (0, .tick), (0, .tick), (0, .tick), (0, .tick),
    (0, .tick), (0, .tick)]

theorem undisturbed_read :
    ∃ s, (system .ilp32 (Fin 3)).run created writeThenRead = some s ∧
      ∃ bytes, s.ledger.removals[0]? = some (0, bytes) ∧ [7, 8] = bytes := by
  have hdeliveries : ((system .ilp32 (Fin 3)).run created writeThenRead).map
      (fun s => s.deliveries) = some [⟨0, 5, 2, [7, 8], 0⟩] := by
    decide +kernel
  obtain ⟨s, hrun, hlist⟩ := Option.map_eq_some_iff.mp hdeliveries
  obtain ⟨hexact, -, -⟩ := blocking_reads_faithful
    (System.ReachableWith.run (.init created_init) writeThenRead (by decide +kernel) hrun)
  obtain ⟨-, bytes, hentry, hcopied, -⟩ :=
    hexact ⟨0, 5, 2, [7, 8], 0⟩ (by rw [hlist]; exact List.mem_singleton_self _) (by decide)
  exact ⟨s, hrun, bytes, hentry, hcopied⟩

/--
Readers 0 and 1 both choose the two bytes of writer 2; reader 1 gets them, and
reader 0 returns two bytes of its stack.
-/
def bothChoose : List (Fin 3 × Input .ilp32) :=
  [(2, .write blankBuf [7, 8] 2), (2, .tick), (2, .tick),
    (0, .read ⟨5, blankBuf, [], 5⟩), (0, .tick), (0, .tick), (0, .tick), (0, .tick),
    (1, .read ⟨5, blankBuf, [], 5⟩), (1, .tick), (1, .tick), (1, .tick), (1, .tick),
    (1, .tick), (1, .tick), (0, .tick), (0, .tick)]

/-- Writer 2 adds two bytes between the two looks of reader 0, which asked for three. -/
def writeBetweenLooks : List (Fin 3 × Input .ilp32) :=
  [(2, .write blankBuf [7, 8] 2), (2, .tick), (2, .tick),
    (0, .read ⟨3, blankBuf, [], 5⟩), (0, .tick), (0, .tick), (0, .tick),
    (2, .write blankBuf [9, 10] 2), (2, .tick), (2, .tick),
    (0, .tick), (0, .tick), (0, .tick)]

theorem racing_reads_unfaithful :
    (∃ s, (system .ilp32 (Fin 3)).run created bothChoose = some s ∧
      ⟨0, 5, 2, [0, 0], 1⟩ ∈ s.deliveries ∧ s.ledger.removals[1]? = some (0, [])) ∧
    ∃ s, (system .ilp32 (Fin 3)).run created writeBetweenLooks = some s ∧
      ⟨0, 3, 4, [7, 8, 9, 10], 0⟩ ∈ s.deliveries := by
  have hstale : ((system .ilp32 (Fin 3)).run created bothChoose).map
      (fun s => (s.deliveries, s.ledger.removals)) =
        some ([⟨1, 5, 2, [7, 8], 0⟩, ⟨0, 5, 2, [0, 0], 1⟩], [(1, [7, 8]), (0, [])]) := by
    decide +kernel
  have hlong : ((system .ilp32 (Fin 3)).run created writeBetweenLooks).map
      (fun s => s.deliveries) = some [⟨0, 3, 4, [7, 8, 9, 10], 0⟩] := by
    decide +kernel
  obtain ⟨s, hrun, hs⟩ := Option.map_eq_some_iff.mp hstale
  obtain ⟨t, hrun', ht⟩ := Option.map_eq_some_iff.mp hlong
  simp only [Prod.mk.injEq] at hs
  exact ⟨⟨s, hrun, by simp [hs.1], by simp [hs.2]⟩, t, hrun', by simp [ht]⟩

end FarsightDriver.Fifo.Blocking
