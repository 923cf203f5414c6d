import FarsightDriver.Fifo.Device
import FarsightDriver.Foundation.Ledger

/-!
# Concurrent calls on the blocking driver

`myread` waits in `wait_event` until the queue has data and `mywrite` wakes the
waiting processes; there is no lock.  A step is one access of one process to
shared state: a registration on `waitread_que`, one `get_que_num`, one `enque`,
one `deque`, one `wake_up`, one copy to the user.  `wait_event` and `poll`
register a process before they look at the queue, and look again after every
wake-up; `runnable p` says that `p` was woken since it registered last.  The
`kill_fasync` of the last driver changes nothing that is modelled.

The ledger and the deliveries only record what happened.  No step reads them.
-/

namespace FarsightDriver.Fifo.Blocking

open FarsightDriver.Foundation
open FarsightDriver.Que

/--
The environment of one `myread`: the stack buffer, the stack memory above it
and how many bytes the user pointer has room for.
-/
structure ReadArgs (model : DataModel) where
  size : SizeT model
  buf : Buf
  above : List DataT
  room : Nat

def ReadArgs.memory {model : DataModel} (args : ReadArgs model) : List DataT :=
  args.buf.toList ++ args.above

/--
What a process does next.  `smashed` is a process that stored past its stack
buffer; nothing is said about what it does then.
-/
inductive Pc (model : DataModel) where
  | idle
  | readPrepare (args : ReadArgs model)
  | readTest (args : ReadArgs model)
  | readSleep (args : ReadArgs model)
  | readCompare (args : ReadArgs model)
  | readChoose (args : ReadArgs model)
  | readDeque (args : ReadArgs model) (totalsize : Int)
  | readCopy (args : ReadArgs model) (totalsize : Int) (memory : List DataT)
      (removal : Nat)
  | smashed
  | writeEnque (buf : List DataT) (size : Int)
  | writeWakeUp (totalsize : Int)
  | pollPrepare
  | pollTest
  | pollSleep

/-- A finished `myread`: its request, its result, and the removal its `deque` made. -/
structure Delivery (P : Type*) where
  reader : P
  size : Nat
  ret : Int
  copied : List DataT
  removal : Nat
  deriving DecidableEq

structure State (model : DataModel) (P : Type*) where
  que : QUE
  registered : P → Bool
  runnable : P → Bool
  pc : P → Pc model
  ret : P → Int
  ledger : Ledger P DataT
  deliveries : List (Delivery P)

inductive Input (model : DataModel) where
  | read (args : ReadArgs model)
  | write (buf : Buf) (ubuffer : List DataT) (size : SizeT model)
  | poll
  | tick
  | timeout

def pollReady : Int := 0x0041

variable {model : DataModel} {P : Type*} [DecidableEq P]

def State.goto (s : State model P) (p : P) (pc : Pc model) : State model P :=
  { s with pc := Function.update s.pc p pc }

def State.returns (s : State model P) (p : P) (value : Int) : State model P :=
  { s.goto p .idle with ret := Function.update s.ret p value }

def State.prepareToWait (s : State model P) (p : P) (pc : Pc model) : State model P :=
  { s.goto p pc with
    registered := Function.update s.registered p true
    runnable := Function.update s.runnable p false }

def State.finishWait (s : State model P) (p : P) : State model P :=
  { s with registered := Function.update s.registered p false }

def State.wakeUp (s : State model P) : State model P :=
  { s with runnable := fun q => s.runnable q || s.registered q }

/-- `mywrite` up to its `enque`. -/
def State.callWrite (s : State model P) (p : P) (buf : Buf) (ubuffer : List DataT)
    (size : SizeT model) : Option (State model P) :=
  let size := if size < 512 then size else 512
  (copyFromUser buf.toList ubuffer size.toNat).toOption.map fun (buf, uncopied) =>
    if uncopied ≠ 0 then s.returns p (-eio)
    else s.goto p (.writeEnque buf (toInt32 size.toNat))

def State.enque (s : State model P) (p : P) (buf : List DataT) (size : Int) :
    Option (State model P) :=
  (Que.enque s.que buf size).toOption.map fun (Q, totalsize) =>
    { s.goto p (.writeWakeUp totalsize) with
      que := Q
      ledger := s.ledger.accept (buf.take totalsize.toNat) }

def State.deque (s : State model P) (p : P) (args : ReadArgs model) (totalsize : Int) :
    Option (State model P) :=
  (Que.deque s.que args.memory (toInt32 totalsize)).toOption.map
    fun (Q, memory, removed) =>
      { s.goto p
          (if removed ≤ bufSize then
            .readCopy args totalsize memory s.ledger.removals.length
          else .smashed) with
        que := Q
        ledger := s.ledger.remove p (memory.take removed.toNat) }

def State.copy (s : State model P) (p : P) (args : ReadArgs model) (totalsize : Int)
    (memory : List DataT) (removal : Nat) : Option (State model P) :=
  (copyToUser args.room memory (intToSizeT model totalsize).toNat).toOption.map
    fun (copied, uncopied) =>
      let ret := if uncopied ≠ 0 then -eio else totalsize
      { s.returns p ret with
        deliveries := s.deliveries ++ [⟨p, args.size.toNat, ret, copied, removal⟩] }

def step (s : State model P) (label : P × Input model) : Option (State model P) :=
  let (p, input) := label
  match s.pc p, input with
  | .idle, .read args => some (s.goto p (.readPrepare args))
  | .idle, .write buf ubuffer size => s.callWrite p buf ubuffer size
  | .idle, .poll => some (s.goto p .pollPrepare)
  | .readPrepare args, .tick => some (s.prepareToWait p (.readTest args))
  | .readTest args, .tick =>
      some (if 0 ≠ getQueNum s.que then (s.goto p (.readCompare args)).finishWait p
        else s.goto p (.readSleep args))
  | .readSleep args, .tick =>
      if s.runnable p then some (s.goto p (.readPrepare args)) else none
  | .readCompare args, .tick =>
      some (s.goto p (if intToSizeT model (getQueNum s.que) < args.size then .readChoose args
        else .readDeque args (sizeTToSsizeT args.size)))
  | .readChoose args, .tick =>
      some (s.goto p
        (.readDeque args (sizeTToSsizeT (intToSizeT model (getQueNum s.que)))))
  | .readDeque args totalsize, .tick => s.deque p args totalsize
  | .readCopy args totalsize memory removal, .tick => s.copy p args totalsize memory removal
  | .writeEnque buf size, .tick => s.enque p buf size
  | .writeWakeUp totalsize, .tick => some (s.wakeUp.returns p totalsize)
  | .pollPrepare, .tick => some (s.prepareToWait p .pollTest)
  | .pollTest, .tick =>
      some (if getQueNum s.que ≠ 0 then (s.returns p pollReady).finishWait p
        else s.goto p .pollSleep)
  | .pollSleep, .tick => if s.runnable p then some (s.goto p .pollPrepare) else none
  | .pollSleep, .timeout => some ((s.returns p 0).finishWait p)
  | _, _ => none

def system (model : DataModel) (P : Type*) [DecidableEq P] :
    System (State model P) (P × Input model) where
  init s := (∃ memory, createQue memory = .ok s.que) ∧ s.ledger = .empty ∧ s.deliveries = [] ∧
    ∀ p, s.pc p = .idle
  step := step

def created : State model P :=
  ⟨{ zeroed with tail := -1 }, fun _ => false, fun _ => true, fun _ => .idle, fun _ => 0,
    .empty, []⟩

theorem created_init : (system model P).init created :=
  ⟨⟨some zeroed, rfl⟩, rfl, rfl, fun _ => rfl⟩

def blankBuf : Buf := Vector.replicate bufSize 0

/-! ## What a step does to the shared data -/

/-- What a process in the middle of a call knows. -/
def LocalFacts (ledger : Ledger P DataT) (deliveries : List (Delivery P)) (p : P) :
    Pc model → Prop
  | .readDeque _ totalsize => 0 ≤ totalsize ∧ totalsize ≤ queSize
  | .readCopy _ totalsize memory removal =>
      (0 ≤ totalsize ∧ totalsize ≤ queSize) ∧
      (∃ bytes, ledger.removals[removal]? = some (p, bytes) ∧
        bytes = memory.take bytes.length) ∧
      ∀ delivery ∈ deliveries, delivery.reader = p → delivery.removal ≠ removal
  | .writeEnque buf size => 0 ≤ size ∧ size ≤ buf.length
  | _ => True

def Pc.Plain : Pc model → Prop
  | .readDeque _ _ | .readCopy _ _ _ _ | .writeEnque _ _ => False
  | _ => True

structure Inv (s : State model P) : Prop where
  que : WellFormed s.que
  balanced : s.ledger.Balances (contents s.que)
  locals : ∀ p, LocalFacts s.ledger s.deliveries p (s.pc p)
  recorded : ∀ delivery ∈ s.deliveries,
    ∃ bytes, s.ledger.removals[delivery.removal]? = some (delivery.reader, bytes)
  once : (s.deliveries.map Delivery.removal).Nodup

/-- The program points that a step on no shared data leads to. -/
inductive Entry (s : State model P) (p : P) : Pc model → Prop
  | plain {pc : Pc model} (hplain : pc.Plain) : Entry s p pc
  | size {args : ReadArgs model} (hp : s.pc p = .readCompare args)
      (hsize : args.size.toNat ≤ s.que.num) : Entry s p (.readDeque args args.size.toNat)
  | num {args : ReadArgs model} (hp : s.pc p = .readChoose args) :
      Entry s p (.readDeque args s.que.num)
  | write {buf : List DataT} {size : Int} (hlow : 0 ≤ size) (hhigh : size ≤ buf.length) :
      Entry s p (.writeEnque buf size)

/-- The four things that a step of `p` can do to queue, ledger and deliveries. -/
inductive Effect (s : State model P) (p : P) (next : State model P) : Prop
  | stay {pc : Pc model} (hpc : next.pc = Function.update s.pc p pc) (hentry : Entry s p pc)
      (hque : next.que = s.que) (hledger : next.ledger = s.ledger)
      (hdeliveries : next.deliveries = s.deliveries)
  | enque {totalsize : Int} {items : List DataT}
      (hpc : next.pc = Function.update s.pc p (.writeWakeUp totalsize))
      (hque : WellFormed next.que) (hcontents : contents next.que = contents s.que ++ items)
      (hledger : next.ledger = s.ledger.accept items)
      (hdeliveries : next.deliveries = s.deliveries)
  | deque {args : ReadArgs model} {totalsize : Int} {removed : Nat} {pc : Pc model}
      (hp : s.pc p = .readDeque args totalsize) (hremoved : removed = min totalsize s.que.num)
      (hpc : next.pc = Function.update s.pc p pc)
      (hentry : pc = .smashed ∨ pc = .readCopy args totalsize
        ((contents s.que).take removed ++ args.memory.drop removed) s.ledger.removals.length)
      (hque : WellFormed next.que)
      (hcontents : contents next.que = (contents s.que).drop removed)
      (hledger : next.ledger = s.ledger.remove p ((contents s.que).take removed))
      (hdeliveries : next.deliveries = s.deliveries)
  | copy {args : ReadArgs model} {totalsize ret : Int} {memory copied : List DataT}
      {removal : Nat} (hp : s.pc p = .readCopy args totalsize memory removal)
      (hret : 0 ≤ ret → ret = totalsize ∧ copied = memory.take totalsize.toNat)
      (hpc : next.pc = Function.update s.pc p .idle)
      (hque : next.que = s.que) (hledger : next.ledger = s.ledger)
      (hdeliveries : next.deliveries =
        s.deliveries ++ [⟨p, args.size.toNat, ret, copied, removal⟩])

variable {s next : State model P} {p : P}

theorem enque_effect (h : Inv s) {buf : List DataT} {size : Int}
    (hp : s.pc p = .writeEnque buf size) (hstep : s.enque p buf size = some next) :
    Effect s p next := by
  have hfacts := h.locals p
  rw [hp] at hfacts
  obtain ⟨hlow, hhigh⟩ := hfacts
  obtain ⟨Q, hcall, hwf, -, hcontents⟩ := enque_spec h.que buf hlow (by omega)
  simp only [State.enque, hcall, Except.toOption, Option.map_some, Option.some.injEq] at hstep
  subst hstep
  exact .enque rfl hwf hcontents rfl rfl

theorem deque_some (h : Inv s) {args : ReadArgs model} {totalsize : Int}
    (hp : s.pc p = .readDeque args totalsize) (hstep : s.deque p args totalsize = some next) :
    ∃ (Q : QUE) (removed : Nat), (removed : Int) = min totalsize s.que.num ∧ WellFormed Q ∧
      contents Q = (contents s.que).drop removed ∧
      next = { s.goto p
          (if (removed : Int) ≤ bufSize then
            .readCopy args totalsize ((contents s.que).take removed ++ args.memory.drop removed)
              s.ledger.removals.length
          else .smashed) with
        que := Q
        ledger := s.ledger.remove p ((contents s.que).take removed) } := by
  have hfacts := h.locals p
  rw [hp] at hfacts
  obtain ⟨hlow, hhigh⟩ := hfacts
  have hnum := h.que.num_nonneg
  have hlength := contents_length s.que
  rw [State.deque, toInt32_index hlow hhigh] at hstep
  by_cases hfit : min totalsize s.que.num ≤ args.memory.length
  · obtain ⟨Q, hcall, hwf, -, hcontents⟩ := deque_spec h.que args.memory hlow hfit
    obtain ⟨n, hn⟩ := Int.eq_ofNat_of_zero_le (show 0 ≤ min totalsize s.que.num by omega)
    have htake : ((contents s.que).take n ++ args.memory.drop n).take n =
        (contents s.que).take n := by
      rw [List.take_left']
      rw [List.length_take]
      omega
    simp only [hcall, hn, Int.toNat_natCast, htake, Except.toOption, Option.map_some,
      Option.some.injEq] at hstep hcontents
    exact ⟨Q, n, hn.symm, hwf, hcontents, hstep.symm⟩
  · rw [deque_overrun h.que args.memory (by omega)] at hstep
    simp [Except.toOption] at hstep

theorem deque_effect (h : Inv s) {args : ReadArgs model} {totalsize : Int}
    (hp : s.pc p = .readDeque args totalsize) (hstep : s.deque p args totalsize = some next) :
    Effect s p next := by
  obtain ⟨Q, removed, hremoved, hwf, hcontents, rfl⟩ := deque_some h hp hstep
  refine .deque hp hremoved rfl ?_ hwf hcontents rfl rfl
  split
  · exact .inr rfl
  · exact .inl rfl

theorem copy_some (h : Inv s) {args : ReadArgs model} {totalsize : Int}
    {memory : List DataT} {removal : Nat}
    (hp : s.pc p = .readCopy args totalsize memory removal)
    (hstep : s.copy p args totalsize memory removal = some next) :
    ∃ ret copied, (ret = totalsize ∧ copied = memory.take totalsize.toNat ∨
        ret = -eio ∧ args.room < totalsize) ∧
      next = { s.returns p ret with
        deliveries := s.deliveries ++ [⟨p, args.size.toNat, ret, copied, removal⟩] } := by
  have hfacts := h.locals p
  rw [hp] at hfacts
  obtain ⟨⟨hlow, hhigh⟩, -, -⟩ := hfacts
  have hbytes : (intToSizeT model totalsize).toNat = totalsize.toNat := by
    rw [queSize_eq] at hhigh
    exact intToSizeT_toNat model hlow (by omega)
  rw [State.copy, hbytes, copyToUser] at hstep
  split at hstep
  case isTrue hshort => simp [Except.toOption] at hstep
  case isFalse hlong =>
    simp only [Except.toOption, Option.map_some, Option.some.injEq] at hstep
    subst hstep
    refine ⟨_, _, ?_, rfl⟩
    rw [List.length_take, List.length_take]
    by_cases hroom : totalsize ≤ args.room
    · refine .inl ⟨if_neg (by omega), ?_⟩
      rw [List.take_of_length_le]
      rw [List.length_take]
      omega
    · exact .inr ⟨if_pos (by omega), by omega⟩

theorem copy_effect (h : Inv s) {args : ReadArgs model} {totalsize : Int}
    {memory : List DataT} {removal : Nat}
    (hp : s.pc p = .readCopy args totalsize memory removal)
    (hstep : s.copy p args totalsize memory removal = some next) : Effect s p next := by
  obtain ⟨ret, copied, hret, rfl⟩ := copy_some h hp hstep
  refine .copy hp (fun hok => hret.resolve_right ?_) rfl rfl rfl rfl
  rintro ⟨rfl, -⟩
  exact absurd hok (by decide)

theorem callWrite_effect {buf : Buf} {ubuffer : List DataT} {size : SizeT model}
    (hstep : s.callWrite p buf ubuffer size = some next) : Effect s p next := by
  have hlength := buf_length buf
  have hint : toInt32 (min size.toNat 512 : Nat) = (min size.toNat 512 : Nat) :=
    toInt32_index (by omega) (by rw [queSize_eq]; omega)
  have hfits : ¬ buf.toList.length < min size.toNat 512 := by omega
  simp only [State.callWrite, clampSize_toNat, copyFromUser, if_neg hfits, hint,
    Except.toOption, Option.map_some, Option.some.injEq] at hstep
  subst hstep
  split
  · exact .stay rfl (.plain trivial) rfl rfl rfl
  · refine .stay rfl (.write (by omega) ?_) rfl rfl rfl
    simp only [List.length_append, List.length_take, List.length_drop, hlength]
    omega

theorem step_effect (h : Inv s) {input : Input model}
    (hstep : step s (p, input) = some next) : Effect s p next := by
  have hnum := h.que.num_nonneg
  have hle := h.que.num_le
  have hplain {pc : Pc model} (hpc : pc.Plain) : Effect s p (s.goto p pc) :=
    .stay rfl (.plain hpc) rfl rfl rfl
  cases hp : s.pc p <;> cases input <;>
    simp only [step, hp, reduceCtorEq, Option.some.injEq, Option.ite_none_right_eq_some] at hstep
  case idle.write => exact callWrite_effect hstep
  case readTest.tick =>
    subst hstep
    split <;> exact .stay rfl (.plain trivial) rfl rfl rfl
  case readCompare.tick args =>
    subst hstep
    split
    case isTrue => exact hplain trivial
    case isFalse hge =>
      have hsize : args.size.toNat ≤ s.que.num := by
        rw [getQueNum, intToSizeT_lt hnum hle] at hge
        omega
      rw [queSize_eq] at hle
      rw [sizeTToSsizeT_of_small (by omega)]
      exact .stay rfl (.size hp hsize) rfl rfl rfl
  case readChoose.tick args =>
    subst hstep
    rw [getQueNum, sizeTToSsizeT_intToSizeT hnum hle]
    exact .stay rfl (.num hp) rfl rfl rfl
  case readDeque.tick => exact deque_effect h hp hstep
  case readCopy.tick => exact copy_effect h hp hstep
  case writeEnque.tick => exact enque_effect h hp hstep
  case pollTest.tick =>
    subst hstep
    split <;> exact .stay rfl (.plain trivial) rfl rfl rfl
  all_goals first
    | (subst hstep; exact .stay rfl (.plain trivial) rfl rfl rfl)
    | (obtain ⟨-, rfl⟩ := hstep; exact hplain trivial)

/-! ## The invariant of all runs -/

omit [DecidableEq P] in
theorem LocalFacts.of_plain {ledger : Ledger P DataT} {deliveries : List (Delivery P)} {q : P}
    {pc : Pc model} (hpc : pc.Plain) : LocalFacts ledger deliveries q pc := by
  cases pc <;> trivial

omit [DecidableEq P] in
theorem LocalFacts.mono {ledger ledger' : Ledger P DataT}
    {deliveries deliveries' : List (Delivery P)} {q : P} {pc : Pc model}
    (h : LocalFacts ledger deliveries q pc)
    (hledger : ledger.Extends ledger')
    (hdeliveries : ∀ delivery ∈ deliveries', delivery.reader = q → delivery ∈ deliveries) :
    LocalFacts ledger' deliveries' q pc := by
  cases pc with
  | readCopy args totalsize memory removal =>
      obtain ⟨hrange, ⟨bytes, hentry, hbytes⟩, hfresh⟩ := h
      refine ⟨hrange, ⟨bytes, hledger _ _ hentry, hbytes⟩, fun delivery hmem hq => ?_⟩
      exact hfresh delivery (hdeliveries delivery hmem hq) hq
  | _ => exact h

theorem locals_update {ledger : Ledger P DataT} {deliveries : List (Delivery P)}
    {pc : Pc model} (h : Inv s) (hpc : next.pc = Function.update s.pc p pc)
    (hledger : s.ledger.Extends ledger)
    (hdeliveries : ∀ delivery ∈ deliveries, delivery.reader ≠ p → delivery ∈ s.deliveries)
    (hself : LocalFacts ledger deliveries p pc) :
    ∀ q, LocalFacts ledger deliveries q (next.pc q) := by
  rw [hpc]
  refine (Function.forall_update_iff s.pc (LocalFacts ledger deliveries)).mpr
    ⟨hself, fun q hq => ?_⟩
  refine (h.locals q).mono hledger fun delivery hmem hreader => ?_
  exact hdeliveries delivery hmem (hreader ▸ hq)

omit [DecidableEq P] in
theorem Entry.facts (h : Inv s) {pc : Pc model} (hentry : Entry s p pc) :
    LocalFacts s.ledger s.deliveries p pc := by
  have hnum := h.que.num_nonneg
  have hle := h.que.num_le
  cases hentry with
  | plain hplain => exact .of_plain hplain
  | size _ hsize => exact ⟨by omega, by omega⟩
  | num _ => exact ⟨hnum, hle⟩
  | write hlow hhigh => exact ⟨hlow, hhigh⟩

theorem inv_of_effect (h : Inv s) (heffect : Effect s p next) : Inv next := by
  have hlength := contents_length s.que
  have hnum := h.que.num_nonneg
  cases heffect with
  | stay hpc hentry hque hledger hdeliveries =>
      refine ⟨hque ▸ h.que, by rw [hledger, hque]; exact h.balanced, ?_, ?_, ?_⟩
      · rw [hledger, hdeliveries]
        exact locals_update h hpc (.refl _) (fun _ hd _ => hd) (hentry.facts h)
      · rw [hledger, hdeliveries]
        exact h.recorded
      · rw [hdeliveries]
        exact h.once
  | enque hpc hque hcontents hledger hdeliveries =>
      refine ⟨hque, ?_, ?_, ?_, ?_⟩
      · rw [hledger, hcontents]
        exact h.balanced.accept _
      · rw [hledger, hdeliveries]
        exact locals_update h hpc (.refl _) (fun _ hd _ => hd) trivial
      · rw [hledger, hdeliveries]
        exact h.recorded
      · rw [hdeliveries]
        exact h.once
  | @deque args totalsize removed pc hp hremoved hpc hentry hque hcontents hledger hdeliveries =>
      have hkept := s.ledger.extends_remove p ((contents s.que).take removed)
      refine ⟨hque, ?_, ?_, ?_, ?_⟩
      · rw [hledger, hcontents]
        exact h.balanced.remove p removed
      · rw [hledger, hdeliveries]
        refine locals_update h hpc hkept (fun _ hd _ => hd) ?_
        rcases hentry with rfl | rfl
        · trivial
        · have hfacts := h.locals p
          rw [hp] at hfacts
          refine ⟨hfacts, ⟨_, Ledger.removals_remove_self _ _ _, ?_⟩, ?_⟩
          · rw [List.take_left' rfl]
          · intro delivery hmem _ heq
            obtain ⟨bytes, hentry⟩ := h.recorded delivery hmem
            rw [heq] at hentry
            simp at hentry
      · rw [hledger, hdeliveries]
        intro delivery hmem
        obtain ⟨bytes, hentry⟩ := h.recorded delivery hmem
        exact ⟨bytes, hkept _ _ hentry⟩
      · rw [hdeliveries]
        exact h.once
  | @copy args totalsize ret memory copied removal hp hret hpc hque hledger hdeliveries =>
      have hfacts := h.locals p
      rw [hp] at hfacts
      obtain ⟨-, ⟨bytes, hentry, -⟩, hfresh⟩ := hfacts
      refine ⟨hque ▸ h.que, by rw [hledger, hque]; exact h.balanced, ?_, ?_, ?_⟩
      · rw [hledger, hdeliveries]
        refine locals_update h hpc (.refl _) (fun delivery hmem hreader => ?_) trivial
        rcases List.mem_append.mp hmem with hold | hnew
        · exact hold
        · rw [List.mem_singleton] at hnew
          subst hnew
          exact absurd rfl hreader
      · rw [hledger, hdeliveries]
        intro delivery hmem
        rcases List.mem_append.mp hmem with hold | hnew
        · exact h.recorded delivery hold
        · rw [List.mem_singleton] at hnew
          subst hnew
          exact ⟨bytes, hentry⟩
      · rw [hdeliveries, List.map_append, List.nodup_append]
        refine ⟨h.once, by simp, ?_⟩
        intro i hold j hnew heq
        obtain ⟨delivery, hmem, rfl⟩ := List.mem_map.mp hold
        simp only [List.map_cons, List.map_nil, List.mem_singleton] at hnew
        -- the entry names its reader, and `p` has not delivered it before
        obtain ⟨bytes', hentry'⟩ := h.recorded delivery hmem
        rw [heq, hnew, hentry] at hentry'
        simp only [Option.some.injEq, Prod.mk.injEq] at hentry'
        exact hfresh delivery hmem hentry'.1.symm (heq.trans hnew)

theorem inv_init {s : State model P} (hs : (system model P).init s) : Inv s := by
  obtain ⟨⟨memory, hcreate⟩, hledger, hdeliveries, hidle⟩ := hs
  obtain ⟨hwf, hempty⟩ := init_wellFormed (.inl ⟨memory, hcreate⟩)
  refine ⟨hwf, ?_, fun p => ?_, ?_, ?_⟩
  · rw [hledger, hempty]
    exact .empty
  · rw [hidle p]
    trivial
  · simp [hdeliveries]
  · simp [hdeliveries]

theorem inv_of_reachable {s : State model P} (h : (system model P).Reachable s) : Inv s :=
  h.invariant Inv (fun _ => inv_init) fun _ _ _ hinv hstep =>
    inv_of_effect hinv (step_effect hinv hstep)

end FarsightDriver.Fifo.Blocking
