import FarsightDriver.Fifo.Blocking

/-!
# The stream of a single reader

One process calls `myread` and any number of processes call `mywrite`.  While no
call of the reader has failed or stored past its buffer, what its calls stored is
what the queue accepted, in order: nothing is lost, repeated or exchanged.  A call
fails only when the user has no room for its request or for what its second look finds.
-/

namespace FarsightDriver.Fifo.Blocking

open FarsightDriver.Foundation
open FarsightDriver.Que

variable {model : DataModel} {P : Type*} [DecidableEq P]

/-- Only `p` calls `myread`. -/
def OnlyReader (p : P) (_ : State model P) : P × Input model → Prop
  | (q, .read _) => q = p
  | _ => True

instance (p : P) (s : State model P) : (label : P × Input model) → Decidable (OnlyReader p s label)
  | (_, .read _) => inferInstanceAs (Decidable (_ = _))
  | (_, .write _ _ _) | (_, .poll) | (_, .tick) | (_, .timeout) => .isTrue trivial

def Pc.reading : Pc model → Bool
  | .readPrepare _ | .readTest _ | .readSleep _ | .readCompare _ | .readChoose _
  | .readDeque _ _ | .readCopy _ _ _ _ | .smashed => true
  | .idle | .writeEnque _ _ | .writeWakeUp _ | .pollPrepare | .pollTest | .pollSleep => false

/-- What `myread` has removed and not yet stored. -/
def Pc.inFlight : Pc model → List DataT
  | .readCopy _ totalsize memory _ => memory.take totalsize.toNat
  | _ => []

def Pc.Chosen (num : Int) : Pc model → Prop
  | .readDeque _ totalsize => totalsize ≤ num
  | _ => True

def State.delivered (s : State model P) : List DataT :=
  (s.deliveries.map Delivery.copied).flatten

structure Streams (p : P) (s : State model P) : Prop where
  others : ∀ q, q ≠ p → (s.pc q).reading = false
  chosen : (s.pc p).Chosen s.que.num
  stream : s.pc p ≠ .smashed → (∀ delivery ∈ s.deliveries, 0 ≤ delivery.ret) →
    s.ledger.accepted = s.delivered ++ (s.pc p).inFlight ++ contents s.que

variable {s next : State model P} {p q : P} {input : Input model}

/-- Only a call of `myread` leads into `myread`. -/
theorem reading_of_step (hstep : step s (q, input) = some next)
    (hout : (s.pc q).reading = false) (hinput : ∀ args, input ≠ .read args) :
    (next.pc q).reading = false := by
  have hmoved {t : State model P} (pc : Pc model) (hpc : pc.reading = false)
      (ht : t.pc = Function.update s.pc q pc) : (t.pc q).reading = false := by
    rw [ht, Function.update_self]
    exact hpc
  cases hp : s.pc q <;> cases input <;>
    simp only [step, hp, reduceCtorEq, Option.some.injEq, Option.ite_none_right_eq_some] at hstep
  case idle.read args => exact absurd rfl (hinput args)
  case idle.write =>
    obtain ⟨copied, -, rfl⟩ := Option.map_eq_some_iff.mp hstep
    dsimp only
    split
    · exact hmoved .idle rfl rfl
    · exact hmoved _ rfl rfl
  case writeEnque.tick =>
    obtain ⟨enqued, -, rfl⟩ := Option.map_eq_some_iff.mp hstep
    exact hmoved _ rfl rfl
  case pollTest.tick =>
    subst hstep
    split
    · exact hmoved .idle rfl rfl
    · exact hmoved _ rfl rfl
  case idle.poll | pollPrepare.tick => exact hstep ▸ hmoved _ rfl rfl
  case writeWakeUp.tick | pollSleep.timeout => exact hstep ▸ hmoved .idle rfl rfl
  case pollSleep.tick => exact hstep.2 ▸ hmoved _ rfl rfl
  all_goals simp [hp, Pc.reading] at hout

theorem pc_of_effect (h : Effect s q next) {r : P} (hr : r ≠ q) : next.pc r = s.pc r := by
  cases h with
  | stay hpc | enque hpc | deque _ _ hpc | copy _ _ hpc => rw [hpc, Function.update_of_ne hr]

/-- A process outside of `myread` adds to the end of the queue at most. -/
theorem contents_of_effect (h : Effect s q next) (hout : (s.pc q).reading = false) :
    contents s.que <+: contents next.que := by
  cases h with
  | stay _ _ hque => simp only [hque, List.prefix_rfl]
  | enque _ _ hcontents => exact hcontents ▸ List.prefix_append _ _
  | deque hp => simp [hp, Pc.reading] at hout
  | copy hp => simp [hp, Pc.reading] at hout

theorem not_smashed (hstep : step s (q, input) = some next) : s.pc q ≠ .smashed := by
  intro hp
  cases input <;> simp [step, hp] at hstep

/-- A step that delivers nothing is not the end of a read. -/
theorem inFlight_of_kept (hstep : step s (q, input) = some next)
    (hkept : next.deliveries = s.deliveries) : (s.pc q).inFlight = [] := by
  cases hp : s.pc q with
  | readCopy args totalsize memory removal =>
      cases input <;> simp only [step, hp, reduceCtorEq] at hstep
      obtain ⟨copied, -, rfl⟩ := Option.map_eq_some_iff.mp hstep
      simp at hkept
  | _ => rfl

omit [DecidableEq P] in
theorem Entry.chosen {pc : Pc model} (hentry : Entry s q pc) :
    pc.Chosen s.que.num ∧ pc.inFlight = [] := by
  cases hentry with
  | plain hplain => cases pc <;> first | exact ⟨trivial, rfl⟩ | exact hplain.elim
  | size hp hsize => exact ⟨hsize, rfl⟩
  | num hp => exact ⟨le_refl _, rfl⟩
  | write hlow hhigh => exact ⟨trivial, rfl⟩

theorem Streams.init {s : State model P} (hs : (system model P).init s) : Streams p s := by
  obtain ⟨⟨memory, hcreate⟩, hledger, hdeliveries, hidle⟩ := hs
  obtain ⟨-, hempty⟩ := init_wellFormed (.inl ⟨memory, hcreate⟩)
  refine ⟨fun q _ => by rw [hidle q]; rfl, by rw [hidle p]; trivial, fun _ _ => ?_⟩
  rw [State.delivered, hledger, hdeliveries, hidle p, hempty]
  rfl

/-- A step of a process that does not read adds to the end of the queue at most. -/
theorem Streams.other (h : Streams p s) (hinv : Inv s) (hq : q ≠ p)
    (hinput : ∀ args, input ≠ .read args) (hstep : step s (q, input) = some next) :
    Streams p next := by
  have hout := h.others q hq
  have hnext := reading_of_step hstep hout hinput
  have hmoved {pc : Pc model} (hpc : next.pc = Function.update s.pc q pc) :
      next.pc p = s.pc p ∧ ∀ r, r ≠ p → (next.pc r).reading = false := by
    refine ⟨by rw [hpc, Function.update_of_ne hq.symm], fun r hr => ?_⟩
    by_cases hrq : r = q
    · exact hrq ▸ hnext
    · rw [hpc, Function.update_of_ne hrq]
      exact h.others r hr
  cases step_effect hinv hstep with
  | stay hpc hentry hque hledger hdeliveries =>
      obtain ⟨hself, hothers⟩ := hmoved hpc
      refine ⟨hothers, by rw [hself, hque]; exact h.chosen, ?_⟩
      rw [State.delivered, hself, hque, hledger, hdeliveries]
      exact h.stream
  | @enque totalsize items hpc hque hcontents hledger hdeliveries =>
      obtain ⟨hself, hothers⟩ := hmoved hpc
      have hmore : s.que.num ≤ next.que.num := by
        have hold := contents_length s.que
        have hnew := contents_length next.que
        have hnonneg := hque.num_nonneg
        rw [hcontents, List.length_append] at hnew
        omega
      refine ⟨hothers, ?_, fun hsafe hok => ?_⟩
      · rw [hself]
        have hchosen := h.chosen
        cases hp : s.pc p with
        | readDeque args totalsize =>
            rw [hp] at hchosen
            exact hchosen.trans hmore
        | _ => trivial
      · rw [hself] at hsafe
        rw [hdeliveries] at hok
        rw [State.delivered, hself, hledger, hdeliveries, hcontents, ← List.append_assoc,
          ← State.delivered, ← h.stream hsafe hok]
        rfl
  | deque hp => simp [hp, Pc.reading] at hout
  | copy hp => simp [hp, Pc.reading] at hout

theorem Streams.own (h : Streams p s) (hinv : Inv s) (hstep : step s (p, input) = some next) :
    Streams p next := by
  have hsafe := not_smashed hstep
  have hothers {pc : Pc model} (hpc : next.pc = Function.update s.pc p pc) :
      ∀ r, r ≠ p → (next.pc r).reading = false := by
    intro r hr
    rw [hpc, Function.update_of_ne hr]
    exact h.others r hr
  cases step_effect hinv hstep with
  | stay hpc hentry hque hledger hdeliveries =>
      obtain ⟨hchosen, hflight⟩ := hentry.chosen
      have hself := congrFun hpc p
      rw [Function.update_self] at hself
      refine ⟨hothers hpc, by rw [hself, hque]; exact hchosen, fun _ hok => ?_⟩
      rw [hdeliveries] at hok
      rw [State.delivered, hself, hque, hledger, hdeliveries, hflight, ← State.delivered,
        h.stream hsafe hok, inFlight_of_kept hstep hdeliveries]
  | @enque totalsize items hpc hque hcontents hledger hdeliveries =>
      have hself := congrFun hpc p
      rw [Function.update_self] at hself
      refine ⟨hothers hpc, by rw [hself]; trivial, fun _ hok => ?_⟩
      rw [hdeliveries] at hok
      rw [State.delivered, hself, hledger, hdeliveries, hcontents, ← List.append_assoc,
        ← State.delivered, Ledger.accept, h.stream hsafe hok, inFlight_of_kept hstep hdeliveries]
      rfl
  | @deque args totalsize removed pc hp hremoved hpc hentry hque hcontents hledger hdeliveries =>
      have hself := congrFun hpc p
      rw [Function.update_self] at hself
      have hchosen := h.chosen
      rw [hp] at hchosen
      have htotal : totalsize.toNat = removed := by
        have hle : totalsize ≤ s.que.num := hchosen
        omega
      have hlength := contents_length s.que
      refine ⟨hothers hpc, ?_, fun hkeeps hok => ?_⟩
      · rw [hself]
        rcases hentry with rfl | rfl <;> trivial
      · rw [hself] at hkeeps
        obtain rfl := hentry.resolve_left hkeeps
        have htaken : ((contents s.que).take removed ++ args.memory.drop removed).take
            totalsize.toNat = (contents s.que).take removed := by
          rw [htotal, List.take_left']
          rw [List.length_take]
          have hnum := hinv.que.num_nonneg
          omega
        rw [hdeliveries] at hok
        rw [State.delivered, hself, hledger, hdeliveries, hcontents, Pc.inFlight, htaken,
          List.append_assoc, List.take_append_drop, ← State.delivered, Ledger.remove,
          h.stream hsafe hok, inFlight_of_kept hstep hdeliveries, List.append_nil]
  | @copy args totalsize ret memory copied removal hp hret hpc hque hledger hdeliveries =>
      have hself := congrFun hpc p
      rw [Function.update_self] at hself
      refine ⟨hothers hpc, by rw [hself]; trivial, fun _ hok => ?_⟩
      rw [hdeliveries] at hok
      obtain ⟨-, rfl⟩ := hret (hok _ (List.mem_append_right _ (List.mem_singleton_self _)))
      have hold := h.stream hsafe fun delivery hmem => hok delivery (List.mem_append_left _ hmem)
      rw [hp] at hold
      rw [State.delivered, hself, hledger, hque, hdeliveries, hold]
      simp [State.delivered, Pc.inFlight]

theorem streams_of_reachable (h : (system model P).ReachableWith (OnlyReader p) s) :
    Inv s ∧ Streams p s := by
  refine h.invariant (fun s => Inv s ∧ Streams p s) (fun s hs => ⟨inv_init hs, .init hs⟩)
    fun s label next hi hguard hstep => ?_
  obtain ⟨q, input⟩ := label
  refine ⟨inv_of_effect hi.1 (step_effect hi.1 hstep), ?_⟩
  by_cases hq : q = p
  · subst hq
    exact hi.2.own hi.1 hstep
  · refine hi.2.other hi.1 hq (fun args hread => ?_) hstep
    subst hread
    exact hq hguard

theorem stream_intact (h : (system model P).ReachableWith (OnlyReader p) s)
    (hsafe : s.pc p ≠ .smashed) (hok : ∀ delivery ∈ s.deliveries, 0 ≤ delivery.ret) :
    s.ledger.accepted = s.delivered ++ (s.pc p).inFlight ++ contents s.que :=
  (streams_of_reachable h).2.stream hsafe hok

/-- The reader takes one of two bytes while the writer adds a third. -/
def readBetweenWrites : List (Bool × Input .ilp32) :=
  [(false, .write blankBuf [7, 8] 2), (false, .tick), (false, .tick),
    (true, .read ⟨1, blankBuf, [], 1⟩), (true, .tick), (true, .tick), (true, .tick),
    (false, .write blankBuf [9] 1), (false, .tick), (true, .tick), (true, .tick)]

theorem reader_keeps_order :
    ∃ s, (system .ilp32 Bool).run created readBetweenWrites = some s ∧
      s.ledger.accepted = [7] ++ [] ++ contents s.que := by
  have hdeliveries : ((system .ilp32 Bool).run created readBetweenWrites).map
      (fun s => (s.deliveries, (s.pc true).reading)) = some ([⟨true, 1, 1, [7], 0⟩], false) := by
    decide +kernel
  obtain ⟨s, hrun, hs⟩ := Option.map_eq_some_iff.mp hdeliveries
  obtain ⟨hlist, hidle⟩ := Prod.mk.inj hs
  have hstream := stream_intact (p := true)
    (System.ReachableWith.run (.init created_init) readBetweenWrites (by decide +kernel) hrun)
    (fun hsmashed => by simp [hsmashed, Pc.reading] at hidle) (by simp [hlist])
  have hflight : (s.pc true).inFlight = [] := by
    cases hpc : s.pc true <;> simp_all [Pc.inFlight, Pc.reading]
  refine ⟨s, hrun, ?_⟩
  rw [hstream, hflight, State.delivered, hlist]
  rfl

/-! ## Reads that do not fail -/

def Pc.LookFits (num : Int) : Pc model → Prop
  | .readChoose args => num ≤ args.room
  | _ => True

instance (num : Int) : (pc : Pc model) → Decidable (pc.LookFits num)
  | .readChoose args => inferInstanceAs (Decidable (num ≤ args.room))
  | .idle | .readPrepare _ | .readTest _ | .readSleep _ | .readCompare _ | .readDeque _ _
  | .readCopy _ _ _ _ | .smashed | .writeEnque _ _ | .writeWakeUp _ | .pollPrepare | .pollTest
  | .pollSleep => .isTrue trivial

/-- The user pointer has room for the request, and for what the second look finds. -/
def ReadsHaveRoom (s : State model P) : P × Input model → Prop
  | (_, .read args) => args.size.toNat ≤ args.room
  | (q, _) => (s.pc q).LookFits s.que.num

def Pc.InRoom : Pc model → Prop
  | .readPrepare args | .readTest args | .readSleep args | .readCompare args
  | .readChoose args => args.size.toNat ≤ args.room
  | .readDeque args totalsize | .readCopy args totalsize _ _ => totalsize ≤ args.room
  | .idle | .smashed | .writeEnque _ _ | .writeWakeUp _ | .pollPrepare | .pollTest
  | .pollSleep => True

structure Served (s : State model P) : Prop where
  inRoom : ∀ q, (s.pc q).InRoom
  served : ∀ delivery ∈ s.deliveries, 0 ≤ delivery.ret

theorem Served.step (h : Served s) (hinv : Inv s) (hguard : ReadsHaveRoom s (q, input))
    (hstep : step s (q, input) = some next) : Served next := by
  have hnum := hinv.que.num_nonneg
  have hle := hinv.que.num_le
  have hmoved {t : State model P} (pc : Pc model) (hpc : t.pc = Function.update s.pc q pc)
      (hdeliveries : t.deliveries = s.deliveries) (hself : pc.InRoom) : Served t := by
    refine ⟨?_, hdeliveries ▸ h.served⟩
    rw [hpc]
    exact (Function.forall_update_iff s.pc fun _ pc => pc.InRoom).mpr
      ⟨hself, fun r _ => h.inRoom r⟩
  have hroom := h.inRoom q
  cases hp : s.pc q <;> cases input <;> rw [hp] at hroom <;>
    simp only [Blocking.step, hp, reduceCtorEq, Option.some.injEq,
      Option.ite_none_right_eq_some] at hstep
  case idle.read => exact hstep ▸ hmoved _ rfl rfl hguard
  case idle.write =>
    obtain ⟨copied, -, rfl⟩ := Option.map_eq_some_iff.mp hstep
    dsimp only
    split <;> exact hmoved _ rfl rfl trivial
  case readPrepare.tick => exact hstep ▸ hmoved _ rfl rfl hroom
  case readTest.tick =>
    subst hstep
    split <;> exact hmoved _ rfl rfl hroom
  case readSleep.tick => exact hstep.2 ▸ hmoved _ rfl rfl hroom
  case readCompare.tick args =>
    subst hstep
    by_cases hless : intToSizeT model (getQueNum s.que) < args.size
    · exact hmoved _ (congrArg (Function.update s.pc q) (if_pos hless)) rfl hroom
    · refine hmoved _ (congrArg (Function.update s.pc q) (if_neg hless)) rfl ?_
      rw [getQueNum, intToSizeT_lt hnum hle] at hless
      change sizeTToSsizeT args.size ≤ (args.room : Int)
      have hsize : args.size.toNat ≤ args.room := hroom
      rw [queSize_eq] at hle
      rw [sizeTToSsizeT_of_small (by omega)]
      omega
  case readChoose.tick args =>
    subst hstep
    have hlook : (s.pc q).LookFits s.que.num := hguard
    rw [hp] at hlook
    refine hmoved _ rfl rfl ?_
    rw [getQueNum, sizeTToSsizeT_intToSizeT hnum hle]
    exact hlook
  case readDeque.tick args totalsize =>
    obtain ⟨Q, removed, -, -, -, rfl⟩ := deque_some hinv hp hstep
    refine hmoved _ rfl rfl ?_
    split
    · exact hroom
    · trivial
  case readCopy.tick =>
    obtain ⟨⟨hlow, -⟩, -, -⟩ : LocalFacts s.ledger s.deliveries q _ := hp ▸ hinv.locals q
    obtain ⟨ret, copied, hret, rfl⟩ := copy_some hinv hp hstep
    obtain ⟨rfl, -⟩ := hret.resolve_right fun hfailed => absurd hroom (not_le.mpr hfailed.2)
    refine ⟨(Function.forall_update_iff s.pc fun _ pc => pc.InRoom).mpr
      ⟨trivial, fun r _ => h.inRoom r⟩, ?_⟩
    exact List.forall_mem_append.mpr ⟨h.served, List.forall_mem_singleton.mpr hlow⟩
  case writeEnque.tick =>
    obtain ⟨enqued, -, rfl⟩ := Option.map_eq_some_iff.mp hstep
    exact hmoved _ rfl rfl trivial
  case pollTest.tick =>
    subst hstep
    split <;> exact hmoved _ rfl rfl trivial
  case pollSleep.tick => exact hstep.2 ▸ hmoved _ rfl rfl trivial
  all_goals exact hstep ▸ hmoved _ rfl rfl trivial

theorem Served.init {s : State model P} (hs : (system model P).init s) : Served s := by
  obtain ⟨-, -, hdeliveries, hidle⟩ := hs
  refine ⟨fun q => ?_, ?_⟩
  · rw [hidle q]
    trivial
  · simp [hdeliveries]

/-- No read fails whose buffer has room for its request and for what its second look finds. -/
theorem no_read_failed (h : (system model P).ReachableWith ReadsHaveRoom s) :
    ∀ delivery ∈ s.deliveries, 0 ≤ delivery.ret := by
  have hserved : Inv s ∧ Served s :=
    h.invariant (fun s => Inv s ∧ Served s) (fun s hs => ⟨inv_init hs, .init hs⟩)
      fun s label next hi hguard hstep =>
        ⟨inv_of_effect hi.1 (step_effect hi.1 hstep), hi.2.step hi.1 hguard hstep⟩
  exact hserved.2.served

end FarsightDriver.Fifo.Blocking
