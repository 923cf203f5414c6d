import FarsightDriver.Fifo.Signals
import FarsightDriver.Fifo.Stream

/-!
# What a single listener leaves behind

`mygets` reads once for each signal and takes at most 100 bytes, while several
writes may share a signal.  When the program is back in its loop and nothing is
on its way to it, the queue holds what the last handler found, less 100 bytes.
-/

namespace FarsightDriver.Fifo.Signals

open FarsightDriver.Foundation
open FarsightDriver.Que
open FarsightDriver.Fifo.Blocking

variable {model : DataModel} {P : Type*} [DecidableEq P]

/-- Only the handler of `p` reads. -/
def OnlyListener (p : P) (s : State model P) : Label model P → Prop
  | .driver _ (.read _) => False
  | .deliver q _ => q = p ∨ s.app q ≠ .looping
  | _ => True

instance (p : P) (s : State model P) : (label : Label model P) → Decidable (OnlyListener p s label)
  | .driver _ (.read _) => .isFalse id
  | .deliver _ _ => inferInstanceAs (Decidable (_ ∨ _))
  | .driver _ (.write _ _ _) | .driver _ .poll | .driver _ .tick | .driver _ .timeout
  | .killFasync _ | .main _ | .sigreturn _ | .exit _ => .isTrue trivial

/-- The second look of a read finds no more than its buffer has room for. -/
def LooksFit (s : State model P) : Label model P → Prop
  | .driver q _ => (s.base.pc q).LookFits s.base.que.num
  | _ => True

instance (s : State model P) : (label : Label model P) → Decidable (LooksFit s label)
  | .driver _ _ => inferInstanceAs (Decidable (Pc.LookFits _ _))
  | .killFasync _ | .main _ | .deliver _ _ | .sigreturn _ | .exit _ => .isTrue trivial

/-- What a handler that found `found` bytes leaves. -/
def rest (found : Int) : Int := found - min found 100

/-- A handler in progress, when nothing was added since it began. -/
def HandlerLeft (num found : Int) : Pc model → Prop
  | .readPrepare args | .readTest args | .readSleep args | .readCompare args =>
      args.size = 100 ∧ num = found
  | .readChoose _ => num = found ∧ num < 100
  | .readDeque _ totalsize => num = found ∧ totalsize = min found 100
  | .readCopy _ _ _ _ | .idle => num = rest found
  | .smashed | .writeEnque _ _ | .writeWakeUp _ | .pollPrepare | .pollTest | .pollSleep => True

def Leftover (s : State model P) (p : P) : Prop :=
  match s.app p with
  | .async => s.ran p = false ∧ s.base.que.num = s.found p
  | .looping => s.base.que.num = if s.ran p then rest (s.found p) else s.found p
  | .handling => s.ran p = true ∧ HandlerLeft s.base.que.num (s.found p) (s.base.pc p)
  | .outside | .opened | .owned | .dead => True

structure Leaves (p : P) (s : State model P) : Prop where
  idle : s.app p ≠ .outside → s.app p ≠ .handling → s.base.pc p = .idle
  reads : s.app p = .handling → (s.base.pc p).reading = true ∨ s.base.pc p = .idle
  killing : s.app p ≠ .outside → s.killing p = false
  heard : (s.app p).listens = true → s.heard p ≤ s.base.ledger.accepted.length
  left : (s.app p).listens = true → s.heard p = s.base.ledger.accepted.length → Leftover s p

variable {s next : State model P} {p q : P}

/-! ## One step of the handler -/

/-- A step of a read goes on in the read or ends it, and adds nothing to the queue. -/
theorem tick_reading {s next : Blocking.State model P} (hread : (s.pc p).reading = true)
    (hstep : Blocking.step s (p, .tick) = some next) :
    ((next.pc p).reading = true ∨ next.pc p = .idle) ∧
      next.ledger.accepted = s.ledger.accepted := by
  have hmoved {t : Blocking.State model P} {pc : Pc model} (hpc : pc.reading = true)
      (ht : t.pc = Function.update s.pc p pc) : (t.pc p).reading = true ∨ t.pc p = .idle := by
    rw [ht, Function.update_self]
    exact .inl hpc
  cases hp : s.pc p <;> simp only [hp, Pc.reading, Bool.false_eq_true] at hread <;>
    simp only [Blocking.step, hp, reduceCtorEq, Option.some.injEq,
      Option.ite_none_right_eq_some] at hstep
  case readPrepare => exact hstep ▸ ⟨hmoved rfl rfl, rfl⟩
  case readTest =>
    subst hstep
    split <;> exact ⟨hmoved rfl rfl, rfl⟩
  case readSleep => exact hstep.2 ▸ ⟨hmoved rfl rfl, rfl⟩
  case readCompare =>
    subst hstep
    split <;> exact ⟨hmoved rfl rfl, rfl⟩
  case readChoose => exact hstep ▸ ⟨hmoved rfl rfl, rfl⟩
  case readDeque =>
    obtain ⟨dequed, -, rfl⟩ := Option.map_eq_some_iff.mp hstep
    refine ⟨hmoved ?_ rfl, rfl⟩
    split <;> rfl
  case readCopy =>
    obtain ⟨copied, -, rfl⟩ := Option.map_eq_some_iff.mp hstep
    exact ⟨.inr (Function.update_self ..), rfl⟩

theorem HandlerLeft.tick {s next : Blocking.State model P} (hinv : Inv s) {found : Int}
    (h : HandlerLeft s.que.num found (s.pc p)) (hread : (s.pc p).reading = true)
    (hstep : Blocking.step s (p, .tick) = some next) :
    HandlerLeft next.que.num found (next.pc p) := by
  have hnum := hinv.que.num_nonneg
  have hle := hinv.que.num_le
  have hmoved {t : Blocking.State model P} (pc : Pc model)
      (ht : t.pc = Function.update s.pc p pc) (hque : t.que = s.que)
      (hpc : HandlerLeft s.que.num found pc) : HandlerLeft t.que.num found (t.pc p) := by
    rw [ht, hque, Function.update_self]
    exact hpc
  cases hp : s.pc p <;> rw [hp] at h <;> simp only [hp, Pc.reading, Bool.false_eq_true] at hread
  case readDeque args totalsize =>
    simp only [Blocking.step, hp] at hstep
    obtain ⟨hfound, htotal⟩ := h
    obtain ⟨Q, removed, hremoved, hwf, hcontents, rfl⟩ := deque_some hinv hp hstep
    have hleft : Q.num = s.que.num - removed := by
      have hlength := congrArg List.length hcontents
      have hnonneg := hwf.num_nonneg
      rw [List.length_drop, contents_length, contents_length] at hlength
      omega
    have hself : HandlerLeft Q.num found (if (removed : Int) ≤ bufSize then
        .readCopy args totalsize ((contents s.que).take removed ++ args.memory.drop removed)
          s.ledger.removals.length
        else .smashed) := by
      split
      · change Q.num = rest found
        rw [rest]
        omega
      · trivial
    change HandlerLeft Q.num found (Function.update s.pc p _ p)
    rw [Function.update_self]
    exact hself
  case readCopy args totalsize memory removal =>
    simp only [Blocking.step, hp] at hstep
    obtain ⟨copied, -, rfl⟩ := Option.map_eq_some_iff.mp hstep
    exact hmoved .idle rfl rfl h
  all_goals
    simp only [Blocking.step, hp, reduceCtorEq, Option.some.injEq, Option.ite_none_right_eq_some]
      at hstep
  case readPrepare args => exact hstep ▸ hmoved _ rfl rfl h
  case readTest args =>
    subst hstep
    split <;> exact hmoved _ rfl rfl h
  case readSleep args => exact hstep.2 ▸ hmoved _ rfl rfl h
  case readCompare args =>
    obtain ⟨hsize, hfound⟩ := h
    have hhundred : args.size.toNat = 100 := by
      rw [hsize]
      cases model <;> rfl
    have hless := intToSizeT_lt hnum hle args.size
    rw [hhundred] at hless
    subst hstep
    by_cases hshort : intToSizeT model s.que.num < args.size
    · refine hmoved _ (congrArg (Function.update s.pc p) (if_pos hshort)) rfl ⟨hfound, ?_⟩
      exact_mod_cast hless.mp hshort
    · refine hmoved _ (congrArg (Function.update s.pc p) (if_neg hshort)) rfl ⟨hfound, ?_⟩
      have hmany : ¬ s.que.num < (100 : Nat) := fun hnum => hshort (hless.mpr hnum)
      rw [sizeTToSsizeT_of_small (by omega), hhundred]
      omega
  case readChoose args =>
    obtain ⟨hfound, hless⟩ := h
    subst hstep
    refine hmoved _ rfl rfl ⟨hfound, ?_⟩
    rw [getQueNum, sizeTToSsizeT_intToSizeT hnum hle]
    omega

/-! ## All steps -/

/-- The driver makes a run of its own, with the reads that the handlers make. -/
theorem base_reachable {guard : State model P → Label model P → Prop}
    {baseGuard : Blocking.State model P → P × Input model → Prop}
    (hdriver : ∀ s q input, guard s (.driver q input) → baseGuard s.base (q, input))
    (hread : ∀ s q args, guard s (.deliver q args) → s.app q = .looping → args.size = 100 →
      100 ≤ args.room → baseGuard s.base (q, .read args))
    (h : (system model P).ReachableWith guard s) :
    (Blocking.system model P).ReachableWith baseGuard s.base := by
  induction h with
  | init hinit => exact .init hinit.1
  | @step s next label _ hguard hstep ih =>
      cases step_cases hstep with
      | ran hkilling hrun hbase => exact ih.step (hdriver _ _ _ hguard) hbase
      | handled happ hpending hsize hroom hbase =>
          exact ih.step (hread _ _ _ hguard happ hsize hroom) hbase
      | told | opened | owned | registered | installed | terminated | returned | exited =>
          exact ih

theorem base_streams (h : (system model P).ReachableWith (OnlyListener p) s) :
    (Blocking.system model P).ReachableWith (OnlyReader p) s.base := by
  refine base_reachable (fun s q input hguard => ?_) (fun s q args hguard happ _ _ => ?_) h
  · cases input with
    | read args => exact hguard.elim
    | write | poll | tick | timeout => trivial
  · exact hguard.resolve_right (not_not.mpr happ)

theorem base_served
    (h : (system model P).ReachableWith
      (fun s label => OnlyListener p s label ∧ LooksFit s label) s) :
    (Blocking.system model P).ReachableWith ReadsHaveRoom s.base := by
  refine base_reachable (fun s q input hguard => ?_) (fun s q args _ _ hsize hroom => ?_) h
  · cases input with
    | read args => exact hguard.1.elim
    | write | poll | tick | timeout => exact hguard.2
  · rw [ReadsHaveRoom, hsize]
    cases model <;> exact hroom

omit [DecidableEq P] in
/-- A step that `p` has no part in. -/
theorem Leaves.frame (h : Leaves p s) (hbase : next.base = s.base) (happ : next.app p = s.app p)
    (hkilling : next.killing p = true → s.killing p = true) (hheard : next.heard p = s.heard p)
    (hfound : next.found p = s.found p) (hran : next.ran p = s.ran p) : Leaves p next := by
  constructor
  · rw [hbase, happ]
    exact h.idle
  · rw [hbase, happ]
    exact h.reads
  · rw [happ]
    intro hout
    by_contra hset
    have hold := hkilling (Bool.eq_true_of_not_eq_false hset)
    rw [h.killing hout] at hold
    contradiction
  · rw [hbase, happ, hheard]
    exact h.heard
  · rw [hbase, happ, hheard]
    intro hlistens hsame
    have hold := h.left hlistens hsame
    rw [Leftover] at hold ⊢
    rw [happ, hbase, hfound, hran]
    exact hold

/-- Another process adds to the end of the queue at most. -/
theorem other_effect {s next : Blocking.State model P} (hinv : Inv s)
    (hread : (s.pc q).reading = false) (heffect : Blocking.Effect s q next) :
    s.ledger.accepted.length ≤ next.ledger.accepted.length ∧
      (next.ledger.accepted.length = s.ledger.accepted.length → next.que.num = s.que.num) := by
  cases heffect with
  | stay _ _ hque hledger => exact ⟨by rw [hledger], fun _ => by rw [hque]⟩
  | @enque totalsize items _ hque hcontents hledger =>
      have hlength : next.ledger.accepted.length = s.ledger.accepted.length + items.length := by
        rw [hledger, Ledger.accept, List.length_append]
      refine ⟨by omega, fun hsame => ?_⟩
      have hnew := congrArg List.length hcontents
      have hnonneg := hque.num_nonneg
      have hnum := hinv.que.num_nonneg
      rw [List.length_append, contents_length, contents_length] at hnew
      omega
  | deque hp => simp [hp, Pc.reading] at hread
  | copy hp => simp [hp, Pc.reading] at hread

theorem Leaves.driver_other (h : Leaves p s) (hinv : Inv s.base)
    (hread : (s.base.pc q).reading = false) (hq : q ≠ p) {base : Blocking.State model P}
    (heffect : Blocking.Effect s.base q base) :
    Leaves p (s.driver q base) := by
  have hpc : base.pc p = s.base.pc p := pc_of_effect heffect hq.symm
  obtain ⟨hmore, hsame⟩ := other_effect hinv hread heffect
  refine ⟨fun hout hnot => hpc.trans (h.idle hout hnot), ?_, fun hout => ?_, fun hlistens => ?_,
    fun hlistens hheard => ?_⟩
  · change s.app p = .handling → (base.pc p).reading = true ∨ base.pc p = .idle
    rw [hpc]
    exact h.reads
  · simp only [State.driver]
    split
    · rw [Function.update_of_ne hq.symm]
      exact h.killing hout
    · exact h.killing hout
  · exact (h.heard hlistens).trans hmore
  · have hle := h.heard hlistens
    have hkept : base.ledger.accepted.length = s.base.ledger.accepted.length := by
      have hnow : s.heard p = base.ledger.accepted.length := hheard
      omega
    have hold := h.left hlistens (hheard.trans hkept)
    have hnum : base.que.num = s.base.que.num := hsame hkept
    rw [Leftover] at hold ⊢
    rw [show (s.driver q base).base = base from rfl, hnum, hpc]
    exact hold

theorem Leaves.driver_own (h : Leaves p s) (hinv : Inv s.base) {input : Input model}
    {base : Blocking.State model P} (hrun : s.mayRun p input = true)
    (hbase : Blocking.step s.base (p, input) = some base) : Leaves p (s.driver p base) := by
  by_cases hout : s.app p = .outside
  · refine ⟨fun hin => absurd hout hin, fun hin => ?_, fun hin => absurd hout hin,
      fun hin => ?_, fun hin => ?_⟩
    · exact absurd (hout.symm.trans hin) (by decide)
    · rw [show (s.driver p base).app p = .outside from hout] at hin
      contradiction
    · rw [show (s.driver p base).app p = .outside from hout] at hin
      contradiction
  · obtain ⟨hhandling, rfl⟩ : s.app p = .handling ∧ input = .tick := by
      cases input <;> simp [State.mayRun, hout] at hrun
      exact ⟨hrun, rfl⟩
    have hread : (s.base.pc p).reading = true := by
      refine (h.reads hhandling).resolve_right fun hidle => ?_
      simp [Blocking.step, hidle] at hbase
    have hsilent : wakes (s.base.pc p) = false := by
      cases hpc : s.base.pc p <;> simp_all [Pc.reading, wakes]
    obtain ⟨hnext, haccepted⟩ := tick_reading hread hbase
    refine ⟨fun _ hnot => absurd hhandling hnot, fun _ => hnext, fun hin => ?_,
      fun hlistens => ?_, fun hlistens hheard => ?_⟩
    · simp only [State.driver, hsilent, Bool.false_eq_true, if_false]
      exact h.killing hin
    · exact (h.heard hlistens).trans (by rw [← haccepted]; exact le_refl _)
    · have hold := h.left hlistens (hheard.trans (congrArg List.length haccepted))
      rw [Leftover] at hold ⊢
      rw [show (s.driver p base).app p = .handling from hhandling]
      rw [hhandling] at hold
      exact ⟨hold.1, hold.2.tick hinv hread hbase⟩

omit [DecidableEq P] in
/-- A step of the program of `p` outside the driver. -/
theorem Leaves.main (h : Leaves p s) (hin : s.app p ≠ .outside) (hout : s.app p ≠ .handling)
    (app : App) (hbase : next.base = s.base) (happ : next.app p = app)
    (hkilling : next.killing = s.killing) (hreturned : app ≠ .handling)
    (hheard : app.listens = true → next.heard p ≤ s.base.ledger.accepted.length)
    (hleft : app.listens = true → next.heard p = s.base.ledger.accepted.length →
      Leftover next p) : Leaves p next := by
  refine ⟨fun _ _ => ?_, fun hnext => absurd (happ.symm.trans hnext) hreturned,
    fun _ => ?_, ?_, ?_⟩
  · rw [hbase]
    exact h.idle hin hout
  · rw [hkilling]
    exact h.killing hin
  · rw [happ, hbase]
    exact hheard
  · rw [happ, hbase]
    exact hleft

theorem Leaves.finish (h : Leaves p s) (hin : s.app q ≠ .outside) (hout : s.app q ≠ .handling) :
    Leaves p (s.finish q) := by
  by_cases hq : q = p
  · subst hq
    exact h.main hin hout .dead rfl (Function.update_self ..) rfl (by decide) nofun nofun
  · exact h.frame rfl (Function.update_of_ne (Ne.symm hq) ..) id rfl rfl rfl

theorem leaves_step (h : Leaves p s) (hinv : Inv s.base) (hstreams : Streams p s.base)
    {label : Label model P} (hguard : OnlyListener p s label)
    (hstep : step s label = some next) : Leaves p next := by
  cases step_cases hstep with
  | @ran q input base hkilling hrun hbase =>
      by_cases hq : q = p
      · subst hq
        exact h.driver_own hinv hrun hbase
      · exact h.driver_other hinv (hstreams.others q hq) hq (step_effect hinv hbase)
  | @told q hkilling =>
      refine h.frame rfl rfl (fun hset => ?_) rfl rfl rfl
      by_cases hq : p = q
      · subst hq
        exact hkilling
      · have hupdated : Function.update s.killing q false p = true := hset
        rwa [Function.update_of_ne hq] at hupdated
  | @opened q happ hidle hkilling =>
      by_cases hq : q = p
      · subst hq
        have hnow : (s.goto q .opened).app q = .opened := Function.update_self ..
        refine ⟨fun _ _ => hidle, fun hnext => ?_, fun _ => hkilling, fun hnext => ?_,
          fun hnext => ?_⟩ <;> rw [hnow] at hnext <;> contradiction
      · exact h.frame rfl (Function.update_of_ne (Ne.symm hq) ..) id rfl rfl rfl
  | @owned q happ =>
      by_cases hq : q = p
      · subst hq
        exact h.main (by simp [happ]) (by simp [happ]) .owned rfl (Function.update_self ..) rfl
          (by decide) nofun nofun
      · exact h.frame rfl (Function.update_of_ne (Ne.symm hq) ..) id rfl rfl rfl
  | @registered q happ =>
      by_cases hq : q = p
      · subst hq
        have hnow : (s.setAsync q).app q = .async := Function.update_self ..
        have hheard : (s.setAsync q).heard q = s.base.ledger.accepted.length :=
          Function.update_self ..
        refine h.main (by simp [happ]) (by simp [happ]) _ rfl hnow rfl (by decide)
          (fun _ => hheard.le) fun _ _ => ?_
        rw [Leftover, hnow]
        exact ⟨Function.update_self .., (Function.update_self q s.base.que.num s.found).symm⟩
      · have hne := Ne.symm hq
        exact h.frame rfl (Function.update_of_ne hne ..) id (Function.update_of_ne hne ..)
          (Function.update_of_ne hne ..) (Function.update_of_ne hne ..)
  | @installed q happ =>
      by_cases hq : q = p
      · subst hq
        have hnow : (s.goto q .looping).app q = .looping := Function.update_self ..
        have hlistens : (s.app q).listens = true := by rw [happ]; rfl
        refine h.main (by simp [happ]) (by simp [happ]) _ rfl hnow rfl (by decide)
          (fun _ => h.heard hlistens) fun _ hheard => ?_
        have hold := h.left hlistens hheard
        rw [Leftover, happ] at hold
        rw [Leftover, hnow]
        change s.base.que.num = if s.ran q then _ else s.found q
        rw [hold.1, hold.2]
        rfl
      · exact h.frame rfl (Function.update_of_ne (Ne.symm hq) ..) id rfl rfl rfl
  | @handled q args base happ hpending hsize hroom hbase =>
      have hq : q = p := hguard.resolve_right (not_not.mpr happ)
      subst hq
      obtain ⟨-, rfl⟩ := read_step hbase
      have hnow : (s.mygets q (s.base.goto q (.readPrepare args))).app q = .handling :=
        Function.update_self ..
      have hpc : (s.base.goto q (.readPrepare args)).pc q = .readPrepare args :=
        Function.update_self ..
      have hheard : (s.mygets q (s.base.goto q (.readPrepare args))).heard q =
          s.base.ledger.accepted.length := Function.update_self ..
      refine ⟨fun _ hnot => absurd hnow hnot, fun _ => .inl ?_, fun _ => ?_,
        fun _ => hheard.le, fun _ _ => ?_⟩
      · exact congrArg Pc.reading hpc
      · exact h.killing (by simp [happ])
      · rw [Leftover, hnow]
        refine ⟨Function.update_self .., ?_⟩
        change HandlerLeft s.base.que.num (Function.update s.found q s.base.que.num q)
          ((s.base.goto q (.readPrepare args)).pc q)
        rw [hpc, Function.update_self]
        exact ⟨hsize, rfl⟩
  | @terminated q args happ hpending => exact h.finish (by simp [happ]) (by simp [happ])
  | @returned q happ hidle =>
      by_cases hq : q = p
      · subst hq
        have hnow : (s.goto q .looping).app q = .looping := Function.update_self ..
        have hlistens : (s.app q).listens = true := by rw [happ]; rfl
        refine ⟨fun _ _ => hidle, fun hnext => ?_, fun _ => h.killing (by simp [happ]),
          fun _ => h.heard hlistens, fun _ hheard => ?_⟩
        · rw [hnow] at hnext
          contradiction
        · have hold := h.left hlistens hheard
          rw [Leftover, happ] at hold
          obtain ⟨hran, hleft⟩ := hold
          rw [hidle] at hleft
          rw [Leftover, hnow]
          change s.base.que.num = if s.ran q then _ else _
          rw [hran]
          exact hleft
      · exact h.frame rfl (Function.update_of_ne (Ne.symm hq) ..) id rfl rfl rfl
  | @exited q happ happ' => exact h.finish happ happ'

theorem Leaves.init {s : State model P} (hs : (system model P).init s) : Leaves p s := by
  obtain ⟨-, happ, -, hkilling⟩ := hs
  refine ⟨fun hin => absurd (happ p) hin, fun hin => ?_, fun _ => hkilling p, fun hin => ?_,
    fun hin => ?_⟩ <;> rw [happ p] at hin <;> contradiction

theorem leaves_of_reachable (h : (system model P).ReachableWith (OnlyListener p) s) :
    Leaves p s := by
  induction h with
  | init hinit => exact .init hinit
  | step reached hguard hstep ih =>
      obtain ⟨hinv, hstreams⟩ := streams_of_reachable (base_streams reached)
      exact leaves_step ih hinv hstreams hguard hstep

/-- In its loop, with no signal pending and none on its way, the only listener has heard of all
that was accepted, and has left what its last handler found beyond 100 bytes.  The rest is
stored when no read failed, and none fails whose second look finds what fits its buffer. -/
theorem quiet_listener (h : (system model P).ReachableWith (OnlyListener p) s)
    (happ : s.app p = .looping) (hpending : s.pending p = false)
    (hwriters : ∀ w, ¬ s.Announces w) :
    s.heard p = s.base.ledger.accepted.length ∧
      s.base.que.num = (if s.ran p then rest (s.found p) else s.found p) ∧
      ((∀ delivery ∈ s.base.deliveries, 0 ≤ delivery.ret) →
        s.base.ledger.accepted = s.base.delivered ++ contents s.base.que) ∧
      ((system model P).ReachableWith
          (fun s label => OnlyListener p s label ∧ LooksFit s label) s →
        ∀ delivery ∈ s.base.deliveries, 0 ≤ delivery.ret) := by
  have hleaves := leaves_of_reachable h
  have hlistens : (s.app p).listens = true := by rw [happ]; rfl
  have hheard : s.heard p = s.base.ledger.accepted.length := by
    rcases (listens_of_reachable h.reachable).told p hlistens with hheard | htold | ⟨w, hw⟩
    · exact hheard.symm
    · rw [hpending] at htold
      contradiction
    · exact absurd hw (hwriters w)
  have hleft := hleaves.left hlistens hheard
  rw [Leftover, happ] at hleft
  refine ⟨hheard, hleft, fun hok => ?_, fun hfit => no_read_failed (base_served hfit)⟩
  have hidle : s.base.pc p = .idle := hleaves.idle (by simp [happ]) (by simp [happ])
  have hstream := (streams_of_reachable (base_streams h)).2.stream (by simp [hidle]) hok
  rw [hidle] at hstream
  rw [hstream]
  simp [Pc.inFlight]

/-- One signal for 150 bytes: 50 stay in the queue. -/
theorem handler_leaves_fifty :
    ∃ s, (system .ilp32 Bool).run (resting .ilp32 Bool) (listenThenWrite ++ handle) = some s ∧
      s.base.que.num = 50 ∧ s.base.ledger.accepted =
        List.replicate 100 7 ++ contents s.base.que := by
  have hfields : ((system .ilp32 Bool).run (resting .ilp32 Bool) (listenThenWrite ++ handle)).map
      (fun s => ((s.app true, s.pending true, s.ran true, s.found true), s.base.deliveries,
        (wakes (s.base.pc true) || s.killing true || wakes (s.base.pc false) ||
          s.killing false))) =
      some ((.looping, false, true, 150), [⟨true, 100, 100, List.replicate 100 7, 0⟩], false) := by
    decide +kernel
  obtain ⟨s, hrun, hs⟩ := Option.map_eq_some_iff.mp hfields
  simp only [Prod.mk.injEq, Bool.or_eq_false_iff] at hs
  obtain ⟨⟨happ, hpending, hran, hfound⟩, hlist, ⟨⟨htrue, htrue'⟩, hfalse⟩, hfalse'⟩ := hs
  have hguard : (system .ilp32 Bool).ReachableWith
      (fun s label => OnlyListener true s label ∧ LooksFit s label) s :=
    System.ReachableWith.run (.init resting_init) (listenThenWrite ++ handle) (by decide +kernel)
      hrun
  obtain ⟨-, hnum, hstream, hserved⟩ := quiet_listener (p := true)
    (hguard.mono fun _ _ => And.left) happ hpending
    (fun w => by cases w <;> simp [State.Announces, *])
  refine ⟨s, hrun, ?_, ?_⟩
  · rw [hnum, hran, hfound]
    decide
  · rw [hstream (hserved hguard), Blocking.State.delivered, hlist]
    rfl

/-- 90 bytes come between the two looks of a handler that found 60: its read fails. -/
def lateWrite : List (Label .ilp32 Bool) :=
  [.main true, .main true, .main true, .main true,
    .driver false (.write blankBuf (List.replicate 60 7) 60), .driver false .tick,
    .driver false .tick, .killFasync false, .deliver true ⟨100, blankBuf, [], 100⟩,
    .driver true .tick, .driver true .tick, .driver true .tick,
    .driver false (.write blankBuf (List.replicate 90 8) 90), .driver false .tick,
    .driver true .tick, .driver true .tick, .driver true .tick]

example : ((system .ilp32 Bool).run (resting .ilp32 Bool) lateWrite).map
    (fun s => s.base.deliveries.map Delivery.ret) = some [-eio] := by
  decide +kernel

end FarsightDriver.Fifo.Signals
