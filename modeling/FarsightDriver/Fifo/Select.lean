import FarsightDriver.Fifo.Poll
import Mathlib.Data.Fintype.Pi

/-!
# The program that waits with `select`

`select.c` has three files.  It asks `select` which of them can be read and reads
each of these, up to 100 bytes, before it asks again.  Some of the three are files
of the poll driver and share its queue.  Other processes write and poll.

`select` asks the files in turn; where the `poll` of one file alone would sleep, it
goes on with the next.  A pass that finds nothing is followed by another, and when
is left open.
-/

namespace FarsightDriver.Fifo.Select

open FarsightDriver.Foundation
open FarsightDriver.Que
open FarsightDriver.Fifo.Blocking

inductive File where
  | fd1
  | fd2
  | fd3
  deriving DecidableEq, Repr

instance : Fintype File := ⟨{.fd1, .fd2, .fd3}, fun file => by cases file <;> decide⟩

def File.after : File → Option File
  | .fd1 => some .fd2
  | .fd2 => some .fd3
  | .fd3 => none

def File.index : File → Nat
  | .fd1 => 1
  | .fd2 => 2
  | .fd3 => 3

/-- What `select` found: the bits that `FD_ISSET` reads. -/
abbrev Readfds := File → Bool

/-- The program is before or in `mypoll` or `myread` of the file. -/
inductive App where
  | asking (file : File) (readfds : Readfds)
  | polling (file : File) (readfds : Readfds)
  | testing (file : File) (readfds : Readfds)
  | reading (file : File) (readfds : Readfds)

def App.start : App := .asking .fd1 fun _ => false

def App.asked (file : File) (readfds : Readfds) : App :=
  match file.after with
  | some file => .asking file readfds
  | none => if ∃ file, readfds file = true then .testing .fd1 readfds else .start

def App.done (file : File) (readfds : Readfds) : App :=
  match file.after with
  | some file => .testing file readfds
  | none => .start

/-- The program after a call of the driver. -/
def App.returned (ret : Int) : App → App
  | .polling file readfds => .asked file (Function.update readfds file (decide (ret ≠ 0)))
  | .reading file readfds => .done file readfds
  | app => app

structure State (model : DataModel) (P : Type*) where
  base : Blocking.State model P
  app : App

/-- `ready` is what a file of another driver answers, `args` the environment of a `myread`. -/
inductive Label (model : DataModel) (P : Type*) where
  | other (q : P) (input : Input model)
  | driver (input : Input model)
  | main (ready : Bool) (args : ReadArgs model)

variable {model : DataModel} {P : Type*} [DecidableEq P]

def mayRun : App → Pc model → Input model → Bool
  | .polling _ _, .pollSleep, .timeout => true
  | .polling _ _, .pollSleep, _ => false
  | .polling _ _, _, .tick | .reading _ _, _, .tick => true
  | _, _, _ => false

def State.driver (s : State model P) (p : P) (base : Blocking.State model P) : State model P where
  base := base
  app := if (base.pc p).isIdle then s.app.returned (base.ret p) else s.app

/-- `files` tells which of the files are of the driver, and `p` is the program. -/
def step (files : File → Bool) (p : P) (s : State model P) :
    Label model P → Option (State model P)
  | .other q input =>
      if q ≠ p ∧ input.isRead = false then
        (Blocking.step s.base (q, input)).map fun base => { s with base := base }
      else none
  | .driver input =>
      if mayRun s.app (s.base.pc p) input then
        (Blocking.step s.base (p, input)).map (s.driver p)
      else none
  | .main ready args =>
      match s.app with
      | .asking file readfds =>
          if files file then
            (Blocking.step s.base (p, .poll)).map fun base => ⟨base, .polling file readfds⟩
          else some { s with app := .asked file (Function.update readfds file ready) }
      | .testing file readfds =>
          if readfds file && files file then
            if args.size = 100 then
              (Blocking.step s.base (p, .read args)).map fun base =>
                ⟨base, .reading file readfds⟩
            else none
          else some { s with app := .done file readfds }
      | .polling _ _ | .reading _ _ => none

def system (files : File → Bool) (p : P) : System (State model P) (Label model P) where
  init s := (Blocking.system model P).init s.base ∧ s.app = .start
  step := step files p

/-! ## What a step can do -/

inductive Step (files : File → Bool) (p : P) (s : State model P) : State model P → Prop
  | other {q : P} {input : Input model} {base : Blocking.State model P} (hq : q ≠ p)
      (hinput : input.isRead = false) (hbase : Blocking.step s.base (q, input) = some base) :
      Step files p s { s with base := base }
  | driver {input : Input model} {base : Blocking.State model P}
      (hrun : mayRun s.app (s.base.pc p) input = true)
      (hbase : Blocking.step s.base (p, input) = some base) : Step files p s (s.driver p base)
  | poll {file : File} {readfds : Readfds} {base : Blocking.State model P}
      (happ : s.app = .asking file readfds) (hfile : files file = true)
      (hbase : Blocking.step s.base (p, .poll) = some base) :
      Step files p s ⟨base, .polling file readfds⟩
  | ask {file : File} {readfds : Readfds} {ready : Bool} (happ : s.app = .asking file readfds)
      (hfile : files file = false) :
      Step files p s { s with app := .asked file (Function.update readfds file ready) }
  | read {file : File} {readfds : Readfds} {args : ReadArgs model}
      {base : Blocking.State model P} (happ : s.app = .testing file readfds)
      (hset : readfds file = true) (hfile : files file = true)
      (hbase : Blocking.step s.base (p, .read args) = some base) :
      Step files p s ⟨base, .reading file readfds⟩
  | skip {file : File} {readfds : Readfds} (happ : s.app = .testing file readfds) :
      Step files p s { s with app := .done file readfds }

theorem step_cases {files : File → Bool} {p : P} {s next : State model P}
    {label : Label model P} (h : step files p s label = some next) : Step files p s next := by
  cases label with
  | other q input =>
      simp only [step, Option.ite_none_right_eq_some] at h
      obtain ⟨⟨hq, hinput⟩, h⟩ := h
      obtain ⟨base, hbase, rfl⟩ := Option.map_eq_some_iff.mp h
      exact .other hq hinput hbase
  | driver input =>
      simp only [step, Option.ite_none_right_eq_some] at h
      obtain ⟨base, hbase, rfl⟩ := Option.map_eq_some_iff.mp h.2
      exact .driver h.1 hbase
  | main ready args =>
      cases happ : s.app with
      | asking file readfds =>
          simp only [step, happ] at h
          split at h
          case isTrue hfile =>
            obtain ⟨base, hbase, rfl⟩ := Option.map_eq_some_iff.mp h
            exact .poll happ hfile hbase
          case isFalse hfile =>
            exact Option.some.inj h ▸ .ask happ (Bool.not_eq_true _ ▸ hfile)
      | testing file readfds =>
          simp only [step, happ] at h
          split at h
          case isTrue hset =>
            obtain ⟨hset, hfile⟩ := Bool.and_eq_true_iff.mp hset
            rw [Option.ite_none_right_eq_some] at h
            obtain ⟨base, hbase, rfl⟩ := Option.map_eq_some_iff.mp h.2
            exact .read happ hset hfile hbase
          case isFalse => exact Option.some.inj h ▸ .skip happ
      | polling file readfds | reading file readfds => simp [step, happ] at h

/-! ## The calls of the program -/

def InPoll : Pc model → Prop
  | .pollPrepare | .pollTest | .pollSleep => True
  | _ => False

/-- In `myread`, and on no way to its sleep. -/
def Awake (num : Int) : Pc model → Prop
  | .readPrepare _ | .readTest _ => num ≠ 0
  | .readCompare _ | .readChoose _ | .readDeque _ _ | .readCopy _ _ _ _ | .smashed => True
  | _ => False

variable {s next : Blocking.State model P} {p : P} {input : Input model}

theorem poll_step (h : InPoll (s.pc p)) (hstep : Blocking.step s (p, input) = some next) :
    next.que = s.que ∧
      (InPoll (next.pc p) ∨ next.pc p = .idle ∧ (next.ret p ≠ 0 → s.que.num ≠ 0)) := by
  cases hp : s.pc p <;> simp only [hp, InPoll] at h
  all_goals cases input <;>
    simp only [Blocking.step, hp, reduceCtorEq, Option.some.injEq, Option.ite_none_right_eq_some]
      at hstep
  case pollPrepare.tick =>
    subst hstep
    exact ⟨rfl, .inl (by simp [Blocking.State.prepareToWait, Blocking.State.goto, InPoll])⟩
  case pollTest.tick =>
    subst hstep
    split
    case isTrue hdata =>
      exact ⟨rfl, .inr ⟨Function.update_self .., fun _ => hdata⟩⟩
    case isFalse => exact ⟨rfl, .inl (by simp [Blocking.State.goto, InPoll])⟩
  case pollSleep.tick =>
    obtain ⟨-, rfl⟩ := hstep
    exact ⟨rfl, .inl (by simp [Blocking.State.goto, InPoll])⟩
  case pollSleep.timeout =>
    subst hstep
    refine ⟨rfl, .inr ⟨Function.update_self .., fun hret => absurd ?_ hret⟩⟩
    exact Function.update_self ..

theorem awake_step (h : Awake s.que.num (s.pc p))
    (hstep : Blocking.step s (p, .tick) = some next) :
    Awake next.que.num (next.pc p) ∨ next.pc p = .idle := by
  cases hp : s.pc p <;> simp only [hp, Awake] at h
  all_goals simp only [Blocking.step, hp, reduceCtorEq, Option.some.injEq] at hstep
  case readPrepare args =>
    subst hstep
    exact .inl (by simpa [Blocking.State.prepareToWait, Blocking.State.goto, Awake] using h)
  case readTest args =>
    rw [getQueNum, if_pos (Ne.symm h)] at hstep
    subst hstep
    exact .inl (by simp [Blocking.State.finishWait, Blocking.State.goto, Awake])
  case readCompare args =>
    subst hstep
    left
    split <;> simp [Blocking.State.goto, Awake]
  case readChoose args =>
    subst hstep
    exact .inl (by simp [Blocking.State.goto, Awake])
  case readDeque args totalsize =>
    obtain ⟨⟨Q, memory, removed⟩, -, rfl⟩ := Option.map_eq_some_iff.mp hstep
    left
    simp only [Blocking.State.goto, Function.update_self]
    split <;> trivial
  case readCopy args totalsize memory removal =>
    obtain ⟨⟨copied, uncopied⟩, -, rfl⟩ := Option.map_eq_some_iff.mp hstep
    exact .inr (by simp [Blocking.State.returns, Blocking.State.goto])

/-! ## What a set bit promises -/

/-- A file of the driver whose bit is set has data. -/
def Promised (files : File → Bool) (first : File) (readfds : Readfds) (num : Int) : Prop :=
  ∀ file, first.index ≤ file.index → files file = true → readfds file = true → num ≠ 0

def App.Facts (files : File → Bool) (pc : Pc model) (num : Int) : App → Prop
  | .asking _ readfds => pc = .idle ∧ Promised files .fd1 readfds num
  | .polling file readfds => InPoll pc ∧ files file = true ∧ Promised files .fd1 readfds num
  | .testing file readfds => pc = .idle ∧ Promised files file readfds num
  | .reading file _ => Awake num pc ∧ files file = true

theorem fd1_le : ∀ file : File, File.fd1.index ≤ file.index := by decide

theorem after_lt : ∀ {file next : File}, file.after = some next → file.index < next.index := by
  decide

variable {files : File → Bool} {file : File} {readfds : Readfds} {num num' : Int}

theorem Promised.update (h : Promised files .fd1 readfds num) {ready : Bool}
    (hready : files file = true → ready = true → num ≠ 0) :
    Promised files .fd1 (Function.update readfds file ready) num := by
  intro other _ hother hset
  by_cases hsame : other = file
  · subst hsame
    rw [Function.update_self] at hset
    exact hready hother hset
  · rw [Function.update_of_ne hsame] at hset
    exact h other (fd1_le other) hother hset

theorem facts_start {pc : Pc model} (hpc : pc = .idle) : App.start.Facts files pc num :=
  ⟨hpc, fun _ _ _ hset => Bool.noConfusion hset⟩

theorem facts_asked {pc : Pc model} (hpc : pc = .idle) (h : Promised files .fd1 readfds num) :
    (App.asked file readfds).Facts files pc num := by
  unfold App.asked
  cases file.after with
  | some next => exact ⟨hpc, h⟩
  | none =>
      dsimp only
      split
      · exact ⟨hpc, h⟩
      · exact facts_start hpc

theorem facts_done {pc : Pc model} (hpc : pc = .idle)
    (h : ∀ next, file.index < next.index → Promised files next readfds num) :
    (App.done file readfds).Facts files pc num := by
  unfold App.done
  cases hafter : file.after with
  | some next => exact ⟨hpc, h next (after_lt hafter)⟩
  | none => exact facts_start hpc

theorem App.Facts.mono {app : App} {pc : Pc model} (h : app.Facts files pc num)
    (hnum : num ≠ 0 → num' ≠ 0) : app.Facts files pc num' := by
  have hpromised {first : File} {readfds : Readfds} (h : Promised files first readfds num) :
      Promised files first readfds num' :=
    fun file hfirst hfile hset => hnum (h file hfirst hfile hset)
  cases app with
  | asking file readfds => exact ⟨h.1, hpromised h.2⟩
  | polling file readfds => exact ⟨h.1, h.2.1, hpromised h.2.2⟩
  | testing file readfds => exact ⟨h.1, hpromised h.2⟩
  | reading file readfds =>
      refine ⟨?_, h.2⟩
      have hawake := h.1
      cases pc <;> first | exact hawake | exact hnum hawake

/-! ## Runs of the program -/

structure Safe (files : File → Bool) (p : P) (s : State model P) : Prop where
  base : Inv s.base
  others : ∀ q, q ≠ p → (s.base.pc q).reading = false
  facts : s.app.Facts files (s.base.pc p) s.base.que.num

theorem num_ne_zero_of_kept {Q Q' : QUE} (h : contents Q <+: contents Q') (hQ : WellFormed Q)
    (hQ' : WellFormed Q') (hnum : Q.num ≠ 0) : Q'.num ≠ 0 := by
  have hlength := h.length_le
  have hnonneg := hQ.num_nonneg
  have hnonneg' := hQ'.num_nonneg
  rw [contents_length, contents_length] at hlength
  omega

theorem Safe.other {s : State model P} (h : Safe files p s) {q : P} (hq : q ≠ p)
    (hinput : input.isRead = false) {base : Blocking.State model P}
    (hbase : Blocking.step s.base (q, input) = some base) :
    Safe files p { s with base := base } := by
  have heffect := step_effect h.base hbase
  have hout := h.others q hq
  have hinv := inv_of_effect h.base heffect
  refine ⟨hinv, fun r hr => ?_, ?_⟩
  · by_cases hrq : r = q
    · subst hrq
      refine reading_of_step hbase hout fun args hread => ?_
      rw [hread] at hinput
      contradiction
    · exact pc_of_effect heffect hrq ▸ h.others r hr
  · have hpc : base.pc p = s.base.pc p := pc_of_effect heffect hq.symm
    have hkept := contents_of_effect heffect hout
    dsimp only
    rw [hpc]
    exact h.facts.mono (num_ne_zero_of_kept hkept h.base.que hinv.que)

/-- A step of `p` in the driver that leaves the program with these facts. -/
theorem Safe.program {s : State model P} (h : Safe files p s) {base : Blocking.State model P}
    (hbase : Blocking.step s.base (p, input) = some base) {app : App}
    (hfacts : app.Facts files (base.pc p) base.que.num) : Safe files p ⟨base, app⟩ := by
  have heffect := step_effect h.base hbase
  refine ⟨inv_of_effect h.base heffect, fun q hq => ?_, hfacts⟩
  rw [pc_of_effect heffect hq]
  exact h.others q hq

theorem isIdle_iff {pc : Pc model} : pc.isIdle = true ↔ pc = .idle := by
  cases pc <;> simp [Pc.isIdle]

/-- The only file of the driver. -/
def OnlyFile (files : File → Bool) : Prop :=
  ∀ file other, files file = true → files other = true → file = other

instance (files : File → Bool) : Decidable (OnlyFile files) :=
  inferInstanceAs (Decidable (∀ _ _, _))

theorem Safe.driver (hfiles : OnlyFile files) {s : State model P} (h : Safe files p s)
    (hrun : mayRun s.app (s.base.pc p) input = true) {base : Blocking.State model P}
    (hbase : Blocking.step s.base (p, input) = some base) : Safe files p (s.driver p base) := by
  refine h.program hbase ?_
  have hfacts := h.facts
  cases happ : s.app with
  | asking file readfds | testing file readfds => simp [happ, mayRun] at hrun
  | polling file readfds =>
      rw [happ] at hfacts
      obtain ⟨hpoll, hfile, hpromised⟩ := hfacts
      obtain ⟨hque, hin | ⟨hidle, hret⟩⟩ := poll_step hpoll hbase
      · have hbusy : ¬ (base.pc p).isIdle = true := by
          rw [isIdle_iff]
          intro hidle
          exact (hidle ▸ hin : InPoll (.idle : Pc model))
        rw [if_neg hbusy, hque]
        exact ⟨hin, hfile, hpromised⟩
      · rw [if_pos (isIdle_iff.mpr hidle), hque]
        exact facts_asked hidle (hpromised.update fun _ hready => hret (of_decide_eq_true hready))
  | reading file readfds =>
      rw [happ] at hfacts hrun
      obtain ⟨hawake, hfile⟩ := hfacts
      obtain rfl : input = .tick := by
        cases input <;> simp [mayRun] at hrun ⊢
      rcases awake_step hawake hbase with hawake | hidle
      · have hbusy : ¬ (base.pc p).isIdle = true := by
          rw [isIdle_iff]
          intro hidle
          exact (hidle ▸ hawake : Awake _ (.idle : Pc model))
        rw [if_neg hbusy]
        exact ⟨hawake, hfile⟩
      · rw [if_pos (isIdle_iff.mpr hidle)]
        refine facts_done hidle fun next hnext other hother hdevice _ => ?_
        have hsame := hfiles file other hfile hdevice
        exact absurd (hsame ▸ hother : next.index ≤ file.index) (not_le.mpr hnext)

theorem step_safe (hfiles : OnlyFile files) {s next : State model P} (h : Safe files p s)
    (hstep : Step files p s next) : Safe files p next := by
  have hfacts := h.facts
  cases hstep with
  | other hq hinput hbase => exact h.other hq hinput hbase
  | driver hrun hbase => exact h.driver hfiles hrun hbase
  | @poll file readfds base happ hfile hbase =>
      rw [happ] at hfacts
      obtain ⟨hidle, hpromised⟩ := hfacts
      refine h.program hbase ?_
      simp only [Blocking.step, hidle, Option.some.injEq] at hbase
      subst hbase
      exact ⟨by simp [Blocking.State.goto, InPoll], hfile, hpromised⟩
  | @ask file readfds ready happ hfile =>
      rw [happ] at hfacts
      refine ⟨h.base, h.others, facts_asked hfacts.1 (hfacts.2.update fun hdevice => ?_)⟩
      exact absurd (hfile.symm.trans hdevice) Bool.false_ne_true
  | @read file readfds args base happ hset hfile hbase =>
      rw [happ] at hfacts
      obtain ⟨hidle, hpromised⟩ := hfacts
      have hdata := hpromised file le_rfl hfile hset
      refine h.program hbase ?_
      simp only [Blocking.step, hidle, Option.some.injEq] at hbase
      subst hbase
      exact ⟨by simpa [Blocking.State.goto, Awake] using hdata, hfile⟩
  | @skip file readfds happ =>
      rw [happ] at hfacts
      refine ⟨h.base, h.others, facts_done hfacts.1 fun next hnext other hother => ?_⟩
      exact hfacts.2 other (le_trans hnext.le hother)

theorem safe_of_reachable (hfiles : OnlyFile files) {s : State model P}
    (h : (system files p).Reachable s) : Safe files p s := by
  refine h.invariant (Safe files p) (fun start hstart => ?_) fun s label next hsafe hstep =>
    step_safe hfiles hsafe (step_cases hstep)
  obtain ⟨hbase, happ⟩ := hstart
  have hidle := hbase.2.2.2
  refine ⟨inv_init hbase, fun q _ => by rw [hidle q]; rfl, ?_⟩
  rw [happ]
  exact facts_start (hidle p)

omit [DecidableEq P] in
theorem Safe.awake {s : State model P} (h : Safe files p s) (args : ReadArgs model) :
    s.base.pc p ≠ .readSleep args := by
  intro hsleep
  have hfacts := h.facts
  rw [hsleep] at hfacts
  cases happ : s.app with
  | asking | testing => simp [happ, App.Facts] at hfacts
  | polling | reading => simp [happ, App.Facts, InPoll, Awake] at hfacts

/-! ## Two files of the driver -/

def created : State model P := ⟨Blocking.created, .start⟩

def blankArgs : ReadArgs .ilp32 := ⟨100, blankBuf, [], 100⟩

def ask (files : File → Bool) (file : File) : List (Label .ilp32 Bool) :=
  .main false blankArgs :: if files file then [.driver .tick, .driver .tick] else []

/-- The first file is read to its end, and the second up to its test. -/
def readOf (files : File → Bool) : List File → Nat → List (Label .ilp32 Bool)
  | [], _ => []
  | file :: rest, calls =>
      if files file then
        match calls with
        | 0 => .main false blankArgs :: List.replicate 6 (.driver .tick) ++ readOf files rest 1
        | _ + 1 => .main false blankArgs :: [.driver .tick, .driver .tick]
      else .main false blankArgs :: readOf files rest calls

/-- `false` writes one byte, and `true` finds it in each of its files. -/
def oneByte (files : File → Bool) : List (Label .ilp32 Bool) :=
  [.other false (.write blankBuf [7] 1), .other false .tick, .other false .tick] ++
    [.fd1, .fd2, .fd3].flatMap (ask files) ++ readOf files [.fd1, .fd2, .fd3] 0

def asleep : Pc model → Bool
  | .readSleep _ => true
  | _ => false

theorem oneByte_sleeps : ∀ files : File → Bool, ¬ OnlyFile files →
    ((system files true).run created (oneByte files)).map (fun s => asleep (s.base.pc true)) =
      some true := by
  decide +kernel

/--
What `select` has found stays there for the one file of the driver.  Of two, the
first takes what the second was promised, and the read of the second sleeps.
-/
theorem reads_awake_iff (files : File → Bool) :
    (∀ (model : DataModel) (P : Type) [DecidableEq P] (p : P) (s : State model P),
        (system files p).Reachable s → ∀ args, s.base.pc p ≠ .readSleep args) ↔
      OnlyFile files := by
  constructor
  · intro hawake
    by_contra hfiles
    obtain ⟨s, hrun, hasleep⟩ := Option.map_eq_some_iff.mp (oneByte_sleeps files hfiles)
    have hreachable : (system files true).Reachable s :=
      System.reachable_of_run ⟨Blocking.created_init, rfl⟩ hrun
    cases hpc : s.base.pc true with
    | readSleep args => exact hawake .ilp32 Bool true s hreachable args hpc
    | _ => simp [hpc, asleep] at hasleep
  · intro hfiles model P _ p s h
    exact (safe_of_reachable hfiles h).awake

end FarsightDriver.Fifo.Select
