import FarsightDriver.Foundation.Resources
import FarsightDriver.Foundation.System

/-!
# Binding the PWM platform driver

`setup_PWM_cdev` gives up when `alloc_chrdev_region` fails, without undoing its
mappings, and goes on when `cdev_add` fails; `myprobe` returns 0 in every case.
What is acquired is known to one global structure, which the next bind overwrites.
-/

namespace FarsightDriver.Pwm.Lifetime

open FarsightDriver.Foundation

/--
`cdev_add` makes the `entry` of a `cdev`, `cdev_del` takes back both.  `device_create`
keeps a `reference` to its device; `device_del` only takes the device out of the system.
-/
inductive Kind where
  | pwmbase
  | gpd0con
  | devnum
  | cdev
  | entry
  | mytestClass
  | mytestDevice
  | reference
  deriving DecidableEq

/-- The bind that a handle comes from; the global structure is zero at first. -/
abbrev Handle := Option Nat

structure Resource where
  kind : Kind
  handle : Handle
  deriving DecidableEq

structure Mycdev where
  devnum : Handle
  cdev : Handle
  mytestClass : Handle
  mytestDevice : Handle
  pwmbase : Handle
  gpd0con : Handle
  deriving DecidableEq

structure Answers where
  allocChrdevRegion : Int
  cdevAdd : Int
  deriving DecidableEq

def setupPWMCdev (answers : Answers) (bind : Nat) (mydev : Mycdev) :
    Int × Mycdev × List (Use Resource) :=
  let handle : Handle := some bind
  let mydev := { mydev with pwmbase := handle }
  let uses := [.acquire ⟨.pwmbase, handle⟩]
  let mydev := { mydev with gpd0con := handle }
  let uses := uses ++ [.acquire ⟨.gpd0con, handle⟩]
  if answers.allocChrdevRegion < 0 then (answers.allocChrdevRegion, mydev, uses)
  else
    let mydev := { mydev with devnum := handle }
    let uses := uses ++ [.acquire ⟨.devnum, handle⟩]
    let mydev := { mydev with cdev := handle }
    let uses := uses ++ [.acquire ⟨.cdev, handle⟩]
    let uses := uses ++ if answers.cdevAdd = 0 then [.acquire ⟨.entry, handle⟩] else []
    let mydev := { mydev with mytestClass := handle }
    let uses := uses ++ [.acquire ⟨.mytestClass, handle⟩]
    let mydev := { mydev with mytestDevice := handle }
    let uses := uses ++ [.acquire ⟨.mytestDevice, handle⟩, .acquire ⟨.reference, handle⟩]
    (0, mydev, uses)

def myprobe (answers : Answers) (bind : Nat) (mydev : Mycdev) :
    Int × Mycdev × List (Use Resource) :=
  let (_, mydev, uses) := setupPWMCdev answers bind mydev
  (0, mydev, uses)

def myremove (mydev : Mycdev) : List (Use Resource) :=
  [.release ⟨.gpd0con, mydev.gpd0con⟩, .release ⟨.pwmbase, mydev.pwmbase⟩,
    .release ⟨.mytestDevice, mydev.mytestDevice⟩, .release ⟨.mytestClass, mydev.mytestClass⟩,
    .release ⟨.entry, mydev.cdev⟩, .release ⟨.cdev, mydev.cdev⟩,
    .release ⟨.devnum, mydev.devnum⟩]

/-! ## Runs -/

/-- For each bound device, what its `myprobe` has done. -/
structure Driver where
  mydev : Mycdev
  binds : Nat
  bound : Nat → Option (List (Use Resource))

inductive Label where
  | bind (dev : Nat) (answers : Answers)
  | unbind (dev : Nat)
  deriving DecidableEq

/-- A device is bound when `myprobe` returns 0. -/
def step (s : Driver) : Label → Option Driver
  | .bind dev answers =>
      if (s.bound dev).isSome then none
      else
        let (ret, mydev, uses) := myprobe answers s.binds s.mydev
        some ⟨mydev, s.binds + 1,
          if ret = 0 then Function.update s.bound dev (some uses) else s.bound⟩
  | .unbind dev =>
      (s.bound dev).map fun _ => { s with bound := Function.update s.bound dev none }

def start : Driver := ⟨⟨none, none, none, none, none, none⟩, 0, fun _ => none⟩

def system : System Driver Label where
  init s := s = start
  step := step

/-! ## The balance of a bind -/

def Answers.Fail (answers : Answers) : Prop :=
  answers.allocChrdevRegion < 0 ∨ answers.cdevAdd ≠ 0

instance (answers : Answers) : Decidable answers.Fail := inferInstanceAs (Decidable (_ ∨ _))

def restrict (counted : Kind → Bool) (uses : List (Use Resource)) : List (Use Resource) :=
  uses.filter fun use => counted use.resource.kind

/--
A bind in which a call fails returns an error and keeps nothing; an unbind gives back
what the bind of its device has acquired, each resource once.
-/
def Sound (counted : Kind → Bool) (s : Driver) : Label → Prop
  | .bind _ answers =>
      let (ret, _, uses) := myprobe answers s.binds s.mydev
      answers.Fail → ret < 0 ∧ Use.Balanced (restrict counted uses)
  | .unbind dev =>
      ∀ uses, s.bound dev = some uses →
        Use.Balanced (restrict counted (uses ++ myremove s.mydev))

def SoundAt (counted : Kind → Bool) (front : List Label) (label : Label) : Prop :=
  ∀ s, system.run start front = some s → Sound counted s label

/-- The resources except the reference to the device. -/
def named (kind : Kind) : Bool := kind ≠ .reference

def every (_ : Kind) : Bool := true

def Label.binds : Label → Option Nat
  | .bind dev _ => some dev
  | .unbind _ => none

def lastBound (labels : List Label) : Option Nat := (labels.filterMap Label.binds).getLast?

/-- Nothing fails, and only the device that was bound last is unbound. -/
def Undoes (front : List Label) : Label → Prop
  | .bind _ answers => ¬ answers.Fail
  | .unbind dev => lastBound front = some dev

instance (front : List Label) (label : Label) : Decidable (Undoes front label) := by
  cases label <;> unfold Undoes <;> infer_instance

def Keeps : Label → Prop
  | .bind _ answers => ¬ answers.Fail
  | .unbind _ => False

/-! ## Calls -/

def handles (bind : Nat) : Mycdev :=
  ⟨some bind, some bind, some bind, some bind, some bind, some bind⟩

/-- In the order of `setup_PWM_cdev`. -/
def acquiredKinds : List Kind :=
  [.pwmbase, .gpd0con, .devnum, .cdev, .entry, .mytestClass, .mytestDevice, .reference]

/-- In the order of `myremove`. -/
def releasedKinds : List Kind :=
  [.gpd0con, .pwmbase, .mytestDevice, .mytestClass, .entry, .cdev, .devnum]

def resources (kinds : List Kind) (bind : Nat) : List Resource :=
  kinds.map fun kind => ⟨kind, some bind⟩

theorem myprobe_granted {answers : Answers} (h : ¬ answers.Fail) (bind : Nat) (mydev : Mycdev) :
    myprobe answers bind mydev =
      (0, handles bind, (resources acquiredKinds bind).map Use.acquire) := by
  obtain ⟨halloc, hadd⟩ := not_or.mp h
  simp only [myprobe, setupPWMCdev, if_neg halloc, if_pos (not_not.mp hadd)]
  rfl

theorem myremove_handles (bind : Nat) :
    myremove (handles bind) = (resources releasedKinds bind).map Use.release := rfl

theorem restrict_append (counted : Kind → Bool) (front back : List (Use Resource)) :
    restrict counted (front ++ back) = restrict counted front ++ restrict counted back :=
  List.filter_append ..

theorem restrict_acquired (counted : Kind → Bool) (kinds : List Kind) (bind : Nat) :
    restrict counted ((resources kinds bind).map Use.acquire) =
      (resources (kinds.filter counted) bind).map Use.acquire := by
  rw [restrict, resources, List.map_map, List.filter_map, resources, List.map_map]
  rfl

theorem restrict_released (counted : Kind → Bool) (kinds : List Kind) (bind : Nat) :
    restrict counted ((resources kinds bind).map Use.release) =
      (resources (kinds.filter counted) bind).map Use.release := by
  rw [restrict, resources, List.map_map, List.filter_map, resources, List.map_map]
  rfl

/-- What one bind has acquired and what the handles of another release. -/
theorem balanced_iff (counted : Kind → Bool) (hcounted : counted .gpd0con = true) (n m : Nat) :
    Use.Balanced (restrict counted
        ((resources acquiredKinds n).map Use.acquire ++ myremove (handles m))) ↔
      n = m ∧ (releasedKinds.filter counted).Perm (acquiredKinds.filter counted) := by
  rw [myremove_handles, restrict_append, restrict_acquired, restrict_released,
    Use.balanced_iff_perm]
  constructor
  · intro h
    have hmem : (⟨.gpd0con, some m⟩ : Resource) ∈ resources (releasedKinds.filter counted) m :=
      List.mem_map.mpr ⟨.gpd0con, List.mem_filter.mpr ⟨by decide, hcounted⟩, rfl⟩
    obtain ⟨kind, -, hkind⟩ := List.mem_map.mp (h.subset hmem)
    cases hkind
    exact ⟨rfl, by simpa [resources, Function.comp_def] using h.map Resource.kind⟩
  · rintro ⟨rfl, h⟩
    exact h.map _

theorem named_perm : (releasedKinds.filter named).Perm (acquiredKinds.filter named) := by decide

theorem not_every_perm : ¬ (releasedKinds.filter every).Perm (acquiredKinds.filter every) := by
  decide

/-! ## States between the calls -/

inductive Step (s : Driver) : Label → Driver → Prop
  | bound {dev : Nat} {answers : Answers} (hfree : s.bound dev = none) :
      Step s (.bind dev answers)
        ⟨(myprobe answers s.binds s.mydev).2.1, s.binds + 1,
          Function.update s.bound dev (some (myprobe answers s.binds s.mydev).2.2)⟩
  | unbound {dev : Nat} {uses : List (Use Resource)} (hbound : s.bound dev = some uses) :
      Step s (.unbind dev) { s with bound := Function.update s.bound dev none }

theorem step_cases {s next : Driver} {label : Label} (h : step s label = some next) :
    Step s label next := by
  cases label with
  | bind dev answers =>
      simp only [step, Option.ite_none_left_eq_some, Option.some.injEq] at h
      exact h.2 ▸ .bound (Option.not_isSome_iff_eq_none.mp h.1)
  | unbind dev =>
      obtain ⟨uses, hbound, rfl⟩ := Option.map_eq_some_iff.mp h
      exact .unbound hbound

/-- As long as no call has failed: the handles are those of the last bind. -/
structure Inv (labels : List Label) (s : Driver) : Prop where
  mydev : ∀ n, s.binds = n + 1 → s.mydev = handles n
  bound : ∀ dev uses, s.bound dev = some uses →
    ∃ n, n < s.binds ∧ uses = (resources acquiredKinds n).map Use.acquire ∧
      (n + 1 = s.binds ↔ lastBound labels = some dev)

theorem lastBound_bind (labels : List Label) (dev : Nat) (answers : Answers) :
    lastBound (labels ++ [.bind dev answers]) = some dev := by
  simp [lastBound, Label.binds]

theorem lastBound_unbind (labels : List Label) (dev : Nat) :
    lastBound (labels ++ [.unbind dev]) = lastBound labels := by
  simp [lastBound, Label.binds]

theorem inv_start : Inv [] start where
  mydev _ h := nomatch h
  bound _ _ h := nomatch h

theorem inv_bind {labels : List Label} {s : Driver} (h : Inv labels s) (dev : Nat)
    {answers : Answers} (hgranted : ¬ answers.Fail) :
    Inv (labels ++ [.bind dev answers])
      ⟨(myprobe answers s.binds s.mydev).2.1, s.binds + 1,
        Function.update s.bound dev (some (myprobe answers s.binds s.mydev).2.2)⟩ := by
  rw [myprobe_granted hgranted]
  refine ⟨fun n hn => congrArg handles (Nat.succ.inj hn), fun other uses hother => ?_⟩
  rw [lastBound_bind]
  dsimp only at hother ⊢
  by_cases hsame : other = dev
  · subst hsame
    rw [Function.update_self, Option.some.injEq] at hother
    exact ⟨s.binds, Nat.lt_succ_self _, hother.symm, iff_of_true rfl rfl⟩
  · rw [Function.update_of_ne hsame] at hother
    obtain ⟨n, hn, huses, -⟩ := h.bound other uses hother
    refine ⟨n, Nat.lt_succ_of_lt hn, huses, iff_of_false ?_ ?_⟩
    · omega
    · exact fun hlast => hsame (Option.some.inj hlast).symm

theorem inv_unbind {labels : List Label} {s : Driver} (h : Inv labels s) (dev : Nat) :
    Inv (labels ++ [.unbind dev]) { s with bound := Function.update s.bound dev none } := by
  refine ⟨h.mydev, fun other uses hother => ?_⟩
  rw [lastBound_unbind]
  by_cases hsame : other = dev
  · subst hsame
    simp only [Function.update_self, reduceCtorEq] at hother
  · simp only [Function.update_of_ne hsame] at hother
    exact h.bound other uses hother

/-! ## One event -/

/-- `myprobe` hides every failure. -/
theorem sound_bind_iff (counted : Kind → Bool) (s : Driver) (dev : Nat) (answers : Answers) :
    Sound counted s (.bind dev answers) ↔ ¬ answers.Fail := by
  constructor
  · intro hsound hfail
    exact absurd (hsound hfail).1 (lt_irrefl 0)
  · intro hgranted hfail
    exact absurd hfail hgranted

theorem sound_unbind_iff {counted : Kind → Bool} (hcounted : counted .gpd0con = true)
    {labels : List Label} {s : Driver} (h : Inv labels s) {dev : Nat}
    {uses : List (Use Resource)} (hbound : s.bound dev = some uses) :
    Sound counted s (.unbind dev) ↔
      lastBound labels = some dev ∧
        (releasedKinds.filter counted).Perm (acquiredKinds.filter counted) := by
  obtain ⟨n, hn, huses, hlast⟩ := h.bound dev uses hbound
  obtain ⟨m, hm⟩ : ∃ m, s.binds = m + 1 := ⟨s.binds - 1, by omega⟩
  have hsame : n = m ↔ lastBound labels = some dev := by
    rw [← hlast, hm]
    omega
  have hsound : Sound counted s (.unbind dev) ↔
      Use.Balanced (restrict counted (uses ++ myremove s.mydev)) := by
    simp only [Sound, hbound, Option.some.injEq, forall_eq']
  rw [hsound, h.mydev m hm, huses, balanced_iff counted hcounted, hsame]

/-! ## Sequences -/

theorem inv_of_sound {counted : Kind → Bool} {labels : List Label} {s : Driver}
    (hrun : system.run start labels = some s) (h : AtEach (SoundAt counted) labels) :
    Inv labels s := by
  induction labels using List.reverseRecOn generalizing s with
  | nil =>
      cases hrun
      exact inv_start
  | append_singleton labels label ih =>
      obtain ⟨hfront, hlast⟩ := atEach_append.mp h
      rw [System.run_append] at hrun
      obtain ⟨middle, hmiddle, hrest⟩ := Option.bind_eq_some_iff.mp hrun
      obtain ⟨next, hstep, hnext⟩ := Option.bind_eq_some_iff.mp hrest
      cases hnext
      have hinv := ih hmiddle hfront
      have hsound := hlast middle hmiddle
      cases step_cases hstep with
      | bound hfree => exact inv_bind hinv _ ((sound_bind_iff _ _ _ _).mp hsound)
      | unbound hbound => exact inv_unbind hinv _

/--
A bind in which a call fails is never undone and never reported.  Without failures an
unbind gives everything back, the reference to the device excepted, exactly when the
device is the one that was bound last.
-/
theorem binds_sound_iff (labels : List Label) {s : Driver}
    (hrun : system.run start labels = some s) :
    (AtEach (SoundAt named) labels ↔ AtEach Undoes labels) ∧
      (AtEach (SoundAt every) labels ↔ AtEach (fun _ => Keeps) labels) := by
  have hevent : ∀ counted : Kind → Bool, counted .gpd0con = true → ∀ front label,
      front ++ [label] <+: labels → AtEach (SoundAt counted) front →
        (SoundAt counted front label ↔ Undoes front label ∧
          ((releasedKinds.filter counted).Perm (acquiredKinds.filter counted) ∨
            label.binds.isSome)) := by
    rintro counted hcounted front label ⟨back, rfl⟩ hfront
    rw [System.run_append, System.run_append] at hrun
    obtain ⟨next, hnext, -⟩ := Option.bind_eq_some_iff.mp hrun
    obtain ⟨middle, hmiddle, hrest⟩ := Option.bind_eq_some_iff.mp hnext
    obtain ⟨after, hstep, -⟩ := Option.bind_eq_some_iff.mp hrest
    have hinv := inv_of_sound hmiddle hfront
    have hat : SoundAt counted front label ↔ Sound counted middle label := by
      simp only [SoundAt, hmiddle, Option.some.injEq, forall_eq']
    rw [hat]
    cases step_cases hstep with
    | bound hfree => simp [sound_bind_iff, Undoes, Label.binds]
    | unbound hbound => simp [sound_unbind_iff hcounted hinv hbound, Undoes, Label.binds]
  constructor
  · refine atEach_iff_of_agree fun front label hpre hfront => ?_
    rw [hevent named rfl front label hpre hfront]
    exact and_iff_left (.inl named_perm)
  · refine atEach_iff_of_agree fun front label hpre hfront => ?_
    rw [hevent every rfl front label hpre hfront]
    cases label with
    | bind dev answers => simp [Undoes, Keeps, Label.binds]
    | unbind dev => simp [Undoes, Keeps, Label.binds, not_every_perm]

def granted : Answers := ⟨0, 0⟩

/-- No device number is left for the driver. -/
def noRegion : Answers := ⟨-16, 0⟩

/-- The failed bind keeps its mappings; after a good one, the old handles are released again. -/
theorem failed_bind_not_undone :
    myprobe noRegion 0 start.mydev =
        (0, ⟨none, none, none, none, some 0, some 0⟩,
          [.acquire ⟨.pwmbase, some 0⟩, .acquire ⟨.gpd0con, some 0⟩]) ∧
      ((system.run start [.bind 0 granted, .unbind 0, .bind 0 noRegion]).map fun s =>
          myremove s.mydev) =
        some [.release ⟨.gpd0con, some 1⟩, .release ⟨.pwmbase, some 1⟩,
          .release ⟨.mytestDevice, some 0⟩, .release ⟨.mytestClass, some 0⟩,
          .release ⟨.entry, some 0⟩, .release ⟨.cdev, some 0⟩, .release ⟨.devnum, some 0⟩] ∧
      ¬ AtEach (SoundAt named) [.bind 0 noRegion] := by
  refine ⟨rfl, rfl, fun h => ?_⟩
  have hsound := h [] (.bind 0 noRegion) (List.prefix_refl _) start rfl
  exact absurd (hsound (by decide)).1 (by decide)

def inTurn : List Label := [.bind 0 granted, .unbind 0, .bind 1 granted, .unbind 1]

theorem in_turn_sound : AtEach (SoundAt named) inTurn := by
  obtain ⟨s, hrun⟩ : ∃ s, system.run start inTurn = some s := ⟨_, rfl⟩
  exact (binds_sound_iff inTurn hrun).1.mpr (by decide)

end FarsightDriver.Pwm.Lifetime
