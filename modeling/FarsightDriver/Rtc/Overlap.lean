import FarsightDriver.Foundation.System
import FarsightDriver.Rtc.Basic
import Mathlib.Data.Fintype.Card
import Mathlib.Data.Fintype.Sets

/-!
# Overlapping settings

`RTC_ioctl` copies the time of the caller into `tData` and `RTC_set` writes it into
the registers, field by field.  `tData` is one for all processes, so that a setting
goes on with the time that was copied last.  What it has already taken from `tData`
it writes as it is: that much of an earlier time, one field for each process, can
come after the later one.

The copy is one step.  A field is taken from `tData`, and in a later step written
by `io_wr32`; the mask leaves nothing of the word that `io_wr32` reads.
-/

namespace FarsightDriver.Rtc.Overlap

open FarsightDriver.Foundation

instance : Fintype Field :=
  ⟨{.sec, .min, .hour, .day, .week, .mon, .year}, fun field => by cases field <;> decide⟩

/-- The fields in the order in which `RTC_set` writes their registers. -/
def fields : List Field := [.sec, .min, .hour, .week, .day, .mon, .year]

/-- What `RTC_set` writes into the register of a field. -/
def written (tData : RTCTimeData) : Field → U32
  | .sec => tData.bcdSec
  | .min => tData.bcdMin
  | .hour => tData.bcdHour
  | .week => tData.bcdDay
  | .day => tData.bcdWeek
  | .mon => tData.bcdMon
  | .year => tData.bcdYear

/-- `todo` are the fields that a process has still to write, `arg` what it has taken of the
first. -/
structure State (P : Type) where
  regs : Regs
  tData : RTCTimeData
  todo : P → List Field
  arg : P → Option U32
  copied : List RTCTimeData

inductive Label (P : Type) where
  | call (p : P) (value : RTCTimeData)
  | take (p : P)
  | store (p : P)

section Fields

variable {P : Type} [DecidableEq P] (s : State P) (p : P)

def State.call (value : RTCTimeData) : State P :=
  { s with
    tData := value
    todo := Function.update s.todo p fields
    copied := s.copied ++ [value] }

def State.take (field : Field) : State P :=
  { s with arg := Function.update s.arg p (some (written s.tData field)) }

def State.store (field : Field) (rest : List Field) (value : U32) : State P :=
  { s with
    regs := ioWr32 field.reg (~~~0) value s.regs
    todo := Function.update s.todo p rest
    arg := Function.update s.arg p none }

end Fields

variable {P : Type} [DecidableEq P]

def step (s : State P) : Label P → Option (State P)
  | .call p value =>
      match s.todo p with
      | [] => some (s.call p value)
      | _ :: _ => none
  | .take p =>
      match s.todo p, s.arg p with
      | field :: _, none => some (s.take p field)
      | _, _ => none
  | .store p =>
      match s.todo p, s.arg p with
      | field :: rest, some value => some (s.store p field rest value)
      | _, _ => none

def system (P : Type) [DecidableEq P] (regs : Regs) : System (State P) (Label P) where
  init s := s.regs = regs ∧ (∀ p, s.todo p = []) ∧ (∀ p, s.arg p = none) ∧ s.copied = []
  step := step

inductive Step (s : State P) : State P → Prop
  | call {p : P} (value : RTCTimeData) (htodo : s.todo p = []) : Step s (s.call p value)
  | take {p : P} {field : Field} {rest : List Field} (htodo : s.todo p = field :: rest)
      (harg : s.arg p = none) : Step s (s.take p field)
  | store {p : P} {field : Field} {rest : List Field} {value : U32}
      (htodo : s.todo p = field :: rest) (harg : s.arg p = some value) :
      Step s (s.store p field rest value)

theorem step_cases {s next : State P} {label : Label P} (h : step s label = some next) :
    Step s next := by
  cases label with
  | call p value =>
      simp only [step] at h
      split at h
      · rename_i htodo
        exact Option.some.inj h ▸ .call value htodo
      · cases h
  | take p =>
      simp only [step] at h
      split at h
      · rename_i htodo harg
        exact Option.some.inj h ▸ .take htodo harg
      · cases h
  | store p =>
      simp only [step] at h
      split at h
      · rename_i htodo harg
        exact Option.some.inj h ▸ .store htodo harg
      · cases h

theorem reg_injective : Function.Injective Field.reg := by
  intro field other h
  have hfield := congrArg Reg.field h
  rwa [field_reg, field_reg, Option.some.injEq] at hfield

theorem store_regs (s : State P) (p : P) (field : Field) (rest : List Field) (value : U32) :
    (s.store p field rest value).regs = Function.update s.regs field.reg value :=
  ioWr32_all field.reg value s.regs

theorem store_reg_of_ne (s : State P) (p : P) {field other : Field} (h : other ≠ field)
    (rest : List Field) (value : U32) :
    (s.store p field rest value).regs other.reg = s.regs other.reg := by
  rw [store_regs, Function.update_of_ne fun hreg => h (reg_injective hreg)]

/-! ## What has been lost -/

/-- Some process is going to write the field as it now is in `tData`. -/
def Coming (s : State P) (field : Field) : Prop :=
  ∃ p, field ∈ s.todo p ∧
    (s.arg p = none ∨ s.arg p = some (written s.tData field) ∨ field ∈ (s.todo p).tail)

/-- The register has another value, and nothing will change that. -/
def Lost (s : State P) (field : Field) : Prop :=
  s.regs field.reg ≠ written s.tData field ∧ ¬ Coming s field

/-- A process has taken a value that is not in `tData` any more. -/
def Stale (s : State P) (p : P) : Prop :=
  ∃ field rest value, s.todo p = field :: rest ∧ s.arg p = some value ∧
    value ≠ written s.tData field

variable {s next : State P} {p q : P} {field other : Field} {rest : List Field} {value : U32}

theorem lost_take (htodo : s.todo p = field :: rest) (h : Lost (s.take p field) other) :
    Lost s other := by
  obtain ⟨hreg, hcoming⟩ := h
  refine ⟨hreg, fun ⟨q, hmem, hway⟩ => hcoming ⟨q, hmem, ?_⟩⟩
  by_cases hq : q = p
  · subst hq
    rw [htodo] at hmem
    rcases List.mem_cons.mp hmem with rfl | hrest
    · exact .inr (.inl (Function.update_self ..))
    · refine .inr (.inr ?_)
      change other ∈ (s.todo q).tail
      rw [htodo]
      exact hrest
  · have harg : (s.take p field).arg q = s.arg q := Function.update_of_ne hq ..
    rw [harg]
    exact hway

theorem stale_take (htodo : s.todo p = field :: rest) (h : Stale (s.take p field) q) :
    Stale s q := by
  obtain ⟨other, rest', value, hother, harg, hvalue⟩ := h
  by_cases hq : q = p
  · subst hq
    obtain ⟨rfl, -⟩ := List.cons.inj (htodo.symm.trans hother)
    have htaken : (s.take q field).arg q = some (written s.tData field) := Function.update_self ..
    rw [htaken, Option.some.injEq] at harg
    exact absurd harg.symm hvalue
  · have hsame : (s.take p field).arg q = s.arg q := Function.update_of_ne hq ..
    exact ⟨other, rest', value, hother, hsame ▸ harg, hvalue⟩

/-- A write only decides about its own field. -/
theorem lost_store (htodo : s.todo p = field :: rest)
    (h : Lost (s.store p field rest value) other) (hother : other ≠ field) : Lost s other := by
  obtain ⟨hreg, hcoming⟩ := h
  rw [store_reg_of_ne s p hother] at hreg
  refine ⟨hreg, fun ⟨q, hmem, hway⟩ => hcoming ?_⟩
  by_cases hq : q = p
  · subst hq
    have hrest : other ∈ rest := (List.mem_cons.mp (htodo ▸ hmem)).resolve_left hother
    have htodo' : (s.store q field rest value).todo q = rest := Function.update_self ..
    exact ⟨q, by rw [htodo']; exact hrest, .inl (Function.update_self ..)⟩
  · have htodo' : (s.store p field rest value).todo q = s.todo q := Function.update_of_ne hq ..
    have harg : (s.store p field rest value).arg q = s.arg q := Function.update_of_ne hq ..
    refine ⟨q, htodo' ▸ hmem, ?_⟩
    rw [harg, htodo']
    exact hway

theorem not_lost_store : ¬ Lost (s.store p field rest (written s.tData field)) field := by
  rintro ⟨hreg, -⟩
  rw [store_regs, Function.update_self] at hreg
  exact hreg rfl

theorem stale_store (h : Stale (s.store p field rest value) q) : Stale s q ∧ q ≠ p := by
  obtain ⟨other, rest', value', hother, harg, hvalue⟩ := h
  by_cases hq : q = p
  · subst hq
    have hnone : (s.store q field rest value).arg q = none := Function.update_self ..
    exact absurd (hnone.symm.trans harg) nofun
  · have htodo : (s.store p field rest value).todo q = s.todo q := Function.update_of_ne hq ..
    have hsame : (s.store p field rest value).arg q = s.arg q := Function.update_of_ne hq ..
    exact ⟨⟨other, rest', value', htodo ▸ hother, hsame ▸ harg, hvalue⟩, hq⟩

theorem mem_fields (field : Field) : field ∈ fields := by
  cases field <;> decide

theorem not_lost_call (harg : s.arg p = none) (value : RTCTimeData) (field : Field) :
    ¬ Lost (s.call p value) field := by
  have htodo : (s.call p value).todo p = fields := Function.update_self ..
  exact fun ⟨_, hcoming⟩ => hcoming ⟨p, htodo ▸ mem_fields field, .inl harg⟩

theorem not_stale_call (harg : s.arg p = none) (value : RTCTimeData) :
    ¬ Stale (s.call p value) p := by
  rintro ⟨_, _, _, -, htaken, -⟩
  exact absurd (harg.symm.trans htaken) nofun

/-! ## How much can be lost -/

open Classical in
noncomputable def lost (s : State P) : Finset Field := Finset.univ.filter (Lost s)

omit [DecidableEq P] in
theorem mem_lost : field ∈ lost s ↔ Lost s field := by
  simp [lost]

section Counting

variable [Fintype P]

open Classical in
noncomputable def stale (s : State P) : Finset P := Finset.univ.filter (Stale s)

omit [DecidableEq P] in
theorem mem_stale : p ∈ stale s ↔ Stale s p := by
  simp [stale]

structure Inv (s : State P) : Prop where
  idle : ∀ p, s.todo p = [] → s.arg p = none
  last : ∀ value, s.copied.getLast? = some value → s.tData = value
  few : s.copied ≠ [] → (lost s).card + (stale s).card < Fintype.card P

theorem Inv.call (h : Inv s) (value : RTCTimeData) (htodo : s.todo p = []) :
    Inv (s.call p value) := by
  have harg := h.idle p htodo
  refine ⟨fun q hq => ?_, fun value' hlast => ?_, fun _ => ?_⟩
  · by_cases hqp : q = p
    · exact hqp ▸ harg
    · have hsame : (s.call p value).todo q = s.todo q := Function.update_of_ne hqp ..
      exact h.idle q (hsame ▸ hq)
  · rw [State.call, List.getLast?_concat, Option.some.injEq] at hlast
    exact hlast
  · have hnone : lost (s.call p value) = ∅ :=
      Finset.eq_empty_of_forall_notMem fun field hmem =>
        not_lost_call harg value field (mem_lost.mp hmem)
    rw [hnone, Finset.card_empty, Nat.zero_add]
    exact Finset.card_lt_univ_of_notMem fun hmem => not_stale_call harg value (mem_stale.mp hmem)

theorem Inv.take (h : Inv s) (htodo : s.todo p = field :: rest) : Inv (s.take p field) := by
  refine ⟨fun q hq => ?_, h.last, fun hcopied => ?_⟩
  · have hqp : q ≠ p := by
      rintro rfl
      exact absurd (htodo.symm.trans hq) nofun
    exact (Function.update_of_ne hqp ..).trans (h.idle q hq)
  · have hlost : (lost (s.take p field)).card ≤ (lost s).card :=
      Finset.card_le_card fun other hmem => mem_lost.mpr (lost_take htodo (mem_lost.mp hmem))
    have hstale : (stale (s.take p field)).card ≤ (stale s).card :=
      Finset.card_le_card fun q hmem => mem_stale.mpr (stale_take htodo (mem_stale.mp hmem))
    have hfew := h.few hcopied
    omega

theorem Inv.store (h : Inv s) (htodo : s.todo p = field :: rest) (harg : s.arg p = some value) :
    Inv (s.store p field rest value) := by
  refine ⟨fun q hq => ?_, h.last, fun hcopied => ?_⟩
  · by_cases hqp : q = p
    · subst hqp
      exact Function.update_self ..
    · have hsame : (s.store p field rest value).todo q = s.todo q := Function.update_of_ne hqp ..
      exact (Function.update_of_ne hqp ..).trans (h.idle q (hsame ▸ hq))
  · have hfew := h.few hcopied
    have hstale : stale (s.store p field rest value) ⊆ (stale s).erase p := by
      intro q hmem
      obtain ⟨hq, hqp⟩ := stale_store (mem_stale.mp hmem)
      exact Finset.mem_erase.mpr ⟨hqp, mem_stale.mpr hq⟩
    have hle := Finset.card_le_card hstale
    by_cases hvalue : value = written s.tData field
    · have hlost : lost (s.store p field rest value) ⊆ lost s := by
        intro other hmem
        have hother : other ≠ field := by
          rintro rfl
          exact not_lost_store (hvalue ▸ mem_lost.mp hmem)
        exact mem_lost.mpr (lost_store htodo (mem_lost.mp hmem) hother)
      have hlostle := Finset.card_le_card hlost
      have herase := Finset.card_erase_le (s := stale s) (a := p)
      omega
    · -- The field may be lost now, but the process is not stale any more.
      have hlost : lost (s.store p field rest value) ⊆ insert field (lost s) := by
        intro other hmem
        by_cases hother : other = field
        · exact Finset.mem_insert.mpr (.inl hother)
        · exact Finset.mem_insert_of_mem
            (mem_lost.mpr (lost_store htodo (mem_lost.mp hmem) hother))
      have hlostle := (Finset.card_le_card hlost).trans (Finset.card_insert_le field (lost s))
      have hself : p ∈ stale s := mem_stale.mpr ⟨field, rest, value, htodo, harg, hvalue⟩
      have herase := Finset.card_erase_add_one hself
      omega

theorem inv_of_reachable {regs : Regs} (h : (system P regs).Reachable s) : Inv s := by
  refine h.invariant Inv (fun start hinit => ?_) fun s label next hinv hstep => ?_
  · obtain ⟨-, -, harg, hcopied⟩ := hinit
    refine ⟨fun p _ => harg p, fun value hlast => ?_, fun hsome => absurd hcopied hsome⟩
    rw [hcopied] at hlast
    exact absurd hlast nofun
  · cases step_cases hstep with
    | call value htodo => exact hinv.call value htodo
    | take htodo harg => exact hinv.take htodo
    | store htodo harg => exact hinv.store htodo harg

end Counting

/-! ## A process while the others rest -/

/-- The registers after these fields. -/
def writeAll (tData : RTCTimeData) (regs : Regs) (front : List Field) : Regs :=
  front.foldl (fun regs field => Function.update regs field.reg (written tData field)) regs

theorem writeAll_reg (tData : RTCTimeData) (regs : Regs) (front : List Field) (field : Field) :
    writeAll tData regs front field.reg =
      if field ∈ front then written tData field else regs field.reg := by
  induction front generalizing regs with
  | nil => rfl
  | cons first rest ih =>
      rw [writeAll, List.foldl_cons]
      refine (ih _).trans ?_
      by_cases hrest : field ∈ rest
      · rw [if_pos hrest, if_pos (List.mem_cons_of_mem _ hrest)]
      · rw [if_neg hrest]
        by_cases hfirst : field = first
        · rw [hfirst, Function.update_self, if_pos List.mem_cons_self]
        · rw [Function.update_of_ne fun hreg => hfirst (reg_injective hreg),
            if_neg fun hmem => (List.mem_cons.mp hmem).elim hfirst hrest]

section Alone

variable {regs : Regs} (h : (system P regs).Reachable s)

include h

theorem reachable_call (value : RTCTimeData) (htodo : s.todo p = []) :
    (system P regs).Reachable (s.call p value) :=
  h.step (a := Label.call p value) trivial (by simp only [system, step, htodo])

theorem reachable_take (htodo : s.todo p = field :: rest) (harg : s.arg p = none) :
    (system P regs).Reachable (s.take p field) :=
  h.step (a := Label.take p) trivial (by simp only [system, step, htodo, harg])

theorem reachable_store (htodo : s.todo p = field :: rest) (harg : s.arg p = some value) :
    (system P regs).Reachable (s.store p field rest value) :=
  h.step (a := Label.store p) trivial (by simp only [system, step, htodo, harg])

theorem alone {front : List Field} (htodo : s.todo p = front ++ rest) (harg : s.arg p = none) :
    ∃ s', (system P regs).Reachable s' ∧ s'.regs = writeAll s.tData s.regs front ∧
      s'.tData = s.tData ∧ s'.todo = Function.update s.todo p rest ∧ s'.arg = s.arg ∧
      s'.copied = s.copied := by
  induction front generalizing s with
  | nil =>
      refine ⟨s, h, rfl, rfl, ?_, rfl, rfl⟩
      rw [← List.nil_append rest, ← htodo, Function.update_eq_self]
  | cons field front ih =>
      have hstored := reachable_store (reachable_take h htodo harg) htodo (Function.update_self ..)
      obtain ⟨s', h', hregs, hdata, htodo', harg', hcopied⟩ :=
        ih hstored (Function.update_self ..) (Function.update_self ..)
      refine ⟨s', h', ?_, hdata, ?_, ?_, hcopied⟩
      · rw [hregs, store_regs]
        rfl
      · rw [htodo']
        exact Function.update_idem ..
      · rw [harg', State.store, State.take, Function.update_idem, ← harg, Function.update_eq_self]

end Alone

theorem rtcSet_reg (tData : RTCTimeData) (regs : Regs) (field : Field) :
    rtcSet tData regs field.reg = written tData field := by
  simp only [rtcSet, ioWr32_all]
  cases field <;> simp [ioWr32, Function.update, Field.reg, written]

/-- Without another in between, a setting is `RTC_set`. -/
theorem set_alone {regs : Regs} (h : (system P regs).Reachable s) (htodo : s.todo p = [])
    (harg : s.arg p = none) (value : RTCTimeData) :
    ∃ s', (system P regs).Reachable s' ∧
      (∀ field : Field, s'.regs field.reg = rtcSet value s.regs field.reg) ∧
      s'.tData = value ∧ s'.todo = s.todo ∧ s'.arg = s.arg ∧ s'.copied = s.copied ++ [value] := by
  have hfields : (s.call p value).todo p = fields ++ [] := Function.update_self ..
  obtain ⟨s', h', hregs, hdata, htodo', harg', hcopied⟩ :=
    alone (reachable_call h value htodo) hfields harg
  refine ⟨s', h', fun field => ?_, hdata, ?_, harg', hcopied⟩
  · rw [hregs, writeAll_reg, if_pos (mem_fields field), rtcSet_reg]
    rfl
  · rw [htodo', State.call, Function.update_idem, ← htodo, Function.update_eq_self]

/-! ## A field that is left -/

def resting (regs : Regs) (tData : RTCTimeData) : State P :=
  ⟨regs, tData, fun _ => [], fun _ => none, []⟩

theorem fields_split (field : Field) :
    ∃ front back, fields = front ++ field :: back ∧ field ∉ back := by
  obtain ⟨front, back, hsplit⟩ := List.append_of_mem (mem_fields field)
  have hnodup : fields.Nodup := by decide
  rw [hsplit, List.nodup_middle, List.nodup_cons] at hnodup
  exact ⟨front, back, hsplit, fun hback => hnodup.1 (List.mem_append_right _ hback)⟩

/-- `q` sets the clock between the two accesses in which `p` writes the field. -/
theorem field_left (hpq : p ≠ q) (regs : Regs) (a b : RTCTimeData) (field : Field) :
    ∃ s : State P, (system P regs).Reachable s ∧ (∀ r, s.todo r = []) ∧ s.copied = [a, b] ∧
      s.regs field.reg = written a field ∧
      ∀ other, other ≠ field → s.regs other.reg = written b other := by
  obtain ⟨front, back, hsplit, hback⟩ := fields_split field
  have hinit : (system P regs).Reachable (resting regs a) :=
    .init ⟨rfl, fun _ => rfl, fun _ => rfl, rfl⟩
  have hfront : ((resting regs a : State P).call p a).todo p = front ++ field :: back :=
    (Function.update_self ..).trans hsplit
  obtain ⟨s₁, h₁, -, hdata₁, htodo₁, harg₁, hcopied₁⟩ :=
    alone (reachable_call hinit a (p := p) rfl) hfront rfl
  have htodop : s₁.todo p = field :: back := by
    rw [htodo₁, Function.update_self]
  have hnone (r : P) : s₁.arg r = none := congrFun harg₁ r
  have hidle {r : P} (hr : r ≠ p) : s₁.todo r = [] := by
    rw [htodo₁, Function.update_of_ne hr]
    exact Function.update_of_ne hr ..
  have htaken := reachable_take h₁ htodop (hnone p)
  -- Now `q` sets the clock, while `p` holds its field of `a`.
  have hargq : (s₁.take p field).arg q = none :=
    (Function.update_of_ne hpq.symm ..).trans (hnone q)
  obtain ⟨s₂, h₂, hregs₂, hdata₂, htodo₂, harg₂, hcopied₂⟩ :=
    set_alone htaken (hidle hpq.symm) hargq b
  have htodop₂ : s₂.todo p = field :: back := (congrFun htodo₂ p).trans htodop
  have hargp₂ : s₂.arg p = some (written a field) := by
    have hdata : s₁.tData = a := hdata₁
    rw [← hdata]
    exact (congrFun harg₂ p).trans (Function.update_self ..)
  have hstored := reachable_store h₂ htodop₂ hargp₂
  have hrest : (s₂.store p field back (written a field)).todo p = back ++ [] :=
    (Function.update_self ..).trans (List.append_nil _).symm
  obtain ⟨s₃, h₃, hregs₃, hdata₃, htodo₃, -, hcopied₃⟩ :=
    alone hstored hrest (Function.update_self ..)
  have hdata : (s₂.store p field back (written a field)).tData = b := hdata₂
  refine ⟨s₃, h₃, fun r => ?_, ?_, ?_, fun other hother => ?_⟩
  · rw [htodo₃]
    by_cases hr : r = p
    · rw [hr, Function.update_self]
    · rw [Function.update_of_ne hr]
      exact (Function.update_of_ne hr ..).trans ((congrFun htodo₂ r).trans (hidle hr))
  · have hfirst : s₁.copied = [a] := hcopied₁
    have hsecond : s₂.copied = s₁.copied ++ [b] := hcopied₂
    have hthird : s₃.copied = s₂.copied := hcopied₃
    rw [hthird, hsecond, hfirst]
    rfl
  · rw [hregs₃, writeAll_reg, if_neg hback, store_regs, Function.update_self]
  · rw [hregs₃, writeAll_reg, hdata, store_reg_of_ne s₂ p hother, hregs₂, rtcSet_reg, ite_self]

/--
When all settings are done, the registers hold the time that was copied last, but
for fewer fields than there are processes.  With two, it may be any one field.
-/
theorem overlapping_settings [Fintype P] (regs : Regs) :
    (∀ (s : State P) (value : RTCTimeData), (system P regs).Reachable s →
      (∀ p, s.todo p = []) → s.copied.getLast? = some value →
        (Finset.univ.filter fun field : Field =>
          s.regs field.reg ≠ rtcSet value s.regs field.reg).card < Fintype.card P) ∧
    ∀ p q : P, p ≠ q → ∀ (a b : RTCTimeData) (field : Field),
      ∃ s : State P, (system P regs).Reachable s ∧ (∀ r, s.todo r = []) ∧ s.copied = [a, b] ∧
        s.regs field.reg = rtcSet a regs field.reg ∧
        ∀ other, other ≠ field → s.regs other.reg = rtcSet b regs other.reg := by
  refine ⟨fun s value h hdone hlast => ?_, fun p q hpq a b field => ?_⟩
  · have hinv := inv_of_reachable h
    have hcopied : s.copied ≠ [] := by
      rintro hnil
      rw [hnil] at hlast
      contradiction
    have hfew := hinv.few hcopied
    refine lt_of_le_of_lt (Finset.card_le_card fun field hmem => ?_)
      (lt_of_le_of_lt (Nat.le_add_right _ _) hfew)
    have hreg := (Finset.mem_filter.mp hmem).2
    rw [rtcSet_reg, ← hinv.last value hlast] at hreg
    refine mem_lost.mpr ⟨hreg, fun ⟨p, hmem, _⟩ => ?_⟩
    rw [hdone p] at hmem
    exact absurd hmem List.not_mem_nil
  · simp only [rtcSet_reg]
    exact field_left hpq regs a b field

def noon : RTCTimeData := ⟨0x16, 0x05, 0x3, 0x12, 0x12, 0x00, 0x00⟩

def lateNight : RTCTimeData := ⟨0x16, 0x05, 0x3, 0x12, 0x23, 0x59, 0x59⟩

theorem hour_left_over : ∃ s : State Bool, (system Bool fun _ => 0).Reachable s ∧
    s.regs Field.hour.reg = 0x12 ∧ s.regs Field.min.reg = 0x59 ∧
    (Finset.univ.filter fun field : Field =>
      s.regs field.reg ≠ rtcSet lateNight s.regs field.reg).card < 2 := by
  obtain ⟨hfew, hany⟩ := overlapping_settings (P := Bool) fun _ => 0
  obtain ⟨s, h, hdone, hcopied, hhour, hothers⟩ := hany true false nofun noon lateNight .hour
  have hmin : s.regs Field.min.reg = 0x59 := (hothers .min nofun).trans (rtcSet_reg ..)
  have hlast : s.copied.getLast? = some lateNight := by rw [hcopied]; rfl
  exact ⟨s, h, hhour.trans (rtcSet_reg ..), hmin, hfew s lateNight h hdone hlast⟩

end FarsightDriver.Rtc.Overlap
