import FarsightDriver.Foundation.Checked
import FarsightDriver.Foundation.Prefixes
import FarsightDriver.Pwm.Basic

/-!
# Two versions of `music`

The first version takes the compare value of a tune from `TCMPB0`, which it
halves; the later one takes it from the tune.  So the first version halves
whatever `TCMPB0` held before the driver was opened, once for every tune.
-/

namespace FarsightDriver.Pwm

open FarsightDriver.Foundation

def ioread32 (addr : Reg) (regs : Regs) : U32 := regs addr

def iowrite32 (value : U32) (addr : Reg) (regs : Regs) : Regs := Function.update regs addr value

@[simp] theorem iowrite32_self (value : U32) (addr : Reg) (regs : Regs) :
    iowrite32 value addr regs addr = value :=
  Function.update_self ..

@[simp] theorem iowrite32_of_ne {addr other : Reg} (h : other ≠ addr) (value : U32) (regs : Regs) :
    iowrite32 value addr regs other = regs other :=
  Function.update_of_ne h ..

/-! ## The version of `PWM/01` -/

namespace First

def music (tunes : Int) (regs : Regs) : Regs :=
  if tunes = 0 then
    let data := ioread32 .tcon regs
    iowrite32 (data &&& ~~~1) .tcon regs
  else
    let regs := iowrite32 (.ofInt 32 tunes) .tcntb0 regs
    let data := ioread32 .tcmpb0 regs
    let regs := iowrite32 (data / 2) .tcmpb0 regs
    let data := ioread32 .tcon regs
    let regs := iowrite32 (data ||| (1 <<< 3 : U32)) .tcon regs
    let data := ioread32 .tcon regs
    let regs := iowrite32 (data ||| 1) .tcon regs
    let data := ioread32 .tcon regs
    iowrite32 (data &&& ~~~(1 <<< 1 : U32)) .tcon regs

def pwmGpioInit (regs : Regs) : Regs :=
  let data := ioread32 .gpd0con regs
  let regs := iowrite32 (data &&& ~~~0xf ||| 0x2) .gpd0con regs
  let data := ioread32 .tcfg0 regs
  let regs := iowrite32 (data &&& ~~~0xff ||| 99) .tcfg0 regs
  let data := ioread32 .tcfg1 regs
  let regs := iowrite32 (data &&& ~~~0xf) .tcfg1 regs
  let data := ioread32 .tcon regs
  iowrite32 (data ||| (1 <<< 3 : U32)) .tcon regs

def play (regs : Regs) (tunes : List Int) : Regs :=
  tunes.foldl (fun regs tune => music tune regs) (pwmGpioInit regs)

end First

/-! ## The version of `02_music` -/

namespace Later

def music (tunes : Int) (regs : Regs) : Regs :=
  if tunes = 0 then
    let data := ioread32 .tcon regs
    iowrite32 (data &&& ~~~1) .tcon regs
  else
    let regs := iowrite32 (.ofInt 32 tunes) .tcntb0 regs
    let regs := iowrite32 (.ofInt 32 (tunes.tdiv 2)) .tcmpb0 regs
    let data := ioread32 .tcon regs
    let regs := iowrite32 (data ||| 0x3) .tcon regs
    let data := ioread32 .tcon regs
    let regs := iowrite32 (data &&& ~~~(1 <<< 1 : U32) ||| (1 <<< 3 : U32)) .tcon regs
    let data := ioread32 .tcon regs
    iowrite32 (data ||| 1) .tcon regs

def pwmGpioInit (regs : Regs) : Regs :=
  let data := ioread32 .gpd0con regs
  let regs := iowrite32 (data &&& ~~~0xf ||| 0x2) .gpd0con regs
  let data := ioread32 .tcfg0 regs
  let regs := iowrite32 (data &&& ~~~0xff ||| 99) .tcfg0 regs
  let data := ioread32 .tcfg1 regs
  let regs := iowrite32 (data &&& ~~~0xf) .tcfg1 regs
  let regs := iowrite32 1000 .tcntb0 regs
  let regs := iowrite32 500 .tcmpb0 regs
  let data := ioread32 .tcon regs
  let regs := iowrite32 (data ||| 3) .tcon regs
  let data := ioread32 .tcon regs
  iowrite32 (data &&& ~~~(1 <<< 1 : U32) ||| (1 <<< 3 : U32)) .tcon regs

def play (regs : Regs) (tunes : List Int) : Regs :=
  tunes.foldl (fun regs tune => music tune regs) (pwmGpioInit regs)

end Later

/-! ## What a tune leaves -/

theorem First.init_tcmpb0 (regs : Regs) : First.pwmGpioInit regs .tcmpb0 = regs .tcmpb0 := by
  simp [First.pwmGpioInit]

theorem First.rest_tcmpb0 (regs : Regs) : First.music 0 regs .tcmpb0 = regs .tcmpb0 := by
  simp [First.music]

theorem First.note_tcmpb0 {tune : Int} (h : tune ≠ 0) (regs : Regs) :
    First.music tune regs .tcmpb0 = regs .tcmpb0 / 2 := by
  simp [First.music, h, ioread32]

theorem First.note_tcntb0 {tune : Int} (h : tune ≠ 0) (regs : Regs) :
    First.music tune regs .tcntb0 = .ofInt 32 tune := by
  simp [First.music, h]

theorem Later.note_tcntb0 {tune : Int} (h : tune ≠ 0) (regs : Regs) :
    Later.music tune regs .tcntb0 = .ofInt 32 tune := by
  simp [Later.music, h]

theorem Later.note_tcmpb0 {tune : Int} (h : tune ≠ 0) (regs : Regs) :
    Later.music tune regs .tcmpb0 = .ofInt 32 (tune.tdiv 2) := by
  simp [Later.music, h]

theorem First.play_append (regs : Regs) (tunes : List Int) (tune : Int) :
    First.play regs (tunes ++ [tune]) = First.music tune (First.play regs tunes) := by
  rw [First.play, List.foldl_append]
  rfl

theorem Later.play_append (regs : Regs) (tunes : List Int) (tune : Int) :
    Later.play regs (tunes ++ [tune]) = Later.music tune (Later.play regs tunes) := by
  rw [Later.play, List.foldl_append]
  rfl

/-! ## Agreement -/

def notes (tunes : List Int) : List Int := tunes.filter (· ≠ 0)

structure SameNote (first later : Regs) : Prop where
  period : first .tcntb0 = later .tcntb0
  compare : first .tcmpb0 = later .tcmpb0
  firstHalf : (first .tcmpb0).toNat = (first .tcntb0).toNat / 2
  laterHalf : (later .tcmpb0).toNat = (later .tcntb0).toNat / 2

/-- The versions agree after every tune that is not a rest. -/
def VersionsAgree (regs : Regs) (tunes : List Int) : Prop :=
  AtEach (fun front tune => tune ≠ 0 →
    SameNote (First.play regs (front ++ [tune])) (Later.play regs (front ++ [tune]))) tunes

/-- Each note has the half that one halving of `compare` for every note so far gives. -/
def HalvesMatch (compare : Nat) (tunes : List Int) : Prop :=
  AtEach (fun front tune => tune ≠ 0 →
    tune / 2 = (compare / 2 ^ ((notes front).length + 1) : Nat)) tunes

instance (compare : Nat) (tunes : List Int) : Decidable (HalvesMatch compare tunes) :=
  inferInstanceAs (Decidable (AtEach _ tunes))

theorem notes_append_rest (tunes : List Int) : notes (tunes ++ [0]) = notes tunes := by
  simp [notes]

theorem notes_append_note (tunes : List Int) {tune : Int} (h : tune ≠ 0) :
    notes (tunes ++ [tune]) = notes tunes ++ [tune] := by
  simp [notes, h]

theorem First.play_tcmpb0 (regs : Regs) (tunes : List Int) :
    (First.play regs tunes .tcmpb0).toNat =
      (regs .tcmpb0).toNat / 2 ^ (notes tunes).length := by
  induction tunes using List.reverseRecOn with
  | nil =>
      rw [First.play, List.foldl_nil, First.init_tcmpb0]
      exact (Nat.div_one _).symm
  | append_singleton tunes tune ih =>
      rw [First.play_append]
      by_cases htune : tune = 0
      · rw [htune, First.rest_tcmpb0, notes_append_rest, ih]
      · rw [First.note_tcmpb0 htune, notes_append_note tunes htune, List.length_append,
          List.length_singleton, pow_succ, ← Nat.div_div_eq_div_mul, ← ih]
        exact BitVec.toNat_udiv

theorem sameNote_iff (regs : Regs) (tunes : List Int) {tune : Int} (hne : tune ≠ 0)
    (hlow : 0 ≤ tune) (hhigh : tune ≤ intMax) :
    SameNote (First.play regs (tunes ++ [tune])) (Later.play regs (tunes ++ [tune])) ↔
      tune / 2 = ((regs .tcmpb0).toNat / 2 ^ ((notes tunes).length + 1) : Nat) := by
  rw [intMax] at hhigh
  have hperiod : (First.play regs (tunes ++ [tune]) .tcntb0).toNat = tune.toNat := by
    rw [First.play_append, First.note_tcntb0 hne, BitVec.toNat_ofInt]
    omega
  have hsame : First.play regs (tunes ++ [tune]) .tcntb0 =
      Later.play regs (tunes ++ [tune]) .tcntb0 := by
    rw [First.play_append, Later.play_append, First.note_tcntb0 hne, Later.note_tcntb0 hne]
  have hlater : (Later.play regs (tunes ++ [tune]) .tcmpb0).toNat = tune.toNat / 2 := by
    rw [Later.play_append, Later.note_tcmpb0 hne, Int.tdiv_eq_ediv_of_nonneg hlow,
      BitVec.toNat_ofInt]
    omega
  have hfirst := First.play_tcmpb0 regs (tunes ++ [tune])
  rw [notes_append_note tunes hne, List.length_append, List.length_singleton] at hfirst
  rw [← hfirst]
  constructor
  · intro hnote
    have hhalf := hnote.firstHalf
    rw [hperiod] at hhalf
    omega
  · intro hcompare
    have hhalf : (First.play regs (tunes ++ [tune]) .tcmpb0).toNat = tune.toNat / 2 := by omega
    exact ⟨hsame, BitVec.eq_of_toNat_eq (hhalf.trans hlater.symm), hperiod ▸ hhalf,
      by rw [hlater, ← hsame, hperiod]⟩

/--
The versions agree when the halves of the notes are what the first version gets
by halving, note after note, the `TCMPB0` that it started with.
-/
theorem versions_agree_iff (regs : Regs) (tunes : List Int)
    (htunes : ∀ tune ∈ tunes, 0 ≤ tune ∧ tune ≤ intMax) :
    VersionsAgree regs tunes ↔ HalvesMatch (regs .tcmpb0).toNat tunes := by
  refine atEach_iff_of_agree fun front tune hpre _ => forall_congr' fun hne => ?_
  obtain ⟨hlow, hhigh⟩ := htunes tune (hpre.subset (by simp))
  exact sameNote_iff regs front hne hlow hhigh

/-- A single tune, from registers that are 0. -/
theorem first_tune_has_no_compare :
    First.play (fun _ => 0) [1912] .tcmpb0 = 0 ∧ Later.play (fun _ => 0) [1912] .tcmpb0 = 956 ∧
      ¬ VersionsAgree (fun _ => 0) [1912] := by
  have hfirst : First.play (fun _ => 0) [1912] .tcmpb0 = 0 := by decide
  have hlater : Later.play (fun _ => 0) [1912] .tcmpb0 = 956 := by decide
  refine ⟨hfirst, hlater, fun h => ?_⟩
  have hcompare := (h [] 1912 (List.prefix_refl _) (by decide)).compare
  rw [List.nil_append, hfirst, hlater] at hcompare
  exact absurd hcompare (by decide)

/-- Every note is half of the one before it, and `TCMPB0` begins with the period of the first. -/
theorem descending_octaves_agree :
    VersionsAgree (fun addr => if addr = .tcmpb0 then 2000 else 0) [2000, 0, 1001, 500] :=
  (versions_agree_iff _ _ (by decide)).mpr (by decide)

end FarsightDriver.Pwm
