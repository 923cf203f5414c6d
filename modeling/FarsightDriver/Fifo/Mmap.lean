import FarsightDriver.Que.Refinement

/-!
# Mapping the queue

`mymmap` of the blocking, poll and fasync drivers maps the pages from `Q->data`
on into a process.  The caller chooses the length and, through `vm_pgoff`, the
first page; neither is compared with the size of the array, which fills two
pages and a half.

`remap_pfn_range` is the kernel's and a parameter here.
-/

namespace FarsightDriver.Fifo

open FarsightDriver.Foundation
open FarsightDriver.Que

def pageShift : Nat := 12

def pageSize : Nat := 2 ^ pageShift

def enomem : Int := 12

abbrev ULong (model : DataModel) := BitVec model.bits

/-- What `mymmap` reads of its `vm_area_struct`; an area is made of whole pages. -/
structure Vma (model : DataModel) where
  vmStart : ULong model
  vmEnd : ULong model
  vmPgoff : ULong model
  vmPageProt : ULong model
  nonempty : vmStart.toNat < vmEnd.toNat
  startAligned : pageSize ∣ vmStart.toNat
  endAligned : pageSize ∣ vmEnd.toNat

/-- The physical address of `Q->data`, at the start of a page. -/
structure Location (model : DataModel) where
  phys : ULong model
  aligned : pageSize ∣ phys.toNat
  fits : phys.toNat + queSize ≤ 2 ^ model.bits

/-- The frame that each virtual page is mapped to. -/
abbrev PageTable (model : DataModel) := Nat → Option (ULong model)

/-- `remap_pfn_range` maps the whole range from the given frame on, and nothing else. -/
structure Kernel (model : DataModel) where
  remapPfnRange : (addr pfn size prot : ULong model) → PageTable model → Int × PageTable model
  maps : ∀ addr pfn size prot table, (remapPfnRange addr pfn size prot table).1 = 0 →
    ∀ i < size.toNat / pageSize,
      (remapPfnRange addr pfn size prot table).2 (addr.toNat / pageSize + i) =
        some (pfn + BitVec.ofNat model.bits i)
  keeps : ∀ addr pfn size prot table page,
    page < addr.toNat / pageSize ∨ addr.toNat / pageSize + size.toNat / pageSize ≤ page →
      (remapPfnRange addr pfn size prot table).2 page = table page

variable {model : DataModel}

def mymmap (kernel : Kernel model) (data : Location model) (vma : Vma model)
    (table : PageTable model) : Int × PageTable model :=
  let (ret, table) := kernel.remapPfnRange vma.vmStart
    (vma.vmPgoff + (data.phys >>> pageShift)) (vma.vmEnd - vma.vmStart) vma.vmPageProt table
  if ret ≠ 0 then (-enomem, table) else (0, table)

def Vma.pages (vma : Vma model) : Nat := (vma.vmEnd.toNat - vma.vmStart.toNat) / pageSize

def Location.Holds (data : Location model) (frame : ULong model) : Prop :=
  ∃ j < queSize, frame.toNat = (data.phys.toNat + j) / pageSize

/-- Every page of the area that is mapped shows a part of the array. -/
def Confined (data : Location model) (vma : Vma model) (table : PageTable model) : Prop :=
  ∀ page, vma.vmStart.toNat / pageSize ≤ page → page < vma.vmEnd.toNat / pageSize →
    ∀ frame, table page = some frame → data.Holds frame

theorem pageSize_eq : pageSize = 4096 := rfl

theorem holds_iff (data : Location model) (frame : ULong model) :
    data.Holds frame ↔ data.phys.toNat / pageSize ≤ frame.toNat ∧
      frame.toNat ≤ data.phys.toNat / pageSize + 2 := by
  have haligned := data.aligned
  unfold Location.Holds
  simp only [queSize_eq, pageSize_eq] at *
  constructor
  · rintro ⟨j, hj, hframe⟩
    omega
  · rintro ⟨hlow, hhigh⟩
    exact ⟨(frame.toNat - data.phys.toNat / 4096) * 4096, by omega, by omega⟩

theorem size_toNat (vma : Vma model) :
    (vma.vmEnd - vma.vmStart).toNat = vma.vmEnd.toNat - vma.vmStart.toNat := by
  have hlt := vma.nonempty
  exact BitVec.toNat_sub_of_le (BitVec.le_def.mpr hlt.le)

/-- The frame behind the page number `i` of the area, modulo the width of a frame number. -/
theorem frame_toNat (data : Location model) (vma : Vma model) (i : Nat) :
    (vma.vmPgoff + (data.phys >>> pageShift) + BitVec.ofNat model.bits i).toNat =
      (vma.vmPgoff.toNat + data.phys.toNat / pageSize + i) % 2 ^ model.bits := by
  simp only [BitVec.toNat_add, BitVec.toNat_ofNat, BitVec.toNat_ushiftRight,
    Nat.shiftRight_eq_div_pow, Nat.add_mod_mod, Nat.mod_add_mod]
  rfl

theorem frames_held_iff (data : Location model) (vma : Vma model) :
    (∀ i < vma.pages,
      data.Holds (vma.vmPgoff + (data.phys >>> pageShift) + BitVec.ofNat model.bits i)) ↔
      vma.vmPgoff.toNat + vma.pages ≤ 3 := by
  have hpgoff := vma.vmPgoff.isLt
  have hend := vma.vmEnd.isLt
  have hlt := vma.nonempty
  have hstart := vma.startAligned
  have halign := vma.endAligned
  have hfits := data.fits
  have hpages : vma.pages = (vma.vmEnd.toNat - vma.vmStart.toNat) / pageSize := rfl
  simp only [holds_iff, frame_toNat]
  simp only [queSize_eq, pageSize_eq] at *
  constructor
  · intro hheld
    have hfirst := hheld 0 (by omega)
    have hlast := hheld (vma.pages - 1) (by omega)
    cases model <;> simp only [DataModel.bits] at * <;> omega
  · intro hshort i hi
    cases model <;> simp only [DataModel.bits] at * <;> omega

/-- The mapped pages stay inside the array exactly when the requested ones do. -/
theorem mymmap_confined_iff (kernel : Kernel model) (data : Location model) (vma : Vma model)
    (table : PageTable model) (hret : (mymmap kernel data vma table).1 = 0) :
    Confined data vma (mymmap kernel data vma table).2 ↔
      vma.vmPgoff.toNat + vma.pages ≤ 3 := by
  have hzero : (kernel.remapPfnRange vma.vmStart (vma.vmPgoff + (data.phys >>> pageShift))
      (vma.vmEnd - vma.vmStart) vma.vmPageProt table).1 = 0 := by
    by_contra hne
    simp only [mymmap, if_pos hne, enomem] at hret
    contradiction
  have hmaps := kernel.maps _ _ _ _ _ hzero
  have hpages : (vma.vmEnd - vma.vmStart).toNat / pageSize = vma.pages := by
    rw [size_toNat]
    rfl
  have hstart := vma.startAligned
  have hend := vma.endAligned
  have hlt := vma.nonempty
  rw [hpages] at hmaps
  rw [← frames_held_iff data]
  simp only [mymmap, hzero, ne_eq, not_true_eq_false, if_false, Confined]
  constructor
  · intro hconfined i hi
    refine hconfined _ (Nat.le_add_right _ i) ?_ _ (hmaps i hi)
    unfold Vma.pages at hi
    simp only [pageSize_eq] at *
    omega
  · intro hheld page hlow hhigh frame hframe
    obtain ⟨i, rfl⟩ := Nat.exists_eq_add_of_le hlow
    have hi : i < vma.pages := by
      unfold Vma.pages
      simp only [pageSize_eq] at *
      omega
    rw [hmaps i hi, Option.some.injEq] at hframe
    exact hframe ▸ hheld i hi

/-! ## A kernel that maps what it is asked for -/

def mappingKernel : Kernel model where
  remapPfnRange addr pfn size _ table :=
    (0, fun page =>
      if addr.toNat / pageSize ≤ page ∧ page < addr.toNat / pageSize + size.toNat / pageSize then
        some (pfn + BitVec.ofNat model.bits (page - addr.toNat / pageSize))
      else table page)
  maps addr pfn size prot table _ i hi := by
    simp only
    rw [if_pos ⟨by omega, by omega⟩, Nat.add_sub_cancel_left]
  keeps addr pfn size prot table page hpage := by
    simp only
    rw [if_neg (by omega)]

/-- The array at the physical address 0x40000000. -/
def sdram : Location .ilp32 where
  phys := 0x40000000
  aligned := by decide
  fits := by decide

def onePage : Vma .ilp32 where
  vmStart := 0x10000000
  vmEnd := 0x10001000
  vmPgoff := 0
  vmPageProt := 0
  nonempty := by decide
  startAligned := by decide
  endAligned := by decide

def fourPages : Vma .ilp32 where
  vmStart := 0x10000000
  vmEnd := 0x10004000
  vmPgoff := 0
  vmPageProt := 0
  nonempty := by decide
  startAligned := by decide
  endAligned := by decide

theorem one_page_confined :
    Confined sdram onePage (mymmap mappingKernel sdram onePage fun _ => none).2 :=
  (mymmap_confined_iff mappingKernel sdram onePage (fun _ => none) rfl).mpr (by decide)

/-- The fourth page lies behind the array. -/
theorem four_pages_not_confined :
    (mymmap mappingKernel sdram fourPages fun _ => none).1 = 0 ∧
    (mymmap mappingKernel sdram fourPages fun _ => none).2 0x10003 = some 0x40003 ∧
    ¬ Confined sdram fourPages (mymmap mappingKernel sdram fourPages fun _ => none).2 := by
  have hmapped : (mymmap mappingKernel sdram fourPages fun _ => none).2 0x10003 =
      some 0x40003 := by
    decide
  refine ⟨rfl, hmapped, fun hconfined => ?_⟩
  have hholds := hconfined 0x10003 (by decide) (by decide) _ hmapped
  rw [holds_iff] at hholds
  revert hholds
  decide

end FarsightDriver.Fifo
