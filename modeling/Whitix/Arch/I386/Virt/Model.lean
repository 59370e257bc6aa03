import Whitix.Include.Error
import Whitix.Include.Page
import Whitix.Support.Paging
import Whitix.Support.Word

/-!
# Address spaces of the i386

The functions of `arch/i386/mm/virt.c` that create, switch and destroy address
spaces and map pages into the current one.  They see the page directory and the
page tables of the current address space through the last entry of the
directory, and every other page directory through a temporary mapping.

An address space is identified by the frame of its page directory, which is all
that these functions use of a `MemManager`.  An access to a page that is not
present faults, and the call does not return.
-/

namespace Whitix.Virt

open Support

/-! ## Data -/

/-- The start and the end of the kernel's page tables in a directory, as far as
they are copied to a new one: `0xC0000000 >> 22` and `0xFF000000 >> 22`. -/
def kernelStart : ℕ := 768

def kernelEnd : ℕ := 1020

def pageTablesVa : ℕ := 0xFFC00000

def pageDirVa : ℕ := 0xFFFFF000

/-- The space for temporary mappings, `0xF0080000` to `0xF8000000`. -/
def tempStart : ℕ := 0xF0080000

def tempEnd : ℕ := 0xF8000000

/-- The memory, the page directory in `CR3`, the page directories of
`managerList` and the frames that `PageAlloc` may hand out. -/
structure VirtState where
  mem : Frames
  cr3 : ℕ
  managerList : List ℕ
  pages : List ℕ

namespace VirtState

def load (s : VirtState) (va : ℕ) : Option ℕ :=
  (translate s.mem s.cr3 va).map fun word => s.mem word.1 word.2

def store (s : VirtState) (va x : ℕ) : Option VirtState :=
  (translate s.mem s.cr3 va).map fun word =>
    { s with mem := setWord s.mem word.1 word.2 x }

def zeroMemory (s : VirtState) (va : ℕ) : Option VirtState :=
  (translate s.mem s.cr3 va).map fun word =>
    { s with mem := Function.update s.mem word.1 fun _ => 0 }

end VirtState

def pageDir (i : ℕ) : ℕ := pageDirVa + 4 * i

def pageTable (i : ℕ) : ℕ := pageTablesVa + 4 * i

def pgDirEnt (va : ℕ) : ℕ := va / 4194304

def pgTableEnt (va : ℕ) : ℕ := va / 4096

section

variable (fuel : ℕ) (s : VirtState)

def pageAlloc : Option (ℕ × VirtState) :=
  match s.pages with
  | [] => none
  | page :: pages => some (page, { s with pages })

/-! ## Mapping pages -/

/-- The test for a page that is not used:
`!pageDir[PGDIR_ENT(va)] || !pageTable[PGTABLE_ENT(va)]`. -/
def notUsed (va : ℕ) : Option Bool := do
  let dirEntry ← s.load (pageDir (pgDirEnt va))
  if dirEntry = 0 then some true
  else
    let tableEntry ← s.load (pageTable (pgTableEnt va))
    some (tableEntry = 0)

def virtUnmapPhysPage (virt : ℕ) : Option VirtState := do
  if ← notUsed s virt then some s
  else s.store (pageTable (pgTableEnt virt)) 0

/-- The loop of `VirtAllocateTemp`, over the pages that are left: the first
page that is not used, or zero. -/
def findTemp (s : VirtState) : ℕ → ℕ → Option ℕ
  | 0, _ => some 0
  | n + 1, i => do
      if ← notUsed s i then some i
      else findTemp s n (i + 4096)

def tempPages : ℕ := (tempEnd - tempStart) / 4096

def allocateTempWith (memMapPage : VirtState → ℕ → ℕ → ℕ → Option (ℤ × VirtState))
    (s : VirtState) (phys : ℕ) : Option (ℕ × VirtState) := do
  let i ← findTemp s tempPages tempStart
  if i = 0 then some (0, s)
  else
    let (_, s) ← memMapPage s i phys (pagePresent ||| pageRw)
    some (i, s)

/-- The loop of `VirtMemMapPage` that enters a new kernel page table in all
page directories. -/
def propagate (allocateTemp : VirtState → ℕ → Option (ℕ × VirtState))
    (virtEnt : ℕ) : List ℕ → VirtState → Option VirtState
  | [], s => some s
  | manager :: managers, s => do
      let (virtDir, s) ← allocateTemp s (manager * 4096)
      let dirEntry ← s.load (pageDir virtEnt)
      let s ← s.store (virtDir + 4 * virtEnt) dirEntry
      let s ← virtUnmapPhysPage s virtDir
      propagate allocateTemp virtEnt managers s

def addPageTable (allocateTemp : VirtState → ℕ → Option (ℕ × VirtState))
    (s : VirtState) (virtEnt perms : ℕ) : Option VirtState := do
  let (page, s) ← pageAlloc s
  let s ← s.store (pageDir virtEnt) (page * 4096 ||| perms ||| pageRw)
  let s ← s.zeroMemory (pageTable (virtEnt * 1024))
  if 768 ≤ virtEnt then propagate allocateTemp virtEnt s.managerList s
  else some s

/-- The fuel bounds the depth of the recursion through `VirtAllocateTemp`. -/
def virtMemMapPage : ℕ → VirtState → ℕ → ℕ → ℕ → Option (ℤ × VirtState)
  | 0, _, _, _, _ => none
  | fuel + 1, s, virt, phys, perms =>
    if pageTablesVa ≤ virt then some (-EFAULT, s)
    else do
      let dirEntry ← s.load (pageDir (pgDirEnt virt))
      let s ←
        if dirEntry = 0 then
          addPageTable (allocateTempWith (virtMemMapPage fuel)) s (pgDirEnt virt) perms
        else some s
      let s ← s.store (pageTable (pgTableEnt virt)) (phys ||| perms)
      some (0, s)

def virtAllocateTemp (phys : ℕ) : Option (ℕ × VirtState) :=
  allocateTempWith (virtMemMapPage fuel) s phys

def mapPhysPageLoop (fuel : ℕ) (page endVirt perms : ℕ) : ℕ → VirtState → ℕ → Option (ℕ × VirtState)
  | 0, _, _ => none
  | n + 1, s, i =>
    if i < endVirt then do
      if ← notUsed s i then
        let (_, s) ← virtMemMapPage fuel s i page perms
        some (i, s)
      else mapPhysPageLoop fuel page endVirt perms n s (dword (i + 4096))
    else some (0, s)

def virtMapPhysPage (virt endVirt perms : ℕ) : Option (ℕ × VirtState) := do
  let (page, s) ← pageAlloc s
  mapPhysPageLoop fuel (page * 4096) endVirt perms fuel s virt

/-- The variables of the first loop of `VirtMapPhysRange`. -/
structure RangeScan where
  i : ℕ
  currNum : ℕ
  start : ℕ

/-- The first loop of `VirtMapPhysRange`, which looks for enough pages in a
row. -/
def scanRange (s : VirtState) (endVirt numPages : ℕ) : ℕ → RangeScan → Option RangeScan
  | 0, _ => none
  | n + 1, scan =>
    if scan.i < endVirt then do
      if ← notUsed s scan.i then
        let start := if scan.currNum = numPages then scan.i else scan.start
        let currNum := dwordSub scan.currNum 1
        if currNum = 0 then some ⟨scan.i, currNum, start⟩
        else
          scanRange s endVirt numPages n ⟨dword (scan.i + 4096), currNum, start⟩
      else
        scanRange s endVirt numPages n ⟨dword (scan.i + 4096), numPages, scan.start⟩
    else some scan

def mapRange (fuel : ℕ) (bound perms : ℕ) : ℕ → VirtState → ℕ → Option VirtState
  | 0, _, _ => none
  | n + 1, s, i =>
    if i < bound then do
      let (page, s) ← pageAlloc s
      let (_, s) ← virtMemMapPage fuel s i (page * 4096) perms
      mapRange fuel bound perms n s (dword (i + 4096))
    else some s

def virtMapPhysRange (virt endVirt numPages perms : ℕ) : Option (ℕ × VirtState) := do
  let scan ← scanRange s endVirt numPages fuel ⟨virt, numPages, 0⟩
  if scan.i = endVirt then some (0, s)
  else if scan.currNum ≠ 0 then some (0, s)
  else
    let bound := dword (scan.start + dword (numPages * 4096))
    let s ← mapRange fuel bound perms fuel s scan.start
    some (scan.start, s)

/-! ## Address spaces -/

def copyEntries (vPageDir kPageDir : ℕ) : ℕ → ℕ → VirtState → Option VirtState
  | 0, _, s => some s
  | n + 1, i, s => do
      let entry ← s.load (kPageDir + 4 * i)
      let s ← s.store (vPageDir + 4 * i) entry
      copyEntries vPageDir kPageDir n (i + 1) s

/-- `VirtMemManagerInit` for a process.  The page directory of the kernel is
read at its physical address. -/
def virtMemManagerInit (kernelMem fuel : ℕ) (s : VirtState) : Option (ℤ × VirtState) := do
  let (page, s) ← pageAlloc s
  if page = 0 then some (-ENOMEM, s)
  else
    let (vPageDir, s) ← virtAllocateTemp fuel s (page * 4096)
    if vPageDir = 0 then some (-ENOMEM, s)
    else
      let s ← s.zeroMemory vPageDir
      let s ← copyEntries vPageDir (kernelMem * 4096) (kernelEnd - kernelStart) kernelStart s
      let first ← s.load (vPageDir + 4 * 768)
      let s ← s.store vPageDir first
      let s ← s.store (vPageDir + 4 * 1023) (page * 4096 ||| pagePresent ||| pageRw)
      let s ← virtUnmapPhysPage s vPageDir
      some (0, { s with managerList := s.managerList ++ [page] })

/-- `allocated` tells whether there was memory for the `MemManager`. -/
def virtMemManagerSetup (kernelMem fuel : ℕ) (s : VirtState)
    (allocated : Bool) : Option (ℤ × VirtState) :=
  if allocated then virtMemManagerInit kernelMem fuel s
  else some (-EFAULT, s)

def virtSetCurrent (manager : Option ℕ) : ℤ × VirtState :=
  match manager with
  | none => (-EFAULT, s)
  | some manager => (0, { s with cr3 := manager })

end

def putPageTables (vPageDir : ℕ) : ℕ → ℕ → VirtState → Option VirtState
  | 0, _, s => some s
  | n + 1, i, s => do
      let entry ← s.load (vPageDir + 4 * i)
      putPageTables vPageDir n (i + 1)
        (if entry % 2 = 1 then { s with pages := entry / 4096 :: s.pages }
        else s)

/-- `current` is the manager of the current process. -/
def virtDestroyMemManager (kernelMem fuel : ℕ) (s : VirtState)
    (current : Option ℕ) (manager : ℕ) : Option (ℤ × VirtState) := do
  let s := if some manager = current then (virtSetCurrent s kernelMem).2 else s
  let (vPageDir, s) ← virtAllocateTemp fuel s (manager * 4096)
  let s ← putPageTables vPageDir 766 2 s
  let s ← virtUnmapPhysPage s vPageDir
  some (0, { s with managerList := s.managerList.erase manager })

end Whitix.Virt
