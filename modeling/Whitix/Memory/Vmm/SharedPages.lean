import Whitix.Memory.Vmm.CheckArea
import Whitix.Support.Run
import Mathlib.Data.List.Nodup

/-!
# Shared pages of a file

A fault in a read-only area is served by `VmHandleNoPage` from the pages on the list
`sharedList` of the node.  A page that is not on the list is mapped, added to the list
under a lock, and read in after that.

A fault is one step until it has to wait for the disk or for the lock of a page, and
the rest of it is another step, so that faults of other threads come in between.  The
node belongs to a file, so its `fileOps` has no `mMap` function.
-/

namespace Whitix.Vmm

open Support Function List
open Mmap

variable {β : Type*} [Zero β]

/-! ## The code -/

/-- `struct VMMapPage`; a page is named by its frame. -/
structure VMMapPage where
  offset : ℕ
  page : ℕ
  locked : Bool
deriving DecidableEq, Repr

/-- The file of the node and the areas of the processes that map it.  A file has no block
where it has a hole. -/
structure SharedFile (β : Type*) where
  blockSize : ℕ
  blockMap : ℤ → Option ℕ
  data : ℕ → ℕ → β
  area : ℕ → ℕ → VMArea

/-- How the calls for a block of a page end: both do their work, `blockMap` returns an
error in place of the block, or `BlockRead` fails. -/
inductive BlockCalls
  | done
  | mapFails
  | readFails
deriving DecidableEq, Repr

/-- A fault that is not finished. -/
structure Access where
  process : ℕ
  address : ℕ
  page : ℕ
deriving DecidableEq, Repr

structure PageState (β : Type*) where
  sharedList : List VMMapPage
  contents : ℕ → ℕ → β
  pageTable : ℕ → ℕ → Option ℕ
  /-- The frames from this one on have not been allocated. -/
  nextPage : ℕ
  reading : List Access
  waiting : List Access
  /-- The process, address and result of the fault that the last step finished. -/
  returned : Option (ℕ × ℕ × ℤ)

def SharedFile.offset (v : SharedFile β) (process address : ℕ) : ℕ :=
  dword (dwordSub address (v.area process address).start + (v.area process address).offset)

variable (v : SharedFile β) (s : PageState β)

/-- Block `i` of a page gets the bytes of a buffer. -/
def copyBlock (bytes : ℕ → β) (i : ℕ) (page : ℕ → β) : ℕ → β :=
  fun j =>
    if i * v.blockSize ≤ j ∧ j < i * v.blockSize + v.blockSize then bytes (j - i * v.blockSize)
    else page j

/-- The loop of `FileGenericReadPage` over the blocks from `i` on.  It takes every negative
result of `blockMap` for a hole. -/
def readBlocks (v : SharedFile β) (offset : ℤ) (calls : ℕ → BlockCalls) :
    ℕ → ℕ → (ℕ → β) → (ℕ → β) × ℤ
  | 0, _, page => (page, 0)
  | count + 1, i, page =>
    let res := if calls i = .mapFails then none else v.blockMap (offset.tdiv v.blockSize + i)
    match res with
    | none => readBlocks v offset calls count (i + 1) (copyBlock v (fun _ => 0) i page)
    | some block =>
      if calls i = .readFails then (page, - EIO)
      else readBlocks v offset calls count (i + 1) (copyBlock v (v.data block) i page)

/-- `FileGenericReadPage`, whose parameter `offset` is an `int`. -/
def fileGenericReadPage (offset : ℕ) (calls : ℕ → BlockCalls) (page : ℕ → β) : (ℕ → β) × ℤ :=
  readBlocks v (int32 offset) calls (4096 / v.blockSize) 0 page

/-- `VmLookupPage` up to the wait for the page. -/
def vmLookupPage (refs : ℕ) (sharedList : List VMMapPage) (offset : ℕ) : Option VMMapPage :=
  if refs = 1 then none
  else sharedList.find? fun curr => curr.offset = offset

def PageState.mapPage (process address page : ℕ) : PageState β :=
  { s with
    pageTable := update s.pageTable process (update (s.pageTable process) address (some page)) }

def PageState.return (process address : ℕ) (ret : ℤ) : PageState β :=
  { s with returned := some (process, address, ret) }

/-- The part of `VmHandleNoPage` for a page that is not on the list, up to the read.
`created` says whether `VmCreateMappedPage` succeeds. -/
def addSharedPage (process address offset : ℕ) (created : Bool) : PageState β :=
  let newPage := s.nextPage
  let s := { s.mapPage process address newPage with nextPage := newPage + 1 }
  if ¬ created then s.return process address (-EFAULT)
  else
    { s with
      sharedList := ⟨offset, newPage, true⟩ :: s.sharedList
      reading := ⟨process, address, newPage⟩ :: s.reading
      returned := none }

/-- `VmHandleNoPage` in a read-only area, up to the first wait.  `allocated` says
whether `PageAlloc` succeeds. -/
def vmHandleNoPage (process address refs : ℕ) (allocated created : Bool) : PageState β :=
  match vmLookupPage refs s.sharedList (v.offset process address) with
  | none =>
    if ¬ allocated then s.return process address (-ENOMEM)
    else addSharedPage s process address (v.offset process address) created
  | some mappedPage =>
    if mappedPage.locked then
      { s with
        waiting := ⟨process, address, mappedPage.page⟩ :: s.waiting
        returned := none }
    else (s.mapPage process address mappedPage.page).return process address 0

def vmUnlockPage (sharedList : List VMMapPage) (page : ℕ) : List VMMapPage :=
  sharedList.map fun curr =>
    if curr.page = page then { curr with locked := false } else curr

/-- The rest of `VmHandleNoPage` from the read on. -/
def finishRead (access : Access) (calls : ℕ → BlockCalls) : PageState β :=
  let read := fileGenericReadPage v (v.offset access.process access.address) calls
    (s.contents access.page)
  { s with
    contents := update s.contents access.page read.1
    sharedList := vmUnlockPage s.sharedList access.page
    reading := s.reading.erase access
    returned := some (access.process, access.address, read.2) }

/-- The rest of `VmHandleNoPage` after the wait for a page. -/
def finishWait (access : Access) : PageState β :=
  { (s.mapPage access.process access.address access.page).return
      access.process access.address 0 with
    waiting := s.waiting.erase access }

inductive FaultOp
  | fault (process address refs : ℕ) (allocated created : Bool)
  | read (access : Access) (calls : ℕ → BlockCalls)
  | wake (access : Access)

/-- One step of a thread.  A page of a process that is present does not fault, and a
thread waits as long as its page is locked. -/
def faultStep : FaultOp → Option (PageState β)
  | .fault process address refs allocated created =>
    if s.pageTable process address = none then
      some (vmHandleNoPage v s process address refs allocated created)
    else none
  | .read access calls =>
    if access ∈ s.reading then some (finishRead v s access calls) else none
  | .wake access =>
    if access ∈ s.waiting ∧
        ∀ curr ∈ s.sharedList, curr.page = access.page → curr.locked = false then
      some (finishWait s access)
    else none

def PageState.empty (contents : ℕ → ℕ → β) (nextPage : ℕ) : PageState β where
  sharedList := []
  contents := contents
  pageTable := fun _ _ => none
  nextPage := nextPage
  reading := []
  waiting := []
  returned := none

/-! ## Reading a page -/

/-- The byte at a position of the file, zero in a hole. -/
def SharedFile.file (position : ℤ) : β :=
  match v.blockMap (position / v.blockSize) with
  | none => 0
  | some block => v.data block (position % v.blockSize).toNat

def SharedFile.HasData (page : ℕ → β) (offset : ℕ) : Prop :=
  ∀ j < 4096, page j = v.file (offset + j)

/-- `FileGenericReadPage` reads whole blocks only, and takes the offset as an `int`. -/
def SharedFile.Readable (offset : ℕ) : Prop :=
  v.blockSize ∣ 4096 ∧ v.blockSize ∣ offset ∧ offset < 2147483648
  deriving Decidable

variable {calls : ℕ → BlockCalls} {offset refs page process address : ℕ} {curr : VMMapPage}
  {access : Access}

variable {v : SharedFile β} (s : PageState β)

/-- What the loop copies for a block are the bytes of the file there. -/
theorem file_of_block {i j : ℕ} (hdvd : v.blockSize ∣ offset) (hlow : i * v.blockSize ≤ j)
    (hhigh : j < i * v.blockSize + v.blockSize) :
    v.file (offset + j) = match v.blockMap ((offset : ℤ).tdiv v.blockSize + i) with
      | none => 0
      | some block => v.data block (j - i * v.blockSize) := by
  obtain ⟨q, rfl⟩ := hdvd
  obtain ⟨r, rfl⟩ := Nat.exists_eq_add_of_le hlow
  have hpos : 0 < v.blockSize := by omega
  have hsplit : v.blockSize * q + (i * v.blockSize + r) = v.blockSize * (q + i) + r := by ring
  have hquotient : (v.blockSize * q + (i * v.blockSize + r)) / v.blockSize = q + i := by
    rw [hsplit, Nat.mul_add_div hpos, Nat.div_eq_of_lt (by omega), Nat.add_zero]
  have hrest : (v.blockSize * q + (i * v.blockSize + r)) % v.blockSize = r := by
    rw [hsplit, Nat.mul_add_mod, Nat.mod_eq_of_lt (by omega)]
  have htdiv : ((v.blockSize * q : ℕ) : ℤ).tdiv v.blockSize + i = ((q + i : ℕ) : ℤ) := by
    rw [Int.natCast_mul, Int.mul_tdiv_cancel_left _ (by omega), Int.natCast_add]
  unfold SharedFile.file
  rw [htdiv, ← Int.natCast_add, ← Int.natCast_div, ← Int.natCast_emod, hquotient, hrest,
    Int.toNat_natCast, Nat.add_sub_cancel_left]

theorem readBlocks_result (hdvd : v.blockSize ∣ offset) (count i : ℕ) (page : ℕ → β)
    (hok : ∀ k, i ≤ k → k < i + count → calls k = .done)
    (hpage : ∀ j < i * v.blockSize, page j = v.file (offset + j)) :
    (readBlocks v offset calls count i page).2 = 0 ∧ ∀ j < (i + count) * v.blockSize,
      (readBlocks v offset calls count i page).1 j = v.file (offset + j) := by
  induction count generalizing i page with
  | zero => exact ⟨rfl, hpage⟩
  | succ count ih =>
    have hi : calls i = .done := hok i le_rfl (by omega)
    -- Whatever the block is, its copy extends the part of the page that has been read.
    have hnext : ∀ bytes : ℕ → β, (∀ j, i * v.blockSize ≤ j → j < i * v.blockSize + v.blockSize →
        bytes (j - i * v.blockSize) = v.file (offset + j)) →
        ∀ j < (i + 1) * v.blockSize, copyBlock v bytes i page j = v.file (offset + j) := by
      intro bytes hbytes j hj
      rw [Nat.succ_mul] at hj
      unfold copyBlock
      split
      · next hin => exact hbytes j hin.1 hin.2
      · exact hpage j (by omega)
    rw [show i + (count + 1) = i + 1 + count by omega, readBlocks, hi]
    cases hmap : v.blockMap ((offset : ℤ).tdiv v.blockSize + i) with
    | none =>
      refine ih (i + 1) _ (fun k hk hlt => hok k (by omega) (by omega)) (hnext _ ?_)
      intro j hlow hhigh
      rw [file_of_block hdvd hlow hhigh, hmap]
    | some block =>
      refine ih (i + 1) _ (fun k hk hlt => hok k (by omega) (by omega)) (hnext _ ?_)
      intro j hlow hhigh
      rw [file_of_block hdvd hlow hhigh, hmap]

theorem fileGenericReadPage_hasData (page : ℕ → β)
    (hread : v.Readable offset) (hok : ∀ i < 4096 / v.blockSize, calls i = .done) :
    (fileGenericReadPage v offset calls page).2 = 0 ∧
      v.HasData (fileGenericReadPage v offset calls page).1 offset := by
  obtain ⟨hpage, hdvd, hlt⟩ := hread
  have hint : int32 offset = offset := by
    unfold int32
    rw [Int.bmod_eq_of_le] <;> omega
  have hresult := readBlocks_result hdvd (4096 / v.blockSize) 0 page
    (fun k _ hk => hok k (by omega)) (by simp)
  rw [zero_add, Nat.div_mul_cancel hpage] at hresult
  unfold fileGenericReadPage SharedFile.HasData
  rw [hint]
  exact hresult

/-! ## The list of shared pages -/

variable {sharedList : List VMMapPage} (v)

theorem vmLookupPage_eq_some (h : vmLookupPage refs sharedList offset = some curr) :
    curr ∈ sharedList ∧ curr.offset = offset := by
  unfold vmLookupPage at h
  split at h
  · cases h
  · exact ⟨mem_of_find?_eq_some h, by simpa using find?_some h⟩

theorem vmLookupPage_eq_none (hrefs : refs = 1 → ∀ curr ∈ sharedList, curr.offset ≠ offset)
    (h : vmLookupPage refs sharedList offset = none) :
    ∀ curr ∈ sharedList, curr.offset ≠ offset := by
  unfold vmLookupPage at h
  split at h
  · next hone => exact hrefs hone
  · simpa using h

theorem map_vmUnlockPage (f : VMMapPage → ℕ)
    (hf : ∀ curr, f { curr with locked := false } = f curr) (page : ℕ) :
    (vmUnlockPage sharedList page).map f = sharedList.map f := by
  unfold vmUnlockPage
  rw [map_map]
  refine map_congr_left fun curr _ => ?_
  rw [comp_apply]
  split
  · exact hf curr
  · rfl

theorem exists_of_mem_vmUnlockPage (h : curr ∈ vmUnlockPage sharedList page) :
    ∃ old ∈ sharedList, old.page = curr.page ∧ old.offset = curr.offset ∧
      (curr.page ≠ page → old = curr) := by
  obtain ⟨old, hold, rfl⟩ := mem_map.mp h
  by_cases hpage : old.page = page
  · rw [if_pos hpage]
    exact ⟨old, hold, rfl, rfl, fun hne => absurd hpage hne⟩
  · rw [if_neg hpage]
    exact ⟨old, hold, rfl, rfl, fun _ => rfl⟩

/-! ## The invariant -/

/-- A frame is listed under the offset of an address. -/
def PageState.Lists (process address page : ℕ) : Prop :=
  ∃ curr ∈ s.sharedList, curr.page = page ∧ curr.offset = v.offset process address

structure PageInv : Prop where
  allocated : ∀ curr ∈ s.sharedList, curr.page < s.nextPage
  pages : (s.sharedList.map VMMapPage.page).Nodup
  offsets : (s.sharedList.map VMMapPage.offset).Nodup
  readable : ∀ curr ∈ s.sharedList, v.Readable curr.offset
  filled : ∀ curr ∈ s.sharedList, curr.locked = false → v.HasData (s.contents curr.page) curr.offset
  mapped : ∀ process address page, s.pageTable process address = some page →
    s.Lists v process address page
  reading : ∀ access ∈ s.reading,
    ⟨v.offset access.process access.address, access.page, true⟩ ∈ s.sharedList ∧
      s.pageTable access.process access.address = some access.page
  readingPages : (s.reading.map Access.page).Nodup
  waiting : ∀ access ∈ s.waiting, s.Lists v access.process access.address access.page

/-- What the faults and the list promise between two steps. -/
structure Serves : Prop where
  filled : ∀ curr ∈ s.sharedList, curr.locked = false → v.HasData (s.contents curr.page) curr.offset
  offsets : (s.sharedList.map VMMapPage.offset).Nodup
  mapped : ∀ process address, s.returned = some (process, address, 0) →
    ∃ page, s.pageTable process address = some page ∧
      v.HasData (s.contents page) (v.offset process address)
  undone : ∀ process address ret, s.returned = some (process, address, ret) →
    ret ≠ 0 → (∀ curr ∈ s.sharedList, curr.offset ≠ v.offset process address) ∧
      s.pageTable process address = none

/-- The steps after which nothing wrong is left behind: the offset can be read, the
memory for an entry of the list is there once the page is, a node with one reference has
no entry for the offset yet, and for no block of the page `blockMap` or `BlockRead`
fails. -/
def ServedStep : FaultOp → Prop
  | .fault process address refs allocated created =>
    v.Readable (v.offset process address) ∧ (allocated = true → created = true) ∧
      (refs = 1 → ∀ curr ∈ s.sharedList, curr.offset ≠ v.offset process address)
  | .read _ calls => ∀ i < 4096 / v.blockSize, calls i = .done
  | .wake _ => True

instance :
    ∀ op, Decidable (ServedStep v s op)
  | .fault _ _ _ _ _ => inferInstanceAs (Decidable (_ ∧ _ ∧ _))
  | .read _ _ => inferInstanceAs (Decidable (∀ i < _, _))
  | .wake _ => isTrue trivial

variable {v}

omit [Zero β] in
theorem pageTable_mapPage (process address page p a : ℕ) :
    (s.mapPage process address page).pageTable p a =
      if p = process ∧ a = address then some page else s.pageTable p a := by
  simp only [PageState.mapPage, update_apply]
  split_ifs <;> simp_all

variable {s}

theorem lists_finishRead (access : Access) (calls : ℕ → BlockCalls)
    (h : s.Lists v process address page) :
    (finishRead v s access calls).Lists v process address page := by
  obtain ⟨curr, hcurr, hpage, hoffset⟩ := h
  refine ⟨_, mem_map_of_mem hcurr, ?_, ?_⟩
  · split <;> exact hpage
  · split <;> exact hoffset

section

variable (h : PageInv v s)
include h

theorem PageInv.lists_unique {page₁ page₂ : ℕ}
    (h₁ : s.Lists v process address page₁) (h₂ : s.Lists v process address page₂) :
    page₁ = page₂ := by
  obtain ⟨curr₁, hmem₁, rfl, hoffset₁⟩ := h₁
  obtain ⟨curr₂, hmem₂, rfl, hoffset₂⟩ := h₂
  rw [inj_on_of_nodup_map h.offsets hmem₁ hmem₂ (hoffset₁.trans hoffset₂.symm)]

theorem PageInv.lists_reading (hmem : access ∈ s.reading) :
    s.Lists v access.process access.address access.page :=
  ⟨_, (h.reading access hmem).1, rfl, rfl⟩

theorem PageInv.mapPage (hlists : s.Lists v process address page) :
    PageInv v (s.mapPage process address page) := by
  refine { h with mapped := ?_, reading := ?_ }
  · intro p a page' hpage
    rw [pageTable_mapPage] at hpage
    split at hpage
    · next heq =>
      obtain ⟨rfl, rfl⟩ := heq
      exact Option.some.inj hpage ▸ hlists
    · exact h.mapped p a page' hpage
  · intro access hmem
    refine ⟨(h.reading access hmem).1, ?_⟩
    rw [pageTable_mapPage]
    split
    · next heq =>
      obtain ⟨rfl, rfl⟩ := heq
      rw [h.lists_unique hlists (h.lists_reading hmem)]
    · exact (h.reading access hmem).2

theorem PageInv.addSharedPage (hread : v.Readable (v.offset process address))
    (hnew : ∀ curr ∈ s.sharedList, curr.offset ≠ v.offset process address)
    (hfree : s.pageTable process address = none) :
    PageInv v (addSharedPage s process address (v.offset process address) true) := by
  have hfresh : ∀ curr ∈ s.sharedList, curr.page ≠ s.nextPage :=
    fun curr hcurr => (h.allocated curr hcurr).ne
  constructor
  case allocated =>
    intro curr hcurr
    obtain rfl | hcurr := mem_cons.mp hcurr
    · exact Nat.lt_succ_self _
    · exact Nat.lt_succ_of_lt (h.allocated curr hcurr)
  case pages =>
    refine nodup_cons.mpr ⟨?_, h.pages⟩
    rintro hmem
    obtain ⟨curr, hcurr, heq⟩ := mem_map.mp hmem
    exact hfresh curr hcurr heq
  case offsets =>
    refine nodup_cons.mpr ⟨?_, h.offsets⟩
    rintro hmem
    obtain ⟨curr, hcurr, heq⟩ := mem_map.mp hmem
    exact hnew curr hcurr heq
  case readable =>
    exact forall_mem_cons.mpr ⟨hread, h.readable⟩
  case filled =>
    intro curr hcurr hlocked
    obtain rfl | hcurr := mem_cons.mp hcurr
    · cases hlocked
    · exact h.filled curr hcurr hlocked
  case mapped =>
    intro p a page hpage
    change (s.mapPage process address s.nextPage).pageTable p a = some page at hpage
    rw [pageTable_mapPage] at hpage
    split at hpage
    · next heq =>
      obtain ⟨rfl, rfl⟩ := heq
      exact ⟨_, mem_cons_self, Option.some.inj hpage, rfl⟩
    · obtain ⟨curr, hcurr, hlists⟩ := h.mapped p a page hpage
      exact ⟨curr, mem_cons_of_mem _ hcurr, hlists⟩
  case reading =>
    intro access hmem
    change _ ∧ (s.mapPage process address s.nextPage).pageTable _ _ = _
    rw [pageTable_mapPage]
    obtain rfl | hmem := mem_cons.mp hmem
    · exact ⟨mem_cons_self, if_pos ⟨rfl, rfl⟩⟩
    · obtain ⟨hlisted, hpage⟩ := h.reading access hmem
      refine ⟨mem_cons_of_mem _ hlisted, ?_⟩
      -- an address that is being read is present and does not fault
      rw [if_neg, hpage]
      rintro ⟨hp, ha⟩
      rw [hp, ha, hfree] at hpage
      cases hpage
  case readingPages =>
    refine nodup_cons.mpr ⟨?_, h.readingPages⟩
    rintro hmem
    obtain ⟨access, haccess, heq⟩ := mem_map.mp hmem
    exact hfresh _ (h.reading access haccess).1 heq
  case waiting =>
    intro access hmem
    obtain ⟨curr, hcurr, hlists⟩ := h.waiting access hmem
    exact ⟨curr, mem_cons_of_mem _ hcurr, hlists⟩

theorem PageInv.finishRead (hmem : access ∈ s.reading)
    (hok : ∀ i < 4096 / v.blockSize, calls i = .done) :
    PageInv v (finishRead v s access calls) := by
  have hentry := (h.reading access hmem).1
  constructor
  case allocated =>
    intro curr hcurr
    obtain ⟨old, hold, hpage, -⟩ := exists_of_mem_vmUnlockPage hcurr
    exact hpage ▸ h.allocated old hold
  case pages => exact (map_vmUnlockPage VMMapPage.page (fun _ => rfl) _).symm ▸ h.pages
  case offsets => exact (map_vmUnlockPage VMMapPage.offset (fun _ => rfl) _).symm ▸ h.offsets
  case readable =>
    intro curr hcurr
    obtain ⟨old, hold, -, hoffset, -⟩ := exists_of_mem_vmUnlockPage hcurr
    exact hoffset ▸ h.readable old hold
  case filled =>
    intro curr hcurr hlocked
    obtain ⟨old, hold, hpage, hoffset, hother⟩ := exists_of_mem_vmUnlockPage hcurr
    change v.HasData (update s.contents access.page _ curr.page) curr.offset
    by_cases heq : curr.page = access.page
    · -- the page that has just been read
      have hsame : old = ⟨v.offset access.process access.address, access.page, true⟩ :=
        inj_on_of_nodup_map h.pages hold hentry (hpage.trans heq)
      rw [heq, update_self, ← hoffset, hsame]
      exact (fileGenericReadPage_hasData _ (h.readable _ hentry) hok).2
    · rw [update_of_ne heq]
      obtain rfl := hother heq
      exact h.filled old hold hlocked
  case mapped =>
    intro process address page hpage
    exact lists_finishRead access calls (h.mapped process address page hpage)
  case reading =>
    intro other hother
    have hin := mem_of_mem_erase hother
    obtain ⟨hlisted, hpage⟩ := h.reading other hin
    refine ⟨?_, hpage⟩
    have hne : other.page ≠ access.page := by
      intro heq
      have hsame := inj_on_of_nodup_map h.readingPages hin hmem heq
      exact (h.readingPages.of_map _).not_mem_erase (hsame ▸ hother)
    exact mem_map.mpr ⟨_, hlisted, if_neg hne⟩
  case readingPages =>
    exact h.readingPages.sublist (List.Sublist.map _ erase_sublist)
  case waiting =>
    intro other hother
    exact lists_finishRead access calls (h.waiting other hother)

theorem PageInv.finishWait (hmem : access ∈ s.waiting) : PageInv v (finishWait s access) := by
  refine { h.mapPage (h.waiting access hmem) with waiting := ?_ }
  intro other hother
  exact h.waiting other (mem_of_mem_erase hother)

theorem PageInv.vmHandleNoPage {allocated created : Bool}
    (hserved : ServedStep v s (.fault process address refs allocated created))
    (hfree : s.pageTable process address = none) :
    PageInv v (vmHandleNoPage v s process address refs allocated created) ∧
      Serves v (vmHandleNoPage v s process address refs allocated created) := by
  obtain ⟨hread, hcreated, hrefs⟩ := hserved
  unfold Vmm.vmHandleNoPage
  split
  · next hlookup =>
    have hnew := vmLookupPage_eq_none hrefs hlookup
    cases allocated with
    | false =>
      rw [if_pos Bool.false_ne_true]
      refine ⟨{ h with }, ⟨h.filled, h.offsets, ?_, ?_⟩⟩
      · exact nofun
      · intro p a ret hret _
        cases hret
        exact ⟨hnew, hfree⟩
    | true =>
      rw [if_neg (not_not_intro rfl), hcreated rfl]
      have hinv := h.addSharedPage hread hnew hfree
      refine ⟨hinv, ⟨hinv.filled, hinv.offsets, ?_, ?_⟩⟩
      · exact nofun
      · exact nofun
  · next mappedPage hlookup =>
    obtain ⟨hcurr, hoffset⟩ := vmLookupPage_eq_some hlookup
    have hlists : s.Lists v process address mappedPage.page :=
      ⟨mappedPage, hcurr, rfl, hoffset⟩
    split
    · refine ⟨{ h with waiting := ?_ }, ⟨h.filled, h.offsets, ?_, ?_⟩⟩
      · exact forall_mem_cons.mpr ⟨hlists, h.waiting⟩
      · exact nofun
      · exact nofun
    · next hlocked =>
      refine ⟨{ h.mapPage hlists with }, ⟨h.filled, h.offsets, ?_, ?_⟩⟩
      · intro p a hret
        cases hret
        refine ⟨mappedPage.page, ?_, ?_⟩
        · exact (pageTable_mapPage _ _ _ _ _ _).trans (if_pos ⟨rfl, rfl⟩)
        · exact hoffset ▸ h.filled _ hcurr (Bool.eq_false_iff.mpr hlocked)
      · intro p a ret hret hne
        cases hret
        exact absurd rfl hne

/-! ## Runs -/

theorem faultStep_serves {s' : PageState β} {op : FaultOp} (hserved : ServedStep v s op)
    (hstep : faultStep v s op = some s') :
    PageInv v s' ∧ Serves v s' := by
  cases op with
  | fault process address refs allocated created =>
    rw [faultStep] at hstep
    split at hstep
    · next hfree =>
      cases hstep
      exact h.vmHandleNoPage hserved hfree
    · cases hstep
  | read access calls =>
    obtain ⟨hmem, hstep⟩ := Option.ite_none_right_eq_some.mp hstep
    cases hstep
    have hinv := h.finishRead hmem hserved
    obtain ⟨hentry, hpage⟩ := h.reading access hmem
    have hread := fileGenericReadPage_hasData (s.contents access.page) (h.readable _ hentry) hserved
    refine ⟨hinv, ⟨hinv.filled, hinv.offsets, ?_, ?_⟩⟩
    · intro p a hret
      simp only [finishRead, Option.some.injEq, Prod.mk.injEq] at hret
      obtain ⟨rfl, rfl, -⟩ := hret
      refine ⟨access.page, hpage, ?_⟩
      change v.HasData (update s.contents access.page _ access.page) _
      rw [update_self]
      exact hread.2
    · intro p a ret hret hne
      simp only [finishRead, Option.some.injEq, Prod.mk.injEq] at hret
      exact absurd (hret.2.2.symm.trans hread.1) hne
  | wake access =>
    obtain ⟨hwake, hstep⟩ := Option.ite_none_right_eq_some.mp hstep
    cases hstep
    obtain ⟨hmem, hunlocked⟩ := hwake
    have hinv := h.finishWait hmem
    obtain ⟨curr, hcurr, hpage, hoffset⟩ := h.waiting access hmem
    refine ⟨hinv, ⟨hinv.filled, hinv.offsets, ?_, ?_⟩⟩
    · intro p a hret
      cases hret
      refine ⟨access.page, ?_, ?_⟩
      · exact (pageTable_mapPage _ _ _ _ _ _).trans (if_pos ⟨rfl, rfl⟩)
      · exact hoffset ▸ hpage ▸ h.filled curr hcurr (hunlocked curr hcurr hpage)
    · intro p a ret hret hne
      cases hret
      exact absurd rfl hne

end

variable (v)

theorem pageInv_empty (contents : ℕ → ℕ → β) (nextPage : ℕ) :
    PageInv v (PageState.empty contents nextPage) := by
  constructor <;> simp [PageState.empty]

/-- A file in blocks of half a page, mapped at page 0x800000 by two processes. -/
def exampleFile : SharedFile ℤ where
  blockSize := 2048
  blockMap := fun block => some block.toNat
  data := fun block k => block * 2048 + k
  area := fun _ _ => ⟨0x800000, 8192, 0, 0, 5, 1, 0⟩

end Whitix.Vmm
