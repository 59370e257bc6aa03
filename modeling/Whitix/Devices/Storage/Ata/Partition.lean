import Whitix.Devices.Storage.Request
import Whitix.Include.Error
import Whitix.Support.PackedTable
import Whitix.Support.Run

/-!
# Partitions of a disk

The master boot record has a table with four entries.  There is a device for
each entry in use, and a request to such a device is sent to the disk with the
start of the partition added to its sector.  The function that does this waits
for the answer of the disk, and meanwhile other requests may be queued.
-/

namespace Whitix.AtaPartitions

open Support Storage List Option Prod

/-! ## The source -/

structure AtaPartition where
  system : UInt8
  startSectorAbs : ℕ
  sectorCount : ℕ
  deriving DecidableEq

structure Partition where
  startSector : ℕ
  secLen : ℕ
  deriving DecidableEq

def partitionTable (data : ℕ → UInt8) (i : ℕ) : AtaPartition where
  system := data (0x1BE + 16 * i + 4)
  startSectorAbs := dwordAt data (0x1BE + 16 * i + 8)
  sectorCount := dwordAt data (0x1BE + 16 * i + 12)

/-- `AtaAddPartition`: the partition of the new device.  The argument is the
table. -/
def ataAddPartition (part : ℕ → AtaPartition) : Partition where
  startSector := (part 0).startSectorAbs
  secLen := (part 0).sectorCount

/-- `AtaPartitionDevice`: the devices that it adds, with the numbers of their
entries. -/
def ataPartitionDevice (data : ℕ → UInt8) : ℤ × List (ℕ × Partition) :=
  if data 510 ≠ 0x55 ∨ data 511 ≠ 0xAA then (- EINVAL, [])
  else
    let used := (range 4).filter fun i => (partitionTable data i).system ≠ 0
    (0, used.map fun i => (i, ataAddPartition (partitionTable data)))

structure Device where
  requestList : List Request
  /-- `AtaPartitionRequest` waits for the disk to end the first request. -/
  waiting : Bool
  /-- The requests so far. -/
  submitted : List Request
  /-- The requests that were sent to the disk. -/
  forwarded : List Request
  /-- The requests that were ended, with their status. -/
  ended : List (Request × ℤ)
  deriving DecidableEq

def Device.init : Device := ⟨[], false, [], [], []⟩

section

variable (part : Partition) (entry : AtaPartition) (dev : Device) (request : Request)

/-- `AtaPartitionRequest` from the test of the current request to the call that
waits for the disk. -/
def ataPartitionRequest : Device :=
  match dev.requestList with
  | [] => { dev with waiting := false }
  | request :: _ =>
    if part.secLen < request.sector then { dev with waiting := false }
    else
      { dev with
        waiting := true
        forwarded := dev.forwarded ++
          [{ request with
            sector := dword (request.sector + part.startSector) }] }

def storageDoRequest : Device :=
  let queued := { dev with
    requestList := dev.requestList ++ [request]
    submitted := dev.submitted ++ [request] }
  if dev.requestList = [] then ataPartitionRequest part queued else queued

def storageEndRequest (status : ℤ) : Device :=
  match dev.requestList with
  | [] => dev
  | request :: rest =>
    { dev with requestList := rest, ended := dev.ended ++ [(request, status)] }

inductive Op
  /-- A request to the device. -/
  | request (request : Request)
  /-- The disk ends the request it was sent, and `BlockSendRequestRaw` returns
  `err`. -/
  | answer (err : ℤ)

def step : Op → Option Device
  | .request request => some (storageDoRequest part dev request)
  | .answer err =>
    if dev.waiting then
      some (ataPartitionRequest part (storageEndRequest dev (-err)))
    else none

/-! ## Isolation -/

def AtaPartition.Covers (sector : ℕ) : Prop :=
  entry.startSectorAbs ≤ sector ∧ sector < entry.startSectorAbs + entry.sectorCount

def Inside : Prop :=
  request.sector + request.numSectors ≤ entry.sectorCount

instance (entry : AtaPartition) : DecidablePred (Inside entry) :=
  fun _ => inferInstanceAs (Decidable (_ ≤ _))

def onDisk : Request :=
  { request with sector := entry.startSectorAbs + request.sector }

def Device.served : List Request :=
  dev.ended.map fst ++ if dev.waiting then dev.requestList.take 1 else []

/-- What is sent to the disk is inside the partition, and nothing that is inside
is left out. -/
structure Isolated (entry : AtaPartition) (dev : Device) : Prop where
  submitted : dev.ended.map fst ++ dev.requestList = dev.submitted
  forwarded : dev.forwarded = (dev.served.filter fun r => Inside entry r).map (onDisk entry)
  /-- A request outside is ended with an error. -/
  refused : ∀ ending ∈ dev.ended, ¬ Inside entry ending.1 → ending.2 ≠ 0
  /-- No request is left while the disk has nothing to do. -/
  completed : dev.waiting = false → dev.requestList = []
  /-- No sector of another partition is read or written. -/
  others : ∀ other : AtaPartition, (∀ sector, entry.Covers sector → ¬ other.Covers sector) →
      ∀ request ∈ dev.forwarded, ∀ sector, request.Covers sector → ¬ other.Covers sector

/-- A request is inside the partition, and its first sector on the disk has a
number. -/
def Fits : Op → Prop
  | .request request => Inside entry request ∧
      entry.startSectorAbs + request.sector < 2 ^ 32
  | .answer _ => True

end

instance (entry : AtaPartition) : DecidablePred (Fits entry)
  | .request _ => inferInstanceAs (Decidable (_ ∧ _))
  | .answer _ => isTrue trivial

/-! ## Requests inside the partition -/

variable (entry : AtaPartition) {part : Partition} {dev dev' : Device}

/-- All requests fit, and those that were ended have been sent to the disk. -/
structure Ended (dev : Device) : Prop where
  submitted : dev.ended.map fst ++ dev.requestList = dev.submitted
  fits : ∀ request ∈ dev.submitted, Fits entry (.request request)
  forwarded : dev.forwarded = (dev.ended.map fst).map (onDisk entry)

/-- All requests fit, those that were served have been sent to the disk, and the
first of the others is waited for. -/
structure Inv (dev : Device) : Prop where
  submitted : dev.ended.map fst ++ dev.requestList = dev.submitted
  fits : ∀ request ∈ dev.submitted, Fits entry (.request request)
  forwarded : dev.forwarded = dev.served.map (onDisk entry)
  completed : dev.waiting = false → dev.requestList = []

theorem inv_init : Inv entry Device.init :=
  ⟨rfl, nofun, rfl, fun _ => rfl⟩

variable {entry}

theorem Inv.ended_of_nil (h : Inv entry dev) (hnil : dev.requestList = []) :
    dev.forwarded = (dev.ended.map fst).map (onDisk entry) := by
  have hserved : dev.served = dev.ended.map fst := by
    unfold Device.served
    rw [hnil, take_nil, ite_self, append_nil]
  rw [h.forwarded, hserved]

theorem Ended.ataPartitionRequest (h : Ended entry dev)
    (hstart : part.startSector = entry.startSectorAbs) (hlen : part.secLen = entry.sectorCount) :
    Inv entry (ataPartitionRequest part dev) := by
  unfold AtaPartitions.ataPartitionRequest
  cases hlist : dev.requestList with
  | nil =>
    have hsubmitted := h.submitted
    rw [hlist] at hsubmitted
    refine ⟨hsubmitted, h.fits, ?_, fun _ => rfl⟩
    rw [h.forwarded]
    unfold Device.served
    rw [if_neg Bool.false_ne_true, append_nil]
  | cons request rest =>
    have hsubmitted := h.submitted
    rw [hlist] at hsubmitted
    obtain ⟨hinside, hnumber⟩ : Fits entry (.request request) := by
      apply h.fits
      rw [← hsubmitted]
      exact mem_append_right _ mem_cons_self
    unfold Inside at hinside
    dsimp only
    rw [if_neg (by omega)]
    refine ⟨hsubmitted, h.fits, ?_, nofun⟩
    have hsector : dword (request.sector + part.startSector) =
        entry.startSectorAbs + request.sector := by
      rw [hstart, add_comm]
      exact dword_of_lt hnumber
    unfold Device.served
    rw [if_pos rfl, map_append, ← h.forwarded, hsector]
    rfl

variable {request : Request}

section

variable (h : Inv entry dev)
include h

section

variable (hstart : part.startSector = entry.startSectorAbs)
include hstart

section

variable (hlen : part.secLen = entry.sectorCount)
include hlen

theorem Inv.storageDoRequest
    (hfits : Fits entry (.request request)) : Inv entry (storageDoRequest part dev request) := by
  have hsubmitted : dev.ended.map fst ++ (dev.requestList ++ [request]) =
      dev.submitted ++ [request] := by rw [← h.submitted, append_assoc]
  have hall : ∀ r ∈ dev.submitted ++ [request], Fits entry (.request r) :=
    forall_mem_append.mpr ⟨h.fits, forall_mem_singleton.mpr hfits⟩
  unfold AtaPartitions.storageDoRequest
  split
  · next hnil =>
    apply Ended.ataPartitionRequest _ hstart hlen
    exact ⟨hsubmitted, hall, h.ended_of_nil hnil⟩
  · next hne =>
    have hwaiting : dev.waiting = true := by
      rw [← Bool.not_eq_false]
      exact fun hidle => hne (h.completed hidle)
    refine ⟨hsubmitted, hall, ?_, fun hidle => ?_⟩
    · -- The first request stays the same.
      rw [h.forwarded]
      unfold Device.served
      obtain ⟨first, rest, hlist⟩ := exists_cons_of_ne_nil hne
      rw [hlist]
      rfl
    · rw [hwaiting] at hidle
      cases hidle

theorem Inv.answer (hwaiting : dev.waiting = true) (status : ℤ) :
    Inv entry (AtaPartitions.ataPartitionRequest part (storageEndRequest dev status)) := by
  apply Ended.ataPartitionRequest _ hstart hlen
  unfold storageEndRequest
  cases hlist : dev.requestList with
  | nil => exact ⟨h.submitted, h.fits, h.ended_of_nil hlist⟩
  | cons request rest =>
    have hmap : (dev.ended ++ [(request, status)]).map fst =
        dev.ended.map fst ++ [request] := map_append
    refine ⟨?_, h.fits, ?_⟩
    · rw [hmap, ← h.submitted, hlist, append_assoc]
      rfl
    · have hserved : dev.served = dev.ended.map fst ++ [request] := by
        unfold Device.served
        rw [hwaiting, hlist]
        rfl
      rw [h.forwarded, hserved, hmap]

theorem Inv.step {op : Op} (hfits : Fits entry op)
    (hs : step part dev op = some dev') : Inv entry dev' := by
  cases op with
  | request request =>
    cases hs
    exact h.storageDoRequest hstart hlen hfits
  | answer err =>
    obtain ⟨hwaiting, hs⟩ := ite_none_right_eq_some.mp hs
    cases hs
    exact h.answer hstart hlen hwaiting (-err)

end

end

theorem Inv.served_subset (hmem : request ∈ dev.served) : Fits entry (.request request) := by
  apply h.fits
  rw [← h.submitted]
  rcases mem_append.mp hmem with hended | hfirst
  · exact mem_append_left _ hended
  · apply mem_append_right
    split at hfirst
    · exact mem_of_mem_take hfirst
    · cases hfirst

end

theorem covers_onDisk (hinside : Inside entry request) {sector : ℕ}
    (hcovers : (onDisk entry request).Covers sector) : entry.Covers sector := by
  unfold onDisk Request.Covers at hcovers
  unfold Inside at hinside
  unfold AtaPartition.Covers
  dsimp only at hcovers
  omega

theorem Inv.isolated (h : Inv entry dev) : Isolated entry dev := by
  refine ⟨h.submitted, ?_, ?_, h.completed, ?_⟩
  · rw [h.forwarded, filter_eq_self.mpr]
    intro request hmem
    exact decide_eq_true (h.served_subset hmem).1
  · intro ending hmem hout
    have hserved : ending.1 ∈ dev.served :=
      mem_append_left _ (mem_map_of_mem hmem)
    exact absurd (h.served_subset hserved).1 hout
  · intro other hdisjoint request hmem sector hcovers
    rw [h.forwarded] at hmem
    obtain ⟨r, hr, rfl⟩ := mem_map.mp hmem
    exact hdisjoint sector (covers_onDisk (h.served_subset hr).1 hcovers)

/-! ## Partitions -/

theorem ataPartitionDevice_first {data : ℕ → UInt8} {i : ℕ}
    (hpart : (i, part) ∈ (ataPartitionDevice data).2) :
    part = ataAddPartition (partitionTable data) := by
  unfold ataPartitionDevice at hpart
  split at hpart
  · cases hpart
  · obtain ⟨j, -, hj⟩ := mem_map.mp hpart
    exact (mk.inj hj).2.symm

/-- The device for an entry with the range of the first one is isolated as long
as all requests to it are inside the partition. -/
theorem partition_isolated {data : ℕ → UInt8} {i : ℕ} {part : Partition}
    {dev : Device} (hpart : (i, part) ∈ (ataPartitionDevice data).2)
    (hstart : (partitionTable data i).startSectorAbs = (partitionTable data 0).startSectorAbs)
    (hcount : (partitionTable data i).sectorCount = (partitionTable data 0).sectorCount)
    (hreach : Reach (step part) (fun _ op => Fits (partitionTable data i) op) Device.init dev) :
    part.startSector = (partitionTable data i).startSectorAbs ∧
      part.secLen = (partitionTable data i).sectorCount ∧
      Isolated (partitionTable data i) dev := by
  have hfirst := ataPartitionDevice_first hpart
  have hstart' : part.startSector = (partitionTable data i).startSectorAbs := by
    rw [hfirst, hstart]
    rfl
  have hcount' : part.secLen = (partitionTable data i).sectorCount := by
    rw [hfirst, hcount]
    rfl
  refine ⟨hstart', hcount', Inv.isolated ?_⟩
  exact hreach.invariant (inv_init _) fun _ _ _ h hfits => h.step hstart' hcount' hfits

/-- A master boot record with partitions of ten sectors, which start at sector 1
and at sector 11. -/
def twoPartitions : ℕ → UInt8
  | 510 => 0x55
  | 511 => 0xAA
  | 450 => 0x83
  | 454 => 1
  | 458 => 10
  | 466 => 0x83
  | 470 => 11
  | 474 => 10
  | _ => 0

/-- A request while the device waits for the answer to another one. -/
theorem partition_isolated_two_requests :
    ∃ dev, Reach (step ⟨1, 10⟩) (fun _ op => Fits (partitionTable twoPartitions 0) op)
        Device.init dev ∧
      dev.forwarded = [⟨.read, 0, 4, 2⟩, ⟨.write, 0, 10, 1⟩] ∧
      Isolated (partitionTable twoPartitions 0) dev := by
  obtain ⟨dev, hreach, hforwarded⟩ := exists_reach (step ⟨1, 10⟩)
    (fun _ op => Fits (partitionTable twoPartitions 0) op) Device.init
    [.request ⟨.read, 0, 3, 2⟩, .request ⟨.write, 0, 9, 1⟩, .answer 0]
    (fun dev => dev.forwarded = [⟨.read, 0, 4, 2⟩, ⟨.write, 0, 10, 1⟩]) (by decide)
  have hpart : (0, ⟨1, 10⟩) ∈ (ataPartitionDevice twoPartitions).2 := by decide
  exact ⟨dev, hreach, hforwarded, (partition_isolated hpart rfl rfl hreach).2.2⟩

/-- Each device reads the first sector of the other partition, and a request for
a sector behind both is never ended. -/
theorem partition_not_isolated :
    storageBuildRequest 512 512 .read 0 0 = some ⟨.read, 0, 0, 1⟩ ∧
      (1, ⟨1, 10⟩) ∈ (ataPartitionDevice twoPartitions).2 ∧
      (∃ dev, step ⟨1, 10⟩ Device.init (.request ⟨.read, 0, 0, 1⟩) = some dev ∧
        dev.forwarded = [⟨.read, 0, 1, 1⟩] ∧
        ¬ Isolated (partitionTable twoPartitions 1) dev) ∧
      (0, ⟨1, 10⟩) ∈ (ataPartitionDevice twoPartitions).2 ∧
      (∃ dev, step ⟨1, 10⟩ Device.init (.request ⟨.read, 0, 10, 1⟩) = some dev ∧
        dev.forwarded = [⟨.read, 0, 11, 1⟩] ∧
        ¬ Isolated (partitionTable twoPartitions 0) dev) ∧
      ∃ dev, step ⟨1, 10⟩ Device.init (.request ⟨.read, 0, 20, 1⟩) = some dev ∧
        dev.requestList = [⟨.read, 0, 20, 1⟩] ∧
        ¬ Isolated (partitionTable twoPartitions 0) dev := by
  refine ⟨by decide, by decide, ⟨_, rfl, by decide, fun h => ?_⟩, by decide,
    ⟨_, rfl, by decide, fun h => ?_⟩, ⟨_, rfl, by decide, fun h => ?_⟩⟩
  · exact absurd h.forwarded (by decide)
  · exact absurd h.forwarded (by decide)
  · cases h.completed (by decide)

end Whitix.AtaPartitions
