import Whitix.Devices.Storage.Ata.Controller
import Whitix.Devices.Storage.Ata.Partition

/-!
# From block numbers to disk sectors

A block of a partition is read or written by one command for each of its
sectors.  The number of a sector goes through 32-bit arithmetic and the start of
the partition to the registers of the drive, which hold either the number itself
or a cylinder, a head and a sector.  The capacity of a drive of the second kind is not
found out, so that all its sectors but the first are out of bounds.
-/

namespace Whitix.AtaSectors

open Support Storage AtaControllers AtaPartitions Nat List

/-! ## The source -/

structure AtaDrive where
  drive : ℕ
  /-- The bit `ATA_LBA` of the type. -/
  lba : Bool
  heads : ℕ
  sectors : ℕ
  totalSectors : ℕ

/-- `drive->totalSectors` after `AtaGetCapacity`, which leaves the case of a drive without
LBA to be done; the structure is zeroed when it is allocated. -/
def ataGetCapacity (lba : Bool) (lbaCapacity : ℕ) : ℕ := if lba then lbaCapacity else 0

/-- The registers that `AtaSendCommand` writes, each of eight bits. -/
structure Registers where
  ldh : ℕ
  count : ℕ
  sector : ℕ
  cylLo : ℕ
  cylHi : ℕ

def byte (n : ℕ) : ℕ := n % 2 ^ 8

section

variable (disk : Disk) (drive : AtaDrive)

/-- The states that it waits for are reached. -/
def ataSendCommand (block : ℕ) : Registers :=
  let ldh := drive.drive <<< 4 ||| 0xA0
  if drive.lba then
    { ldh := byte (ldh ||| 0x40 ||| block >>> 24 % 2 ^ 4)
      count := 1
      sector := byte block
      cylLo := byte (block >>> 8)
      cylHi := byte (block >>> 16) }
  else
    let secsPerCyl := drive.heads * drive.sectors
    let cylinder := block / secsPerCyl
    { ldh := byte (ldh ||| block % secsPerCyl / drive.sectors)
      count := 1
      sector := byte (block % drive.sectors + 1)
      cylLo := byte cylinder
      cylHi := byte (cylinder >>> 8) }

structure Transfer where
  command : RequestType
  registers : Registers
  data : ℕ

/-- The commands for a request when no command fails.  `AtaReadWrite` issues the
first, and `AtaRwInterrupt` calls it again as long as there are sectors left. -/
def ataService (drive : AtaDrive) : ℕ → Queued → List Transfer
  | 0, _ => []
  | fuel + 1, q =>
    if drive.totalSectors < q.request.sector then []
    else
      ⟨q.request.type, ataSendCommand drive q.request.sector, q.request.data⟩ ::
        if 0 < q.advance.request.numSectors then ataService drive fuel q.advance else []

def blockTransfers (part : Partition) (softBlockSize : ℕ)
    (type : RequestType) (data b : ℕ) : List Transfer :=
  match storageBuildRequest 512 softBlockSize type data b with
  | none => []
  | some request =>
    (AtaPartitions.storageDoRequest part .init request).forwarded.flatMap fun r =>
      ataService drive (r.numSectors + 1) ⟨r, r, 0⟩

/-! ## The drive -/

/-- A drive of `size` sectors that can address all of them. -/
structure Disk extends AtaDrive where
  size : ℕ
  cyls : ℕ
  drive_lt : drive < 2
  capacity : totalSectors = ataGetCapacity lba size
  size_le : size ≤ 2 ^ 28
  geometry : lba = false → cyls ≤ 65536 ∧ heads ≤ 16 ∧ sectors ≤ 63 ∧
    size ≤ cyls * (heads * sectors)

/-- The sector that the registers select.  Bit 6 of the first one chooses between
the two kinds of addresses. -/
def Registers.decode (r : Registers) (drive : AtaDrive) : ℕ :=
  let cylinder := r.cylHi * 2 ^ 8 + r.cylLo
  let head := r.ldh % 2 ^ 4
  if r.ldh / 2 ^ 6 % 2 = 1 then head * 2 ^ 24 + cylinder * 2 ^ 8 + r.sector
  else (cylinder * drive.heads + head) * drive.sectors + (r.sector - 1)

/-- What the drive is told to do: to transfer some sectors from or to memory. -/
structure Effect where
  command : RequestType
  count : ℕ
  sector : ℕ
  data : ℕ
  deriving DecidableEq

def Transfer.effect (t : Transfer) : Effect :=
  ⟨t.command, t.registers.count, t.registers.decode drive, t.data⟩

/-- One sector of the block after the other, in the order of the bytes. -/
def blockEffects (first softBlockSize : ℕ) (type : RequestType) (data : ℕ) : List Effect :=
  (range (softBlockSize / 512)).map fun j => ⟨type, 1, first + j, data + 512 * j⟩

structure IsSoftBlockSize (n : ℕ) : Prop where
  pow : ∃ k, n = 2 ^ k
  low : 512 ≤ n
  high : n ≤ 4096

theorem ldh_lba : ∀ drive < 2, ∀ head < 16,
    byte (drive <<< 4 ||| 0xA0 ||| 0x40 ||| head) % 2 ^ 4 = head ∧
      byte (drive <<< 4 ||| 0xA0 ||| 0x40 ||| head) / 2 ^ 6 % 2 = 1 := by decide

theorem ldh_chs : ∀ drive < 2, ∀ head < 16, byte (drive <<< 4 ||| 0xA0 ||| head) % 2 ^ 4 = head ∧
    byte (drive <<< 4 ||| 0xA0 ||| head) / 2 ^ 6 % 2 = 0 := by decide

theorem bytes_of_cylinder {cylinder : ℕ} (h : cylinder < 65536) :
    byte (cylinder >>> 8) * 2 ^ 8 + byte cylinder = cylinder := by
  simp only [byte, shiftRight_eq_div_pow]
  omega

theorem decode_ataSendCommand_lba {block : ℕ} (hlba : disk.lba = true) (hblock : block < 2 ^ 28) :
    (ataSendCommand disk.toAtaDrive block).decode disk.toAtaDrive = block := by
  have hhead : block >>> 24 % 2 ^ 4 < 16 := mod_lt _ (by norm_num)
  obtain ⟨hlow, hbit⟩ := ldh_lba disk.drive disk.drive_lt _ hhead
  simp only [ataSendCommand, hlba, if_true, Registers.decode, hlow, hbit]
  simp only [byte, shiftRight_eq_div_pow]
  omega

theorem decode_ataSendCommand_chs {block : ℕ} (hlba : disk.lba = false)
    (hblock : block < disk.size) :
    (ataSendCommand disk.toAtaDrive block).decode disk.toAtaDrive = block := by
  obtain ⟨hcyls, hheads, hsectors, htotal⟩ := disk.geometry hlba
  have hinside : block < disk.heads * disk.sectors * disk.cyls := by
    rw [mul_comm]
    omega
  have hcylinder : block / (disk.heads * disk.sectors) < 65536 :=
    (Nat.div_lt_of_lt_mul hinside).trans_le hcyls
  have hper : 0 < disk.heads * disk.sectors :=
    pos_of_ne_zero fun h => by simp [h] at hinside
  have hpos : 0 < disk.sectors := Nat.pos_of_mul_pos_left hper
  have hhead : block % (disk.heads * disk.sectors) / disk.sectors < 16 :=
    (Nat.div_lt_of_lt_mul (by
      rw [mul_comm disk.sectors]
      exact mod_lt _ hper)).trans_le hheads
  obtain ⟨hlow, hbit⟩ := ldh_chs disk.drive disk.drive_lt _ hhead
  have hsector : byte (block % disk.sectors + 1) = block % disk.sectors + 1 :=
    mod_eq_of_lt (by have := mod_lt block hpos; omega)
  simp only [ataSendCommand, hlba, Bool.false_eq_true, if_false, Registers.decode, hlow, hbit,
    hsector, bytes_of_cylinder hcylinder, zero_ne_one]
  -- The remainder in the cylinder splits into the head and the sector.
  calc (block / (disk.heads * disk.sectors) * disk.heads +
          block % (disk.heads * disk.sectors) / disk.sectors) * disk.sectors +
        block % disk.sectors
      = disk.heads * disk.sectors * (block / (disk.heads * disk.sectors)) +
        (disk.sectors * (block % (disk.heads * disk.sectors) / disk.sectors) +
          block % (disk.heads * disk.sectors) % disk.sectors) := by
        rw [mod_mul_left_mod]
        ring
    _ = block := by rw [div_add_mod, div_add_mod]

theorem decode_ataSendCommand {block : ℕ} (hblock : block < disk.size) :
    (ataSendCommand disk.toAtaDrive block).decode disk.toAtaDrive = block := by
  cases hlba : disk.lba with
  | true => exact decode_ataSendCommand_lba disk hlba (hblock.trans_le disk.size_le)
  | false => exact decode_ataSendCommand_chs disk hlba hblock

/-! ## A request -/

theorem ataSendCommand_count (block : ℕ) : (ataSendCommand drive block).count = 1 := by
  unfold ataSendCommand
  split <;> rfl

theorem ataService_effect (hlba : disk.lba = true) (n fuel : ℕ) (q : Queued) (hfuel : n < fuel)
    (hn : q.request.numSectors = n + 1) (hin : q.request.sector + n < disk.size) :
    (ataService disk.toAtaDrive fuel q).map (Transfer.effect disk.toAtaDrive) =
      (range (n + 1)).map fun j =>
        ⟨q.request.type, 1, q.request.sector + j, q.request.data + 512 * j⟩ := by
  induction fuel generalizing n q with
  | zero => exact absurd hfuel (not_lt_zero _)
  | succ fuel ih =>
    have htotal : disk.totalSectors = disk.size := by
      rw [disk.capacity, hlba]
      rfl
    rw [ataService, if_neg (by omega)]
    cases n with
    | zero =>
      rw [if_neg (by simp [Queued.advance, hn])]
      simpa [Transfer.effect, ataSendCommand_count] using decode_ataSendCommand disk hin
    | succ n =>
      have hfirst : q.request.sector < disk.size := by omega
      have hlimit := disk.size_le
      have hnext : q.advance.request.sector = q.request.sector + 1 := dword_of_lt (by omega)
      have hleft : q.advance.request.numSectors = n + 1 := by simp [Queued.advance, hn]
      have hrest := ih n q.advance (by omega) hleft (by omega)
      rw [if_pos (by omega), map_cons, hrest, range_succ_eq_map (n := n + 1), map_cons, map_map]
      congr 1
      · simp [Transfer.effect, ataSendCommand_count, decode_ataSendCommand disk hfirst]
      · refine map_congr_left fun j _ => ?_
        simp only [hnext, Function.comp_apply, Effect.mk.injEq]
        refine ⟨rfl, trivial, by omega, ?_⟩
        simp only [Queued.advance]
        omega

/-- Without a capacity only the first sector of the disk is in bounds. -/
theorem ataService_noCapacity (h : drive.totalSectors = 0) (fuel : ℕ) (q : Queued) :
    ataService drive (fuel + 1) q = if 0 < q.request.sector then []
      else [⟨q.request.type, ataSendCommand drive q.request.sector, q.request.data⟩] := by
  rw [ataService, h]
  split_ifs with hsector hleft
  · rfl
  · have hnext : 0 < q.advance.request.sector := by
      change 0 < dword (q.request.sector + 1)
      rw [Nat.eq_zero_of_not_pos hsector]
      decide
    cases fuel with
    | zero => rfl
    | succ fuel => rw [ataService, h, if_pos hnext]
  · rfl

end

/-! ## A block -/

section Block

variable (disk : Disk) (part : Partition) {softBlockSize : ℕ} (type : RequestType)
  (data : ℕ) {b : ℕ}

theorem IsSoftBlockSize.eq_mul (h : IsSoftBlockSize softBlockSize) :
    ∃ n, softBlockSize = 512 * (n + 1) := by
  obtain ⟨k, rfl⟩ := h.pow
  have hk : 9 ≤ k := (Nat.pow_le_pow_iff_right (by norm_num : 1 < 2)).1 h.low
  obtain ⟨m, hm⟩ := pow_dvd_pow 2 hk
  have hlow := h.low
  exact ⟨m - 1, by omega⟩

variable (hsize : IsSoftBlockSize softBlockSize)
  (hpart : (b + 1) * softBlockSize / 512 ≤ part.secLen)
  (hdisk : part.startSector + (b + 1) * softBlockSize / 512 ≤ disk.size)
include hsize hpart hdisk

omit hsize in
/-- The request of a block reaches the disk with the start of the partition added. -/
theorem blockTransfers_eq :
    blockTransfers disk.toAtaDrive part softBlockSize type data b =
      ataService disk.toAtaDrive (softBlockSize / 512 + 1)
        ⟨⟨type, data, part.startSector + dword (b * softBlockSize) / 512, softBlockSize / 512⟩,
          ⟨type, data, part.startSector + dword (b * softBlockSize) / 512, softBlockSize / 512⟩,
          0⟩ := by
  have hle : dword (b * softBlockSize) ≤ b * softBlockSize := mod_le _ _
  have hlast : (b + 1) * softBlockSize = b * softBlockSize + softBlockSize := by ring
  have hlimit := disk.size_le
  generalize hs : dword (b * softBlockSize) / 512 = s
  have hsum : dword (s + part.startSector) = part.startSector + s := by
    rw [dword_of_lt (by omega), add_comm]
  have hinside : ¬ part.secLen < s := by omega
  simp [blockTransfers, storageBuildRequest, AtaPartitions.storageDoRequest, Device.init,
    ataPartitionRequest, hs, hinside, hsum]

theorem blockTransfers_effect (hlba : disk.lba = true) :
    (blockTransfers disk.toAtaDrive part softBlockSize type data b).map
        (Transfer.effect disk.toAtaDrive) =
      blockEffects (part.startSector + dword (b * softBlockSize) / 512)
        softBlockSize type data := by
  obtain ⟨n, hn⟩ := hsize.eq_mul
  have hcount : softBlockSize / 512 = n + 1 := by omega
  have hle : dword (b * softBlockSize) ≤ b * softBlockSize := mod_le _ _
  have hlast : (b + 1) * softBlockSize = b * softBlockSize + softBlockSize := by ring
  rw [blockTransfers_eq disk part type data hpart hdisk, blockEffects, hcount]
  exact ataService_effect disk hlba n _ _ (by omega) rfl (by dsimp only; omega)

/-- On a drive without LBA at most the first sector of the disk is transferred. -/
theorem blockTransfers_chs (hlba : disk.lba = false) :
    (blockTransfers disk.toAtaDrive part softBlockSize type data b).map
        (Transfer.effect disk.toAtaDrive) =
      blockEffects (part.startSector + b * softBlockSize / 512) softBlockSize type data ↔
    part.startSector = 0 ∧ b = 0 ∧ softBlockSize = 512 := by
  obtain ⟨n, hn⟩ := hsize.eq_mul
  have hcount : softBlockSize / 512 = n + 1 := by omega
  have htotal : disk.totalSectors = 0 := by
    rw [disk.capacity, hlba]
    rfl
  have hlast : (b + 1) * softBlockSize = b * softBlockSize + softBlockSize := by ring
  have hdecode := @decode_ataSendCommand disk 0 (by omega)
  rw [blockTransfers_eq disk part type data hpart hdisk, ataService_noCapacity _ htotal,
    blockEffects, hcount]
  constructor
  · intro h
    split_ifs at h with hsector
    · exact absurd (congrArg length h) (by simp)
    · have hlength := congrArg length h
      have hfirst := Nat.eq_zero_of_not_pos hsector
      rw [hfirst, range_succ_eq_map, map_cons, map_cons, cons.injEq] at h
      have hzero := congrArg Effect.sector h.1
      simp only [Transfer.effect, hdecode, add_zero] at hzero
      simp only [length_map, length_range, length_cons, length_nil] at hlength
      refine ⟨by omega, ?_, by omega⟩
      by_contra hpos
      have hle : softBlockSize ≤ b * softBlockSize :=
        Nat.le_mul_of_pos_left _ (Nat.pos_of_ne_zero hpos)
      omega
  · rintro ⟨hstart, rfl, rfl⟩
    obtain rfl : n = 0 := by omega
    rw [hstart]
    simp [dword, Transfer.effect, hdecode, ataSendCommand_count]

/-- The commands for a block transfer its sectors if and only if it begins below 4 GB in
the partition, and the drive has LBA or the block is the first sector of the disk. -/
theorem block_sectors :
    (blockTransfers disk.toAtaDrive part softBlockSize type data b).map
        (Transfer.effect disk.toAtaDrive) =
      blockEffects (part.startSector + b * softBlockSize / 512) softBlockSize type data ↔
    b * softBlockSize < 2 ^ 32 ∧
      (disk.lba = true ∨ part.startSector = 0 ∧ b = 0 ∧ softBlockSize = 512) := by
  cases hlba : disk.lba with
  | true =>
    rw [blockTransfers_effect disk part type data hsize hpart hdisk hlba]
    constructor
    · intro h
      have hlow := hsize.low
      have hfirst := map_inj_left.1 h 0 (mem_range.2 (by omega))
      have hsector := congrArg Effect.sector hfirst
      have hlt := dword_lt (b * softBlockSize)
      dsimp only at hsector
      exact ⟨by omega, .inl rfl⟩
    · intro h
      rw [dword_of_lt h.1]
  | false =>
    rw [blockTransfers_chs disk part type data hsize hpart hdisk hlba]
    constructor
    · rintro ⟨hstart, rfl, rfl⟩
      exact ⟨by decide, .inr ⟨hstart, rfl, rfl⟩⟩
    · exact fun h => h.2.resolve_left Bool.false_ne_true

end Block

def largeDisk : Disk where
  drive := 0
  lba := true
  heads := 0
  sectors := 0
  totalSectors := 2 ^ 28
  size := 2 ^ 28
  cyls := 0
  drive_lt := by decide
  capacity := rfl
  size_le := le_rfl
  geometry := by decide

def largePartition : Partition := ⟨63, 2 ^ 28 - 63⟩

theorem isSoftBlockSize_4096 : IsSoftBlockSize 4096 :=
  ⟨⟨12, rfl⟩, by decide, le_rfl⟩

theorem block_sectors_below_four_gigabytes :
    (blockTransfers largeDisk.toAtaDrive largePartition 4096 .read 0 1000).map
        (Transfer.effect largeDisk.toAtaDrive) =
      blockEffects (63 + 1000 * 4096 / 512) 4096 .read 0 :=
  (block_sectors largeDisk largePartition .read 0 isSoftBlockSize_4096 (by decide)
    (by decide)).2 ⟨by decide, .inl rfl⟩

/-- The block at 4 GB is read from the start of the partition. -/
theorem block_sectors_at_four_gigabytes : (2 ^ 20 + 1) * 4096 / 512 ≤ largePartition.secLen ∧
    largePartition.startSector + (2 ^ 20 + 1) * 4096 / 512 ≤ largeDisk.size ∧
    (blockTransfers largeDisk.toAtaDrive largePartition 4096 .read 0 (2 ^ 20)).map
      (Transfer.effect largeDisk.toAtaDrive) = blockEffects 63 4096 .read 0 ∧
    blockEffects 63 4096 .read 0 ≠ blockEffects (63 + 2 ^ 20 * 4096 / 512) 4096 .read 0 :=
  ⟨by decide, by decide, blockTransfers_effect largeDisk largePartition .read 0
    isSoftBlockSize_4096 (by decide) (by decide) rfl, by decide⟩

end Whitix.AtaSectors
