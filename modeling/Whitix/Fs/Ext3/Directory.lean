import Whitix.Include.Error
import Whitix.Support.Memory
import Whitix.Support.PackedTable
import Whitix.Support.Run
import Whitix.Support.Tiling

/-!
# Directories in ext3

A directory is a file whose blocks are tiled by records of variable length.  A
record has an inode number, its length, the length of the name, a file type and
the name.  The inode number of an unused record is zero.

The blocks of the directory are in the buffer cache, and a buffer is known by
its place in the directory.  A pointer to a record is the offset of the record,
in its block or in the directory.  The calls to the journal do not change a
block and are left out.
-/

namespace Whitix.Ext3

open Support Function

/-! ## Records -/

def dirRecLen (nameLen : ℕ) : ℕ := (nameLen + 8 + 3) / 4 * 4

section Fields

variable (data : ℕ → UInt8) (entry : ℕ)

def iNodeNum : ℕ := dwordAt data entry
def recLen : ℕ := wordAt data (entry + 4)
def nameLen : ℕ := (data (entry + 6)).toNat

def recName : List UInt8 := extract data (entry + 8) (nameLen data entry)

def setINodeNum (value : ℕ) : ℕ → UInt8 := setDwordAt data entry value
def setRecLen (value : ℕ) : ℕ → UInt8 := setWordAt data (entry + 4) value

def setNameLen (value : ℕ) : ℕ → UInt8 :=
  update data (entry + 6) (UInt8.ofNat value)

def setFileType (value : ℕ) : ℕ → UInt8 :=
  update data (entry + 7) (UInt8.ofNat value)

def setName (name : List UInt8) : ℕ → UInt8 := overwrite data (entry + 8) name

end Fields

/-- Whether `strncmp` of the bytes at an address and a string, over the length
of the string, is zero. -/
def strncmpZero (data : ℕ → UInt8) : ℕ → List UInt8 → Bool
  | _, [] => true
  | k, c :: name =>
    if data k ≠ c then false
    else if c = 0 then true
    else strncmpZero data (k + 1) name

structure Name where
  bytes : List UInt8
  ne_nil : bytes ≠ []
  no_nul : 0 ∉ bytes
  deriving DecidableEq

structure VNode where
  id : ℕ
  mode : ℕ
  id_pos : 0 < id
  id_lt : id < 2 ^ 32

def VFS_ATTR_FILE : ℕ := 1
def VFS_ATTR_DIR : ℕ := 2
def EXT3_FT_UNKNOWN : ℕ := 0
def EXT3_FT_FILE : ℕ := 1
def EXT3_FT_DIR : ℕ := 2

def ext3SetFileType (mode : ℕ) : ℕ :=
  if mode &&& VFS_ATTR_FILE ≠ 0 then EXT3_FT_FILE
  else if mode &&& VFS_ATTR_DIR ≠ 0 then EXT3_FT_DIR
  else EXT3_FT_UNKNOWN

/-- A directory: the size of a block, the size of the directory and the contents
of its blocks. -/
structure Dir where
  blockSize : ℕ
  size : ℕ
  data : ℕ → ℕ → UInt8

/-! ## Looking up a name -/

def nameMatches (data : ℕ → UInt8) (entry : ℕ) (name : List UInt8) : Bool :=
  nameLen data entry = name.length && strncmpZero data (entry + 8) name

/-- The loop of `Ext3FindEntry` over one block.  It ends at the offset of a
record with the name (`true`) or behind the block. -/
def findInBlock (dir : Dir) (name : List UInt8) (data : ℕ → UInt8) : ℕ → ℕ → ℕ → Option (Bool × ℕ)
  | 0, _, _ => none
  | fuel + 1, i, offset =>
    if i < dir.size ∧ offset < dir.blockSize then
      let entry := i % dir.blockSize
      if nameMatches data entry name then some (true, i)
      else
        findInBlock dir name data fuel (i + recLen data entry) (offset + recLen data entry)
    else some (false, i)

def findInBlocks (dir : Dir) (name : List UInt8) : ℕ → ℕ → Option (Except ℤ ℕ)
  | 0, _ => none
  | fuel + 1, i =>
    if i < dir.size then
      match findInBlock dir name (dir.data (i / dir.blockSize))
          (dir.size + 1) i (i % dir.blockSize) with
      | none => none
      | some (true, i) => some (.ok i)
      | some (false, i) => findInBlocks dir name fuel i
    else some (.error (-ENOENT))

variable (dir : Dir) (name : List UInt8)

/-- `Ext3FindEntry` returns the offset of a record in the directory.  `none`
stands for a call that does not return: a record of length zero is visited
again and again. -/
def ext3FindEntry : Option (Except ℤ ℕ) :=
  findInBlocks dir name (dir.size + 1) 0

/-! ## Adding a record -/

/-- The test of `Ext3AddEntry`: an unused record is long enough, or there is
enough room behind the name of a record. -/
def hasRoom (data : ℕ → UInt8) (entry needed : ℕ) : Bool :=
  (iNodeNum data entry = 0 && needed ≤ recLen data entry) ||
    dirRecLen (nameLen data entry) + needed ≤ recLen data entry

/-- The loop of `Ext3AddEntry`.  `none` stands for a call that does not return:
at the end of the block the machine is halted. -/
def findRoom (data : ℕ → UInt8) (blockSize needed : ℕ) : ℕ → ℕ → Option ℕ
  | 0, _ => none
  | fuel + 1, entry =>
    if blockSize ≤ entry then none
    else if hasRoom data entry needed then some entry
    else findRoom data blockSize needed fuel (entry + recLen data entry)

/-- Divide a record behind its name; the new record has no other fields yet. -/
def splitEntry (data : ℕ → UInt8) (entry : ℕ) : ℕ → UInt8 :=
  let next := entry + dirRecLen (nameLen data entry)
  let data := setRecLen data next (recLen data entry - dirRecLen (nameLen data entry))
  setRecLen data entry (dirRecLen (nameLen data entry))

def fillEntry (data : ℕ → UInt8) (entry : ℕ) (name : List UInt8) (vNode : VNode) : ℕ → UInt8 :=
  let data := setFileType data entry EXT3_FT_UNKNOWN
  let data := setINodeNum data entry vNode.id
  let data := setFileType data entry (ext3SetFileType vNode.mode)
  let data := setNameLen data entry name.length
  setName data entry name

def enterName (data : ℕ → UInt8) (entry : ℕ) (name : List UInt8) (vNode : VNode) : ℕ → UInt8 :=
  if iNodeNum data entry ≠ 0 then
    fillEntry (splitEntry data entry) (entry + dirRecLen (nameLen data entry)) name vNode
  else fillEntry data entry name vNode

def Dir.setBlock (block : ℕ) (data : ℕ → UInt8) : Dir :=
  { dir with data := update dir.data block data }

/-- `Ext3AddEntry`, which looks for room in the first block only. -/
def ext3AddEntry (vNode : VNode) : Option Dir :=
  (findRoom (dir.data 0) dir.blockSize (dirRecLen name.length)
    (dir.blockSize + 1) 0).map fun entry =>
      dir.setBlock 0 (enterName (dir.data 0) entry name vNode)

/-! ## Removing a record -/

def removeLoop (data : ℕ → UInt8) (blockSize entry : ℕ) :
    ℕ → Option ℕ → ℕ → Option (ℤ × (ℕ → UInt8))
  | 0, _, _ => none
  | fuel + 1, prev, curr =>
    if curr < blockSize then
      if entry = curr then
        match prev with
        | some prev =>
          some (0, setRecLen data prev (recLen data prev + recLen data curr))
        | none => some (0, setINodeNum data curr 0)
      else
        removeLoop data blockSize entry fuel (some curr) (curr + recLen data curr)
    else some (-ENOENT, data)

def ext3RemoveEntry (data : ℕ → UInt8) (blockSize entry : ℕ) : Option (ℤ × (ℕ → UInt8)) :=
  removeLoop data blockSize entry (blockSize + 1) none 0

def ext3Remove : Option (ℤ × Dir) :=
  match ext3FindEntry dir name with
  | none => none
  | some (.error err) => some (err, dir)
  | some (.ok i) =>
    (ext3RemoveEntry (dir.data (i / dir.blockSize)) dir.blockSize (i % dir.blockSize)).map fun r =>
        (r.1, dir.setBlock (i / dir.blockSize) r.2)

/-! ## Directories as finite maps -/

def Dir.count : ℕ := dir.size / dir.blockSize

def Dir.records (block : ℕ) : List ℕ :=
  walk (recLen (dir.data block)) dir.blockSize dir.blockSize 0

/-- Every block is tiled by records that are long enough for their names. -/
structure Tiled (dir : Dir) : Prop where
  blockSize_pos : 0 < dir.blockSize
  blockSize_dvd : dir.blockSize ∣ dir.size
  tiles : ∀ b < dir.count, Tiles (recLen (dir.data b)) 0 (dir.records b) dir.blockSize
  fits : ∀ b < dir.count, ∀ o ∈ dir.records b,
    dirRecLen (nameLen (dir.data b) o) ≤ recLen (dir.data b) o ∧ 4 ∣ recLen (dir.data b) o

/-- The record at an offset of a block is in use and has the name. -/
def Dir.LiveAt (b o : ℕ) : Prop :=
  o ∈ dir.records b ∧ iNodeNum (dir.data b) o ≠ 0 ∧ recName (dir.data b) o = name
  deriving Decidable

def UniqueNames : Prop :=
  ∀ name : Name, ∀ b < dir.count, ∀ b' < dir.count, ∀ o o',
    dir.LiveAt name.bytes b o → dir.LiveAt name.bytes b' o' → b = b' ∧ o = o'

def Dir.Present : Prop :=
  ∃ b < dir.count, ∃ o ∈ dir.records b, dir.LiveAt name b o

instance (dir : Dir) (name : List UInt8) : Decidable (dir.Present name) :=
  inferInstanceAs (Decidable (∃ b < dir.count, _))

/-- What `Ext3FindEntry` finds: the place of a record and its inode number. -/
def lookup (name : Name) : Option (Except ℤ (ℕ × ℕ)) :=
  (ext3FindEntry dir name.bytes).map fun r => r.map fun i =>
    (i, iNodeNum (dir.data (i / dir.blockSize)) (i % dir.blockSize))

inductive DirOp
  | add (name : Name) (vNode : VNode)
  | remove (name : Name)

/-- A name is only added if it is not present and there is a first block. -/
def dirStep : DirOp → Option Dir
  | .add name vNode =>
    if 0 < dir.count ∧ ¬ dir.Present name.bytes then
      ext3AddEntry dir name.bytes vNode
    else none
  | .remove name => (ext3Remove dir name.bytes).map Prod.snd

/-- What an operation has to do: a name that was added is found with its inode
number, a name that was removed is not found, and all other names are found as
before. -/
def StepOk (op : DirOp) (dir' : Dir) : Prop :=
  match op with
  | .add name vNode =>
    (∃ i, lookup dir' name = some (.ok (i, vNode.id))) ∧
      ∀ other ≠ name, lookup dir' other = lookup dir other
  | .remove name =>
    ((ext3Remove dir name.bytes).map Prod.fst = some 0 →
      lookup dir' name = some (.error (-ENOENT))) ∧
      ∀ other ≠ name, lookup dir' other = lookup dir other

/-- The calls that are made: an absent name is added while some record of the first block
has room for it, and any name is removed. -/
def Enabled : DirOp → Prop
  | .add name _ => 0 < dir.count ∧ ¬ dir.Present name.bytes ∧
      ∃ o ∈ dir.records 0, hasRoom (dir.data 0) o (dirRecLen name.bytes.length) = true
  | .remove _ => True

/-- Both loops come to an end. -/
def Returns : Prop :=
  ∀ name : Name, lookup dir name ≠ none ∧ ext3Remove dir name.bytes ≠ none

def NoStaleNames : Prop :=
  ∀ b < dir.count, ∀ o ∈ dir.records b, iNodeNum (dir.data b) o = 0 → nameLen (dir.data b) o = 0

/-- `Ext3FindEntry` does not look at inode numbers, so no unused record may have
kept a name and the first record of a block may not be removed.  Lengths of
names are bytes, and lengths of records words. -/
def KeepsNames : DirOp → Prop
  | .add name _ => NoStaleNames dir ∧ name.bytes.length < 256
  | .remove name => NoStaleNames dir ∧ dir.blockSize < 2 ^ 16 ∧
      ∀ b < dir.count, recName (dir.data b) 0 ≠ name.bytes

instance (dir : Dir) : Decidable (NoStaleNames dir) :=
  inferInstanceAs (Decidable (∀ b < dir.count, _))

instance (dir : Dir) : (op : DirOp) → Decidable (KeepsNames dir op)
  | .add _ _ => inferInstanceAs (Decidable (_ ∧ _))
  | .remove _ => inferInstanceAs (Decidable (_ ∧ _ ∧ _))

end Whitix.Ext3
