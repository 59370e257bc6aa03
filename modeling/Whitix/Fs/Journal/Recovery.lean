import Whitix.Fs.Bcache.Model
import Whitix.Fs.Journal.Log

/-!
# Recovery of the journal

`JournalRecover` of `fs/journal/recovery.c` goes over the log twice.  The
first pass looks for the last committed transaction, and the second one writes
the blocks of the log to their home locations.

The second pass does not use what the first one found: it goes on into a
transaction that has no commit block.  For every block it writes it allocates
a new buffer, which the cache finds only if there was none for the block.
-/

namespace Whitix.Jfs

open Support Bcache

/-! ## The code -/

/-- The fields of the journal that recovery reads, and `JournalBlockMap`. -/
structure RecoverParams where
  sectorSize : ℕ
  maxLength : ℕ
  head : ℕ
  blockMap : ℕ → ℕ

/-- The device of the journal, and the home blocks given to `BlockWrite`. -/
structure Recovery where
  dev : StorageDevice
  written : List (ℕ × Block)

def journalBlockRead (r : Recovery) (blockNum : ℕ) : Option (Block × Recovery) :=
  (blockRead r.dev blockNum true).1.map fun buff =>
    (buff.data, { r with dev := (blockRead r.dev blockNum true).2 })

/-- `BlockBufferAlloc` of a home block, `memcpy` of the log block into the new
buffer and `BlockWrite` of it. -/
def replayBlock (size : ℕ) (r : Recovery) (blockNo : ℕ) (data : Block) : Recovery where
  dev :=
    { blockAddToHashTable r.dev
        { blockNum := blockNo
          dirty := true
          data := memcpy (fun _ => 0) data size } with
      numDirty := r.dev.numDirty + 1 }
  written := r.written ++ [(blockNo, memcpy (fun _ => 0) data size)]

variable (j : RecoverParams)

/-- An iteration of `JournalReplayBlocks`.  Where memory is too short for the
buffer of a block, the code follows a null pointer. -/
def replayEntry (st : Option (Recovery × ℕ)) (blockNo : ℕ) : Option (Recovery × ℕ) := do
  let (r, logBlock) ← st
  let (data, r) ← journalBlockRead r (j.blockMap logBlock)
  if memAllocMax < r.dev.softBlockSize then none
  else
    some (replayBlock j.sectorSize r blockNo data,
      journalWrap j.maxLength j.head (dword (logBlock + 1)))

def journalReplayBlocks (r : Recovery) (data : Block) (logBlock : ℕ) : Option (Recovery × ℕ) :=
  forEachTag data j.sectorSize (replayEntry j) j.sectorSize sizeofHeader (some (r, logBlock))

/-- `JOURN_PASS_SCAN` -/
def scanPass : Access Recovery where
  read := fun r n => journalBlockRead r (j.blockMap n)
  descriptor := fun r data next =>
    some (r, dword (next + journalCountTags data j.sectorSize))

/-- `JOURN_PASS_REPLAY` -/
def replayPass : Access Recovery where
  read := fun r n => journalBlockRead r (j.blockMap n)
  descriptor := journalReplayBlocks j

def journalDoOnePass (access : Access Recovery) (fuel sequence start : ℕ)
    (r : Recovery) : Option (Pass Recovery) :=
  passLoop (journalWrap j.maxLength j.head) access fuel ⟨start, sequence, r⟩

/-- `JournalRecover`, which returns the next sequence number: `endTransaction`
is incremented only after it has been assigned. -/
def journalRecover (fuel sequence start : ℕ) (r : Recovery) : Option (ℕ × Recovery) :=
  if start = 0 then some (dword (sequence + 1), r)
  else do
    let scan ← journalDoOnePass j (scanPass j) fuel sequence start r
    let replay ← journalDoOnePass j (replayPass j) fuel sequence start scan.env
    some (replay.nextCommitId, replay.env)

/-! ## The log -/

/-- Correctly flagged tags from offset `p` of a descriptor block on: only the
last of them is marked as the last. -/
inductive TagsAt (data : Block) (size : ℕ) : ℕ → List ℕ → Prop
  | last {p : ℕ} :
      p + sizeofTag ≤ size → tagFlags data p &&& journFlagLastTag ≠ 0 →
        TagsAt data size p [beDwordAt data p]
  | cons {p : ℕ} {bs : List ℕ} :
      p + sizeofTag ≤ size → tagFlags data p &&& journFlagLastTag = 0 →
        TagsAt data size (nextTag data p) bs → TagsAt data size p (beDwordAt data p :: bs)

section Layout

variable (size : ℕ) (log : ℕ → Block)

/-- Descriptor blocks of transaction `id` from log block `pos` on, each
followed by the blocks it has tags for.  A list of block numbers stands for
each of them. -/
def GroupsAt (id : ℕ) : ℕ → List (List ℕ) → Prop
  | _, [] => True
  | pos, bs :: groups =>
    headerAt (log pos) 0 = ⟨jfsMagic, jfsDescBlock, id⟩ ∧ TagsAt (log pos) size sizeofHeader bs ∧
      GroupsAt id (pos + 1 + bs.length) groups

def groupsEnd : ℕ → List (List ℕ) → ℕ
  | pos, [] => pos
  | pos, bs :: groups => groupsEnd (pos + 1 + bs.length) groups

/-- Complete transactions with consecutive sequence numbers. -/
def TransactionsAt : ℕ → ℕ → List (List (List ℕ)) → Prop
  | _, _, [] => True
  | id, pos, groups :: ts =>
    GroupsAt size log id pos groups ∧ headerAt (log (groupsEnd pos groups)) 0 =
        ⟨jfsMagic, jfsCommitBlock, id⟩ ∧
      TransactionsAt (id + 1) (groupsEnd pos groups + 1) ts

def transactionsEnd : ℕ → List (List (List ℕ)) → ℕ
  | pos, [] => pos
  | pos, groups :: ts => transactionsEnd (groupsEnd pos groups + 1) ts

/-- The blocks that a descriptor block with tags `bs` has the data of, from log
block `pos` on. -/
def pairsFrom : ℕ → List ℕ → List (ℕ × Block)
  | _, [] => []
  | pos, b :: bs => (b, homeCopy size log pos) :: pairsFrom (pos + 1) bs

def groupPairs : ℕ → List (List ℕ) → List (ℕ × Block)
  | _, [] => []
  | pos, bs :: groups =>
    pairsFrom size log (pos + 1) bs ++ groupPairs (pos + 1 + bs.length) groups

def transactionPairs : ℕ → List (List (List ℕ)) → List (ℕ × Block)
  | _, [] => []
  | pos, groups :: ts =>
    groupPairs size log pos groups ++ transactionPairs (groupsEnd pos groups + 1) ts

end Layout

end Whitix.Jfs
