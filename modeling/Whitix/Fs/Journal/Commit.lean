import Whitix.Fs.Journal.Log

/-!
# Writing a transaction to the log

`JournalCommitMetadata` of `fs/journal/commit.c` goes through the buffers of a
transaction.  It copies each one into the next block of the log and adds a tag
for it to a descriptor block, and `JournalWriteCommitRecord` ends the
transaction with a commit block.

The test for the end of the list looks at the successor of the next buffer, so
it is met one buffer early, and the last tag but one is marked as the last.
Recovery then takes the last block of the transaction for a header.  It reads
the transaction back only if there is a single buffer.
-/

namespace Whitix.Jfs

open Support Function Nat

/-! ## The code -/

/-- The fields of the journal and of the transaction that a commit reads.  The
blocks of the device have the size of those of the journal. -/
structure CommitParams where
  sectorSize : ℕ
  uuid : Vector UInt8 16
  transId : ℕ
  sectorSize_ge : 512 ≤ sectorSize
  transId_lt : transId < 2 ^ 32

open List

structure Metadata where
  blockNum : ℕ
  data : Block

/-- The state of a commit.  `buffer` holds the data of the buffers of the log
blocks and `log` what has reached the disk; a buffer is named by its log
block.  `buffers` is the array of that name up to `bufIndex`, and `stores` the
offset and length of every store into the descriptor block. -/
structure Commit where
  head : ℕ
  buffer : ℕ → Block
  log : ℕ → Block
  descriptor : Option ℕ
  buffers : List ℕ
  firstTag : Bool
  tagPointer : ℕ
  spaceLeft : ℕ
  stores : List (ℕ × ℕ)

def Commit.start (head : ℕ) (log : ℕ → Block) : Commit where
  head := head
  buffer := log
  log := log
  descriptor := none
  buffers := []
  firstTag := false
  tagPointer := 0
  spaceLeft := 0
  stores := []

def Commit.setBuffer (c : Commit) (n : ℕ) (data : Block) : Commit :=
  { c with buffer := update c.buffer n data }

variable (j : CommitParams)

section

variable (c : Commit)

/-- `JournalGetDescriptorBuffer`, which clears the block at the head of the
log. -/
def journalGetDescriptorBuffer : ℕ × Commit :=
  (c.head, { c with
    head := c.head + 1
    buffer := update c.buffer c.head (memcpy (c.log c.head) (fun _ => 0) j.sectorSize) })

def descHeader : JournalHeader := ⟨jfsMagic, jfsDescBlock, j.transId⟩

def commitHeader : JournalHeader := ⟨jfsMagic, jfsCommitBlock, j.transId⟩

theorem descHeader_fits : (descHeader j).Fits :=
  ⟨show jfsMagic < 2 ^ 32 by decide, show jfsDescBlock < 2 ^ 32 by decide, j.transId_lt⟩

theorem commitHeader_fits : (commitHeader j).Fits :=
  ⟨show jfsMagic < 2 ^ 32 by decide, show jfsCommitBlock < 2 ^ 32 by decide, j.transId_lt⟩

def openDescriptor : ℕ × Commit :=
  match c.descriptor with
  | some d => (d, c)
  | none =>
    let (d, c) := journalGetDescriptorBuffer j c
    (d, { c.setBuffer d (setHeaderAt (c.buffer d) 0 (descHeader j)) with
      descriptor := some d
      tagPointer := sizeofHeader
      spaceLeft := dwordSub j.sectorSize sizeofHeader
      firstTag := true
      buffers := c.buffers ++ [d]
      stores := c.stores ++ [(0, sizeofHeader)] })

/-- `JournalNextLogBlock` and `JournalWriteMetadataBuffer`: the copy of the
buffer in the next log block. -/
def journalWriteMetadataBuffer (curr : Metadata) : ℕ × Commit :=
  (c.head, { c with
    head := c.head + 1
    buffer := update c.buffer c.head (memcpy (fun _ => 0) curr.data j.sectorSize) })

def putTag (d blockNum flags : ℕ) : Commit :=
  { c.setBuffer d (setBeDwordAt
      (setBeDwordAt (c.buffer d) c.tagPointer blockNum)
      (c.tagPointer + 4) flags) with
    tagPointer := c.tagPointer + sizeofTag
    spaceLeft := dwordSub c.spaceLeft sizeofTag
    stores := c.stores ++ [(c.tagPointer, sizeofTag)] }

/-- After the first tag, store the identifier of the filesystem. -/
def putUuid (d : ℕ) : Commit :=
  if c.firstTag then
    { c.setBuffer d (overwrite (c.buffer d) c.tagPointer j.uuid.toList) with
      tagPointer := c.tagPointer + 16
      spaceLeft := dwordSub c.spaceLeft 16
      firstTag := false
      stores := c.stores ++ [(c.tagPointer, 16)] }
  else c

/-- Mark the tag at offset `tag` as the last one and write all buffers. -/
def submit (d tag : ℕ) : Commit :=
  let c := { c.setBuffer d (setBeDwordAt (c.buffer d) (tag + 4)
      (tagFlags (c.buffer d) tag ||| journFlagLastTag)) with
    stores := c.stores ++ [(tag + 4, 4)] }
  { c with log := fun n => if n ∈ c.buffers then c.buffer n else c.log n }

/-- Copy `curr` into the log and add a tag for it to the descriptor block. -/
def addTag (d : ℕ) (curr : Metadata) : Commit :=
  let (blockNo, c) := journalWriteMetadataBuffer j c curr
  let flags := if c.firstTag then 0 else journFlagSameUuid
  let c := putUuid j (putTag c d curr.blockNum flags) d
  { c with buffers := c.buffers ++ [blockNo] }

/-- An iteration of `JournalCommitMetadata`.  The list has been taken off up to
`curr`, and `rest` is what is left of it.  So `curr2` is the first of `rest`,
whose successor is the list if there is no second, or the list itself, which
is empty and its own successor. -/
def commitBuffer (curr : Metadata) (rest : List Metadata) : Commit :=
  let (d, c) := openDescriptor j c
  let tag := c.tagPointer
  let c := addTag j c d curr
  if c.buffers.length = 64 ∨ rest.length ≤ 1 ∨ c.spaceLeft < sizeofTag + 16 then submit c d tag
  else c

def journalCommitMetadata : List Metadata → Commit → Commit
  | [], c => c
  | curr :: rest, c => journalCommitMetadata rest (commitBuffer j c curr rest)

/-- The headers of a commit block, one every 512 bytes. -/
def commitRecord (data : Block) : Block :=
  (range ((j.sectorSize + 511) / 512)).foldl
    (fun data i => setHeaderAt data (512 * i) (commitHeader j)) data

def journalWriteCommitRecord : Commit :=
  let (n, c) := journalGetDescriptorBuffer j c
  let c := c.setBuffer n (commitRecord j (c.buffer n))
  { c with log := update c.log n (c.buffer n) }

end

/-- A commit of the buffers in `metaDataList`, with the head of the log at
block `head`. -/
def journalCommit (head : ℕ) (log : ℕ → Block) (metaDataList : List Metadata) : Commit :=
  journalWriteCommitRecord j (journalCommitMetadata j metaDataList (Commit.start head log))

/-! ## The descriptor block -/

def tagOffset (i : ℕ) : ℕ :=
  if i = 0 then sizeofHeader else sizeofHeader + 16 + sizeofTag * i

theorem tagOffset_add_le {i k : ℕ} (h : i < k) : tagOffset i + sizeofTag ≤ tagOffset k := by
  simp only [tagOffset, sizeofHeader, sizeofTag]
  split <;> split <;> omega

theorem sizeofHeader_le_tagOffset (k : ℕ) : sizeofHeader ≤ tagOffset k := by
  simp only [tagOffset]
  split <;> omega

def SameBefore (p : ℕ) (data data' : Block) : Prop :=
  ∀ q, q + 4 ≤ p → beDwordAt data' q = beDwordAt data q

theorem SameBefore.headerAt {p : ℕ} {data data' : Block} (h : SameBefore p data data')
    (hp : sizeofHeader ≤ p) : headerAt data' 0 = headerAt data 0 := by
  rw [sizeofHeader] at hp
  rw [Jfs.headerAt, Jfs.headerAt, h 0 (by omega), h (0 + 4) (by omega), h (0 + 8) (by omega)]

/-- After `k` buffers of the list, the descriptor block `d` holds a tag for
each of them and the log blocks behind it hold the copies. -/
structure Tagged (l : List Metadata) (d k : ℕ) (c : Commit) : Prop where
  descriptor : c.descriptor = some d
  head : c.head = d + 1 + k
  firstTag : c.firstTag = decide (k = 0)
  tagPointer : c.tagPointer = tagOffset k
  length_buffers : c.buffers.length = k + 1
  mem_buffers : ∀ n, n ∈ c.buffers ↔ d ≤ n ∧ n ≤ d + k
  header : headerAt (c.buffer d) 0 = descHeader j
  blockNum : ∀ i < k, ∀ m ∈ l[i]?, beDwordAt (c.buffer d) (tagOffset i) = m.blockNum
  same : ∀ i < k, tagFlags (c.buffer d) (tagOffset i) &&& journFlagSameUuid = 0 ↔ i = 0
  copies : ∀ i < k, ∀ m ∈ l[i]?, c.buffer (d + 1 + i) = memcpy (fun _ => 0) m.data j.sectorSize
  stores : ∀ st ∈ c.stores, st.1 + st.2 ≤ tagOffset k

section Tagging

variable {j} {l : List Metadata} {d k : ℕ} {c : Commit}

def plainFlags (k : ℕ) : ℕ := if k = 0 then 0 else journFlagSameUuid

theorem plainFlags_lt (k : ℕ) : plainFlags k < 2 ^ 32 := by
  rw [plainFlags]
  split <;> decide

theorem plainFlags_same (k : ℕ) : plainFlags k &&& journFlagSameUuid = 0 ↔ k = 0 := by
  rw [plainFlags]
  split
  · next h => simp [h]
  · next h => simp [h, journFlagSameUuid]

theorem plainFlags_last (k : ℕ) : (plainFlags k ||| journFlagLastTag < 2 ^ 32) ∧
    ((plainFlags k ||| journFlagLastTag) &&& journFlagSameUuid = 0 ↔ k = 0) ∧
    (plainFlags k ||| journFlagLastTag) &&& journFlagLastTag ≠ 0 := by
  rw [plainFlags]
  split
  · next h => simp [h, journFlagSameUuid, journFlagLastTag]
  · next h => simp [h, journFlagSameUuid, journFlagLastTag]

variable (j) in
def taggedData (data : Block) (k blockNum : ℕ) : Block :=
  let data := setBeDwordAt (setBeDwordAt data (tagOffset k) blockNum)
    (tagOffset k + 4) (plainFlags k)
  if k = 0 then overwrite data (tagOffset k + sizeofTag) j.uuid.toList
  else data

theorem taggedData_sameBefore (data : Block) (k blockNum : ℕ) :
    SameBefore (tagOffset k) data (taggedData j data k blockNum) := by
  intro q hq
  have htag : beDwordAt (setBeDwordAt (setBeDwordAt data (tagOffset k)
      blockNum) (tagOffset k + 4) (plainFlags k)) q = beDwordAt data q := by
    rw [beDwordAt_setBeDwordAt_of_apart (by omega), beDwordAt_setBeDwordAt_of_apart (by omega)]
  rw [taggedData]
  split
  · rw [beDwordAt_overwrite_of_apart (by omega), htag]
  · exact htag

theorem taggedData_blockNum (data : Block) {k blockNum : ℕ} (hblock : blockNum < 2 ^ 32) :
    beDwordAt (taggedData j data k blockNum) (tagOffset k) = blockNum := by
  have htag : beDwordAt (setBeDwordAt (setBeDwordAt data (tagOffset k)
      blockNum) (tagOffset k + 4) (plainFlags k)) (tagOffset k) =
        blockNum := by
    rw [beDwordAt_setBeDwordAt_of_apart (by omega), beDwordAt_setBeDwordAt hblock]
  rw [taggedData]
  split
  · rw [beDwordAt_overwrite_of_apart (by rw [sizeofTag]; omega), htag]
  · exact htag

theorem taggedData_flags (data : Block) (k blockNum : ℕ) :
    tagFlags (taggedData j data k blockNum) (tagOffset k) = plainFlags k := by
  rw [tagFlags, taggedData]
  split
  · rw [beDwordAt_overwrite_of_apart (by rw [sizeofTag]; omega),
      beDwordAt_setBeDwordAt (plainFlags_lt k)]
  · exact beDwordAt_setBeDwordAt (plainFlags_lt k)

section

variable (h : Tagged j l d k c)
include h

theorem Tagged.addTag_buffer (curr : Metadata) :
    (addTag j c d curr).buffer = update (update c.buffer (d + 1 + k)
        (memcpy (fun _ => 0) curr.data j.sectorSize))
      d (taggedData j (c.buffer d) k curr.blockNum) := by
  have hne : d ≠ d + 1 + k := by omega
  by_cases hk : k = 0
  · have hfirst : c.firstTag = true := by simp [h.firstTag, hk]
    simp only [addTag, journalWriteMetadataBuffer, putTag, putUuid, hfirst, Commit.setBuffer,
      h.head, h.tagPointer, if_true, update_self, update_idem, update_of_ne hne, taggedData,
      plainFlags, if_pos hk]
  · have hfirst : c.firstTag = false := by simp [h.firstTag, hk]
    simp only [addTag, journalWriteMetadataBuffer, putTag, putUuid, hfirst,
      Commit.setBuffer, h.head, h.tagPointer, Bool.false_eq_true, if_false,
      update_of_ne hne, taggedData, plainFlags, if_neg hk]

theorem Tagged.addTag_fields (curr : Metadata) :
    let c' := addTag j c d curr
    c'.descriptor = some d ∧ c'.head = d + 1 + (k + 1) ∧
      c'.firstTag = false ∧ c'.tagPointer = tagOffset (k + 1) ∧
      c'.buffers = c.buffers ++ [d + 1 + k] ∧
      ∀ st ∈ c'.stores, st.1 + st.2 ≤ tagOffset (k + 1) := by
  have hstores : ∀ st ∈ c.stores, st.1 + st.2 ≤ tagOffset (k + 1) := by
    intro st hst
    have hle := tagOffset_add_le (lt_succ_self k)
    exact (h.stores st hst).trans ((le_add_right _ _).trans hle)
  by_cases hk : k = 0
  · have hfirst : c.firstTag = true := by simp [h.firstTag, hk]
    simp only [addTag, journalWriteMetadataBuffer, putTag, putUuid, hfirst, Commit.setBuffer,
      h.head, h.tagPointer, if_true, h.descriptor, mem_append, mem_singleton]
    refine ⟨trivial, by omega, trivial, by subst hk; rfl, trivial, ?_⟩
    rintro st ((hst | rfl) | rfl)
    · exact hstores st hst
    · subst hk
      decide
    · subst hk
      decide
  · have hfirst : c.firstTag = false := by simp [h.firstTag, hk]
    simp only [addTag, journalWriteMetadataBuffer, putTag, putUuid, hfirst, Commit.setBuffer,
      h.head, h.tagPointer, Bool.false_eq_true, if_false, h.descriptor, mem_append, mem_singleton]
    refine ⟨trivial, by omega, trivial, ?_, trivial, ?_⟩
    · simp only [tagOffset, hk, if_false, succ_ne_zero, sizeofTag]
      omega
    · rintro st (hst | rfl)
      · exact hstores st hst
      · exact tagOffset_add_le (lt_succ_self k)

theorem Tagged.addTag_flags (curr : Metadata) :
    (∀ i < k, tagFlags ((addTag j c d curr).buffer d) (tagOffset i) =
      tagFlags (c.buffer d) (tagOffset i)) ∧
    tagFlags ((addTag j c d curr).buffer d) (tagOffset k) = plainFlags k := by
  rw [h.addTag_buffer, update_self]
  constructor
  · intro i hi
    have hle := tagOffset_add_le hi
    rw [sizeofTag] at hle
    exact taggedData_sameBefore _ _ _ _ (by omega)
  · exact taggedData_flags _ _ _

theorem Tagged.addTag {curr : Metadata} (hcurr : l[k]? = some curr)
    (hblock : curr.blockNum < 2 ^ 32) : Tagged j l d (k + 1) (addTag j c d curr) := by
  obtain ⟨hdescriptor, hhead, hfirst, hpointer, hbuffers, hstores⟩ :=
    h.addTag_fields curr
  have hdata : (Jfs.addTag j c d curr).buffer d = taggedData j (c.buffer d) k curr.blockNum := by
    rw [h.addTag_buffer, update_self]
  have hbefore := taggedData_sameBefore (j := j) (c.buffer d) k curr.blockNum
  obtain ⟨hold, hnew⟩ := h.addTag_flags curr
  constructor
  · exact hdescriptor
  · exact hhead
  · rw [hfirst]
    simp
  · exact hpointer
  · rw [hbuffers, length_append, h.length_buffers]
    rfl
  · intro n
    rw [hbuffers, mem_append, h.mem_buffers, mem_singleton]
    omega
  · rw [hdata, hbefore.headerAt (sizeofHeader_le_tagOffset k)]
    exact h.header
  · intro i hi m hm
    rw [hdata]
    rcases Nat.lt_succ_iff_lt_or_eq.mp hi with hi | rfl
    · have hle := tagOffset_add_le hi
      rw [sizeofTag] at hle
      exact (hbefore _ (by omega)).trans (h.blockNum i hi m hm)
    · rw [Option.mem_def, hcurr] at hm
      cases hm
      exact taggedData_blockNum _ hblock
  · intro i hi
    rcases Nat.lt_succ_iff_lt_or_eq.mp hi with hi | rfl
    · rw [hold i hi]
      exact h.same i hi
    · rw [hnew]
      exact plainFlags_same i
  · intro i hi m hm
    rw [h.addTag_buffer, update_of_ne (by omega)]
    rcases Nat.lt_succ_iff_lt_or_eq.mp hi with hi | rfl
    · rw [update_of_ne (by omega)]
      exact h.copies i hi m hm
    · rw [Option.mem_def, hcurr] at hm
      cases hm
      rw [update_self]
  · exact hstores

end

/-- The tags that recovery takes for the last one are marked, and the buffers
have been written since the list was found to end. -/
structure Marked (l : List Metadata) (d k : ℕ) (c : Commit) : Prop where
  last : ∀ i < k, l.length ≤ i + 2 → tagFlags (c.buffer d) (tagOffset i) &&& journFlagLastTag ≠ 0
  written : 0 < k → l.length ≤ k + 1 → ∀ n ∈ c.buffers, c.log n = c.buffer n

theorem Tagged.submit (h : Tagged j l d (k + 1) c)
    (hflags : tagFlags (c.buffer d) (tagOffset k) = plainFlags k) :
    Tagged j l d (k + 1) (submit c d (tagOffset k)) ∧
      (∀ i < k, tagFlags ((submit c d (tagOffset k)).buffer d) (tagOffset i) =
        tagFlags (c.buffer d) (tagOffset i)) ∧
      tagFlags ((submit c d (tagOffset k)).buffer d) (tagOffset k) &&& journFlagLastTag ≠ 0 ∧
      ∀ n ∈ (submit c d (tagOffset k)).buffers, (submit c d (tagOffset k)).log n =
          (submit c d (tagOffset k)).buffer n := by
  obtain ⟨hlt, hsame, hlast⟩ := plainFlags_last k
  have hdata : (Jfs.submit c d (tagOffset k)).buffer d = setBeDwordAt (c.buffer d) (tagOffset k + 4)
        (plainFlags k ||| journFlagLastTag) := by
    simp only [Jfs.submit, Commit.setBuffer, update_self, hflags]
  have hbefore : SameBefore (tagOffset k + 4) (c.buffer d)
      ((Jfs.submit c d (tagOffset k)).buffer d) := by
    intro q hq
    rw [hdata, beDwordAt_setBeDwordAt_of_apart (.inl hq)]
  have hother : ∀ n, n ≠ d → (Jfs.submit c d (tagOffset k)).buffer n = c.buffer n := by
    intro n hn
    exact update_of_ne hn _ _
  have hold : ∀ i < k, tagFlags ((Jfs.submit c d (tagOffset k)).buffer d)
      (tagOffset i) = tagFlags (c.buffer d) (tagOffset i) := by
    intro i hi
    have hle := tagOffset_add_le hi
    rw [sizeofTag] at hle
    exact hbefore _ (by omega)
  have hnew : tagFlags ((Jfs.submit c d (tagOffset k)).buffer d)
      (tagOffset k) = plainFlags k ||| journFlagLastTag := by
    rw [hdata]
    exact beDwordAt_setBeDwordAt hlt
  refine ⟨?_, hold, ?_, ?_⟩
  · refine { h with header := ?_, blockNum := ?_, same := ?_, copies := ?_, stores := ?_ }
    · have hle := sizeofHeader_le_tagOffset k
      rw [hbefore.headerAt (by omega)]
      exact h.header
    · intro i hi m hm
      refine (hbefore _ ?_).trans (h.blockNum i hi m hm)
      rcases Nat.lt_succ_iff_lt_or_eq.mp hi with hi | rfl
      · have hle := tagOffset_add_le hi
        omega
      · exact le_rfl
    · intro i hi
      rcases Nat.lt_succ_iff_lt_or_eq.mp hi with hi | rfl
      · rw [hold i hi]
        exact h.same i (by omega)
      · rw [hnew]
        exact hsame
    · intro i hi m hm
      rw [hother _ (by omega)]
      exact h.copies i hi m hm
    · exact forall_mem_append.mpr
        ⟨h.stores, forall_mem_singleton.mpr (tagOffset_add_le (lt_succ_self k))⟩
  · rw [hnew]
    exact hlast
  · intro n hn
    exact if_pos hn

theorem Tagged.commitBuffer {c₀ : Commit} {curr : Metadata} (hopen : openDescriptor j c₀ = (d, c))
    (h : Tagged j l d k c) (hm : Marked l d k c)
    (hcurr : l[k]? = some curr) (hblock : curr.blockNum < 2 ^ 32) :
    let c' := commitBuffer j c₀ curr (l.drop (k + 1))
    Tagged j l d (k + 1) c' ∧ Marked l d (k + 1) c' := by
  have hadd := h.addTag hcurr hblock
  obtain ⟨hold, hnew⟩ := h.addTag_flags curr
  obtain ⟨hsub, hsubOld, hsubNew, hwritten⟩ := hadd.submit hnew
  simp only [Jfs.commitBuffer, hopen, h.tagPointer]
  split
  · refine ⟨hsub, ?_, fun _ _ => hwritten⟩
    intro i hi hlen
    rcases Nat.lt_succ_iff_lt_or_eq.mp hi with hi | rfl
    · rw [hsubOld i hi, hold i hi]
      exact hm.last i hi hlen
    · exact hsubNew
  · next hgo =>
    -- The list goes on, so none of its last two tags has been reached.
    have hrest : ¬ (l.drop (k + 1)).length ≤ 1 := fun hle =>
      hgo (.inr (.inl hle))
    rw [length_drop] at hrest
    refine ⟨hadd, ?_, ?_⟩
    · intro i hi hlen
      omega
    · intro _ hlen
      omega

theorem Tagged.journalCommitMetadata (hblocks : ∀ m ∈ l, m.blockNum < 2 ^ 32)
    (rest : List Metadata) (k : ℕ) (c₀ c : Commit) (hopen : openDescriptor j c₀ = (d, c))
    (h : Tagged j l d k c) (hm : Marked l d k c) (hdrop : l.drop k = rest) (hne : rest ≠ []) :
      Tagged j l d l.length (journalCommitMetadata j rest c₀) ∧
        Marked l d l.length (journalCommitMetadata j rest c₀) := by
  induction rest generalizing k c₀ c with
  | nil => exact absurd rfl hne
  | cons curr rest ih =>
    have hk : k < l.length := by
      by_contra hge
      rw [drop_eq_nil_of_le (not_lt.mp hge)] at hdrop
      cases hdrop
    have hcurr : l[k]? = some curr := by
      rw [← head?_drop, hdrop]
      rfl
    have hrest : l.drop (k + 1) = rest := by
      rw [← tail_drop, hdrop]
      rfl
    have hblock := hblocks curr (mem_of_getElem? hcurr)
    obtain ⟨hnext, hmnext⟩ := h.commitBuffer hopen hm hcurr hblock
    rw [hrest] at hnext hmnext
    rw [Jfs.journalCommitMetadata]
    by_cases hnil : rest = []
    · have hlen : l.length = k + 1 := by
        have := congrArg length hrest
        rw [length_drop, hnil, length_nil] at this
        omega
      rw [hnil] at hnext hmnext ⊢
      rw [hlen]
      exact ⟨hnext, hmnext⟩
    · apply ih (k + 1) _ _ ?_ hnext hmnext hrest hnil
      simp only [openDescriptor, hnext.descriptor]

theorem openDescriptor_start (head : ℕ) (log : ℕ → Block) :
    ∃ c, openDescriptor j (Commit.start head log) = (head, c) ∧
      Tagged j l head 0 c ∧ Marked l head 0 c := by
  refine ⟨_, rfl, ⟨rfl, rfl, rfl, rfl, rfl, ?_, ?_, ?_, ?_, ?_, ?_⟩, ?_, ?_⟩
  · intro n
    simp only [Commit.start, nil_append, mem_singleton]
    omega
  · simp only [Commit.setBuffer, Commit.start, update_self]
    exact headerAt_setHeaderAt (descHeader_fits j)
  · exact nofun
  · exact nofun
  · exact nofun
  · exact forall_mem_singleton.mpr (by decide)
  · exact nofun
  · intro hk
    exact absurd hk (lt_irrefl 0)

end Tagging

/-! ## The log after a commit -/

/-- The log holds the transaction from block `head` on: a descriptor block,
the copies of the buffers and a commit block.  Only what recovery goes by is
said about the marks of the tags: the last two tags are marked. -/
structure Logged (l : List Metadata) (head : ℕ) (log : ℕ → Block) : Prop where
  descriptor : headerAt (log head) 0 = descHeader j
  blockNum : ∀ i m, l[i]? = some m → beDwordAt (log head) (tagOffset i) = m.blockNum
  same : ∀ i < l.length, tagFlags (log head) (tagOffset i) &&& journFlagSameUuid = 0 ↔ i = 0
  last : ∀ i < l.length, l.length ≤ i + 2 →
    tagFlags (log head) (tagOffset i) &&& journFlagLastTag ≠ 0
  copies : ∀ i m, l[i]? = some m → log (head + 1 + i) = memcpy (fun _ => 0) m.data j.sectorSize
  commit : headerAt (log (head + 1 + l.length)) 0 = commitHeader j

theorem headerAt_commitRecord (data : Block) :
    headerAt (commitRecord j data) 0 = commitHeader j := by
  have hsize := j.sectorSize_ge
  obtain ⟨n, hn⟩ : ∃ n, (j.sectorSize + 511) / 512 = n + 1 :=
    ⟨(j.sectorSize + 511) / 512 - 1, by omega⟩
  have hkeep : ∀ (is : List ℕ), (∀ i ∈ is, i ≠ 0) → ∀ data' : Block,
      headerAt (is.foldl (fun data i =>
        setHeaderAt data (512 * i) (commitHeader j)) data') 0 =
      headerAt data' 0 := by
    intro is
    induction is with
    | nil => exact fun _ _ => rfl
    | cons i is ih =>
      intro hne data'
      rw [foldl_cons, ih (forall_mem_cons.mp hne).2]
      have hi := hne i mem_cons_self
      apply headerAt_congr
      intro q hq
      rw [sizeofHeader] at hq
      rw [setHeaderAt, setBeDwordAt, setBeDwordAt, setBeDwordAt, overwrite_of_lt (by omega),
        overwrite_of_lt (by omega), overwrite_of_lt (by omega)]
  rw [commitRecord, hn, range_succ_eq_map, foldl_cons, hkeep]
  · exact headerAt_setHeaderAt (commitHeader_fits j)
  · intro i hi
    obtain ⟨i', -, rfl⟩ := mem_map.mp hi
    exact succ_ne_zero i'

/-- A commit logs the transaction.  It stores as many bytes in the descriptor
block and as many entries of `buffers` as there are buffers. -/
theorem journalCommit_logged {l : List Metadata} (head : ℕ) (log : ℕ → Block)
    (hne : l ≠ []) (hblocks : ∀ m ∈ l, m.blockNum < 2 ^ 32) :
    let c := journalCommit j head log l
    Logged j l head c.log ∧ c.buffers.length = l.length + 1 ∧
      ∀ st ∈ c.stores, st.1 + st.2 ≤ tagOffset l.length := by
  obtain ⟨c₁, hopen, htagged, hmarked⟩ :=
    openDescriptor_start (j := j) (l := l) head log
  obtain ⟨ht, hm⟩ := Tagged.journalCommitMetadata hblocks l 0 _ _ hopen htagged hmarked rfl hne
  have hpos : 0 < l.length := length_pos_iff.mpr hne
  have hwritten := hm.written hpos (le_succ _)
  have hlog : ∀ n, head ≤ n → n ≤ head + l.length → (journalCommit j head log l).log n =
        (journalCommitMetadata j l (Commit.start head log)).buffer n := by
    intro n hge hle
    simp only [journalCommit, journalWriteCommitRecord,
      journalGetDescriptorBuffer, Commit.setBuffer, ht.head]
    rw [update_of_ne (by omega)]
    exact hwritten n ((ht.mem_buffers n).mpr ⟨hge, hle⟩)
  have hlogHead := hlog head le_rfl (le_add_right _ _)
  refine ⟨⟨?_, ?_, ?_, ?_, ?_, ?_⟩, ht.length_buffers, ht.stores⟩
  · rw [hlogHead]
    exact ht.header
  · intro i m hi
    rw [hlogHead]
    exact ht.blockNum i (List.getElem?_eq_some_iff.mp hi).1 m hi
  · rw [hlogHead]
    exact ht.same
  · rw [hlogHead]
    exact hm.last
  · intro i m hi
    have hlt : i < l.length := (List.getElem?_eq_some_iff.mp hi).1
    rw [hlog _ (by omega) (by omega)]
    exact ht.copies i hlt m hi
  · simp only [journalCommit, journalWriteCommitRecord, journalGetDescriptorBuffer,
      Commit.setBuffer, ht.head, update_self]
    exact headerAt_commitRecord j _

end Whitix.Jfs
