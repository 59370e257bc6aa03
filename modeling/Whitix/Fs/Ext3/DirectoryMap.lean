import Mathlib.Data.List.TakeWhile
import Whitix.Fs.Ext3.Directory

/-!
# Directories in ext3 are finite maps

The records of a directory are a partial map from places to inode numbers and
names.  Adding and removing a name change this map at one place.  What
`Ext3FindEntry` finds depends on the map only, as long as no two places have the
same name.
-/

namespace Whitix.Ext3

open Support Function List Option Prod Nat

variable {data data' : ℕ → UInt8} {dir dir' : Dir} {name : List UInt8}

/-! ## Records -/

theorem le_dirRecLen (n : ℕ) : n + 8 ≤ dirRecLen n := by
  unfold dirRecLen
  omega

theorem four_dvd_dirRecLen (n : ℕ) : 4 ∣ dirRecLen n :=
  Dvd.intro_left _ rfl

theorem dirRecLen_lt {n : ℕ} (h : n < 256) : dirRecLen n < 2 ^ 16 := by
  unfold dirRecLen
  omega

variable {k b fuel o e a b' : ℕ} {value : Option (ℕ × List UInt8)} {vNode : VNode} {other : Name}

theorem strncmpZero_iff (h : 0 ∉ name) :
    strncmpZero data k name = true ↔ extract data k name.length = name := by
  induction name generalizing k with
  | nil => exact iff_of_true rfl rfl
  | cons c name ih =>
    obtain ⟨hc, hname⟩ := not_or.mp (mt mem_cons.mpr h)
    rw [strncmpZero, if_neg (Ne.symm hc : ¬ c = 0), length_cons,
      extract_succ, cons.injEq, ← ih hname]
    split
    · next hne => exact iff_of_false Bool.false_ne_true fun hand => hne hand.1
    · next heq =>
      exact ⟨fun htail => ⟨not_not.mp heq, htail⟩, And.right⟩

section

variable {ino size : ℕ}

theorem nameMatches_iff (name : Name) :
    nameMatches data o name.bytes = true ↔ recName data o = name.bytes := by
  unfold nameMatches recName
  rw [Bool.and_eq_true, decide_eq_true_iff, strncmpZero_iff name.no_nul]
  constructor
  · rintro ⟨hlen, hname⟩
    rw [hlen]
    exact hname
  · intro hname
    have hlen := congrArg length hname
    rw [length_extract] at hlen
    rw [← hlen]
    exact ⟨rfl, hname⟩

theorem record_congr (hino : ∀ k, o ≤ k → k < o + 4 → data' k = data k)
    (hname : ∀ k, o + 6 ≤ k → k < o + 8 + nameLen data o → data' k = data k) :
    iNodeNum data' o = iNodeNum data o ∧ nameLen data' o = nameLen data o ∧
      recName data' o = recName data o := by
  have hlen : nameLen data' o = nameLen data o :=
    congrArg UInt8.toNat (hname (o + 6) le_rfl (by omega))
  refine ⟨dwordAt_congr fun k hk => hino _ (by omega) (by omega), hlen, ?_⟩
  unfold recName
  rw [hlen]
  exact extract_congr fun i hi => hname _ (by omega) (by omega)

/-! ## Looking up a name -/

theorem findInBlock_spec {name : Name} {off : ℕ} {os : List ℕ}
    (hblock : (b + 1) * dir.blockSize ≤ dir.size) (h : Tiles (recLen data) off os dir.blockSize)
    (hfuel : dir.blockSize - off < fuel) :
    (∃ o ∈ os, recName data o = name.bytes ∧
      findInBlock dir name.bytes data fuel (b * dir.blockSize + off) off =
        some (true, b * dir.blockSize + o)) ∨
    ((∀ o ∈ os, recName data o ≠ name.bytes) ∧
      findInBlock dir name.bytes data fuel (b * dir.blockSize + off) off =
        some (false, (b + 1) * dir.blockSize)) := by
  rw [succ_mul] at hblock ⊢
  generalize hstop : dir.blockSize = stop at h hblock hfuel ⊢
  induction fuel generalizing off os with
  | zero => exact absurd hfuel (not_lt_zero _)
  | succ fuel ih =>
    rw [findInBlock, hstop]
    cases h with
    | nil => exact .inr ⟨nofun, if_neg fun hin => lt_irrefl _ hin.2⟩
    | cons hpos htail =>
      have hle := htail.le
      have hin : b * stop + off < dir.size ∧ off < stop := by omega
      have hmod : (b * stop + off) % stop = off := by
        rw [mul_comm, mul_add_mod, mod_eq_of_lt hin.2]
      rw [if_pos hin, hmod]
      by_cases hname : recName data off = name.bytes
      · left
        refine ⟨off, mem_cons_self, hname, ?_⟩
        rw [if_pos ((nameMatches_iff name).mpr hname)]
      · rw [if_neg (mt (nameMatches_iff name).mp hname), add_assoc]
        rcases ih htail (by omega) with ⟨o, ho, hfound, heq⟩ | ⟨hnone, heq⟩
        · exact .inl ⟨o, mem_cons_of_mem _ ho, hfound, heq⟩
        · exact .inr ⟨forall_mem_cons.mpr ⟨hname, hnone⟩, heq⟩

theorem findInBlocks_spec {name : Name} (h : Tiled dir)
    (hb : b ≤ dir.count) (hfuel : dir.count - b < fuel) :
    (∃ b' < dir.count, ∃ o ∈ dir.records b', recName (dir.data b') o = name.bytes ∧
      findInBlocks dir name.bytes fuel (b * dir.blockSize) = some (.ok (b' * dir.blockSize + o))) ∨
    ((∀ b' < dir.count, b ≤ b' → ∀ o ∈ dir.records b', recName (dir.data b') o ≠ name.bytes) ∧
      findInBlocks dir name.bytes fuel (b * dir.blockSize) = some (.error (-ENOENT))) := by
  have hsize : dir.size = dir.count * dir.blockSize :=
    (Nat.div_mul_cancel h.blockSize_dvd).symm
  induction fuel generalizing b with
  | zero => exact absurd hfuel (not_lt_zero _)
  | succ fuel ih =>
    rcases eq_or_lt_of_le hb with rfl | hlt
    · refine .inr ⟨fun b' hlt hle => absurd hlt hle.not_gt, ?_⟩
      rw [findInBlocks, if_neg (by rw [hsize]; exact lt_irrefl _)]
    have hblock : (b + 1) * dir.blockSize ≤ dir.size := by
      rw [hsize]
      exact mul_le_mul_right _ hlt
    have hin : b * dir.blockSize < dir.size := by
      rw [succ_mul] at hblock
      exact lt_of_lt_of_le (Nat.lt_add_of_pos_right h.blockSize_pos) hblock
    have hle : dir.blockSize ≤ dir.size :=
      le_trans (Nat.le_mul_of_pos_left _ (Nat.succ_pos _)) hblock
    rw [findInBlocks, if_pos hin, Nat.mul_div_cancel _ h.blockSize_pos, Nat.mul_mod_left]
    have hspec := @findInBlock_spec (dir.data b) dir b (dir.size + 1) name 0 _
      hblock (h.tiles b hlt) (by omega)
    have hstart : b * dir.blockSize + 0 = b * dir.blockSize := add_zero _
    rw [hstart] at hspec
    rcases hspec with ⟨o, ho, hname, heq⟩ | ⟨hnone, heq⟩
    · left
      rw [heq]
      exact ⟨b, hlt, o, ho, hname, rfl⟩
    · rw [heq]
      rcases ih (succ_le_of_lt hlt) (by omega) with hfound | ⟨hrest, herr⟩
      · exact .inl hfound
      · right
        refine ⟨fun b' hlt' hle' o ho => ?_, herr⟩
        rcases eq_or_lt_of_le hle' with rfl | hlater
        · exact hnone o ho
        · exact hrest b' hlt' hlater o ho

theorem ext3FindEntry_spec (h : Tiled dir) (name : Name) :
    (∃ b < dir.count, ∃ o ∈ dir.records b, recName (dir.data b) o = name.bytes ∧
      ext3FindEntry dir name.bytes = some (.ok (b * dir.blockSize + o))) ∨
    ((∀ b < dir.count, ∀ o ∈ dir.records b, recName (dir.data b) o ≠ name.bytes) ∧
      ext3FindEntry dir name.bytes = some (.error (-ENOENT))) := by
  have hcount : dir.count ≤ dir.size := div_le_self _ _
  have hspec := @findInBlocks_spec dir 0 (dir.size + 1) name h (zero_le _) (by omega)
  rw [zero_mul] at hspec
  rcases hspec with hfound | ⟨hnone, herr⟩
  · exact .inl hfound
  · exact .inr ⟨fun b hb => hnone b hb (zero_le b), herr⟩

/-! ## The map -/

/-- The inode number and the name of the record at a place, if there is one. -/
def Dir.entry (dir : Dir) (b o : ℕ) : Option (ℕ × List UInt8) :=
  if b < dir.count ∧ o ∈ dir.records b then
    some (iNodeNum (dir.data b) o, recName (dir.data b) o)
  else none

theorem entry_eq_some :
    dir.entry b o = some (ino, name) ↔
      b < dir.count ∧ o ∈ dir.records b ∧ iNodeNum (dir.data b) o = ino ∧
        recName (dir.data b) o = name := by
  unfold Dir.entry
  split
  · next hin =>
    rw [some.injEq, mk.injEq]
    exact ⟨fun h => ⟨hin.1, hin.2, h⟩, fun h => h.2.2⟩
  · next hout =>
    exact iff_of_false nofun fun h => hout ⟨h.1, h.2.1⟩

/-- The directory is tiled, no two places have the same name, and an unused
record has no name. -/
structure Mapped (dir : Dir) : Prop where
  tiled : Tiled dir
  unique : ∀ (name : Name) (b o b' o' ino ino' : ℕ), dir.entry b o = some (ino, name.bytes) →
    dir.entry b' o' = some (ino', name.bytes) → b = b' ∧ o = o'
  named : ∀ b o name, dir.entry b o = some (0, name) → name = []

theorem ino_ne_zero {name : Name} (hnamed : ∀ b o name, dir.entry b o = some (0, name) → name = [])
    (h : dir.entry b o = some (ino, name.bytes)) : ino ≠ 0 := by
  rintro rfl
  exact name.ne_nil (hnamed b o _ h)

theorem recName_eq_nil (h : nameLen data o = 0) : recName data o = [] := by
  unfold recName
  rw [h]
  rfl

theorem Mapped.of_uniqueNames (h : Tiled dir) (hunique : UniqueNames dir)
    (hstale : NoStaleNames dir) : Mapped dir := by
  have hnamed : ∀ b o name, dir.entry b o = some (0, name) → name = [] := by
    intro b o name hentry
    obtain ⟨hb, ho, hino, rfl⟩ := entry_eq_some.mp hentry
    exact recName_eq_nil (hstale b hb o ho hino)
  refine ⟨h, ?_, hnamed⟩
  intro name b o b' o' ino ino' hentry hentry'
  have hlive := ino_ne_zero hnamed hentry
  have hlive' := ino_ne_zero hnamed hentry'
  obtain ⟨hb, ho, rfl, hname⟩ := entry_eq_some.mp hentry
  obtain ⟨hb', ho', rfl, hname'⟩ := entry_eq_some.mp hentry'
  exact hunique name b hb b' hb' o o' ⟨ho, hlive, hname⟩ ⟨ho', hlive', hname'⟩

theorem record_lt (h : Tiled dir) (hb : b < dir.count)
    (ho : o ∈ dir.records b) : o < dir.blockSize := by
  have hpos := (h.tiles b hb).len_pos ho
  have hend := ((h.tiles b hb).bounds ho).2
  omega

theorem place_div (h : o < size) : (b * size + o) / size = b := by
  rw [mul_comm, mul_add_div (by omega), div_eq_of_lt h, add_zero]

theorem place_mod (h : o < size) : (b * size + o) % size = o := by
  rw [mul_comm, mul_add_mod, mod_eq_of_lt h]

theorem Mapped.lookup_found {name : Name} (h : Mapped dir)
    (hentry : dir.entry b o = some (ino, name.bytes)) :
    lookup dir name = some (.ok (b * dir.blockSize + o, ino)) := by
  obtain ⟨hb, ho, hino, hname⟩ := entry_eq_some.mp hentry
  rcases ext3FindEntry_spec h.tiled name with
    ⟨b', hb', o', ho', hname', hfind⟩ | ⟨hnone, -⟩
  · have hentry' := entry_eq_some.mpr ⟨hb', ho', rfl, hname'⟩
    obtain ⟨rfl, rfl⟩ := h.unique _ _ _ _ _ _ _ hentry hentry'
    have hlt := record_lt h.tiled hb ho
    unfold lookup
    rw [hfind]
    simp only [map_some, Except.map, place_div hlt, place_mod hlt, hino]
  · exact absurd hname (hnone b hb o ho)

end

theorem Mapped.lookup_missing {name : Name} (h : Mapped dir)
    (hentry : ∀ b o ino, dir.entry b o ≠ some (ino, name.bytes)) :
    lookup dir name = some (.error (-ENOENT)) := by
  rcases ext3FindEntry_spec h.tiled name with
    ⟨b, hb, o, ho, hname, -⟩ | ⟨-, hfind⟩
  · exact absurd (entry_eq_some.mpr ⟨hb, ho, rfl, hname⟩) (hentry b o _)
  · unfold lookup
    rw [hfind]
    rfl

theorem Mapped.lookup_congr {name : Name} (h : Mapped dir) (h' : Mapped dir')
    (hsize : dir'.blockSize = dir.blockSize)
    (hentry : ∀ b o ino, dir'.entry b o = some (ino, name.bytes) ↔
      dir.entry b o = some (ino, name.bytes)) :
    lookup dir' name = lookup dir name := by
  by_cases hany : ∃ b o ino, dir.entry b o = some (ino, name.bytes)
  · obtain ⟨b, o, ino, hsome⟩ := hany
    rw [h.lookup_found hsome, h'.lookup_found ((hentry b o ino).mpr hsome), hsize]
  · have hnone : ∀ b o ino, dir.entry b o ≠ some (ino, name.bytes) :=
      fun b o ino hsome => hany ⟨b, o, ino, hsome⟩
    rw [h.lookup_missing hnone, h'.lookup_missing fun b o ino hsome =>
      hnone b o ino ((hentry b o ino).mp hsome)]

/-! ## Writing a record -/

section Fill

theorem fillEntry_header (h : k < e + 8) (hlen : k ≠ e + 6) (htype : k ≠ e + 7) :
    fillEntry data e name vNode k = setDwordAt data e vNode.id k := by
  unfold fillEntry setName setNameLen setFileType setINodeNum
  rw [overwrite_of_lt h, update_of_ne hlen]
  unfold setDwordAt setWordAt
  simp only [update_apply, if_neg htype]

theorem fillEntry_of_outside (h : k < e ∨ e + 4 ≤ k ∧ k < e + 6 ∨ e + 8 + name.length ≤ k) :
    fillEntry data e name vNode k = data k := by
  by_cases hheader : k < e + 8
  · rw [fillEntry_header hheader (by omega) (by omega)]
    exact setDwordAt_of_ne (by omega)
  · unfold fillEntry setName setNameLen setFileType setINodeNum
    rw [overwrite_of_le (by omega), update_of_ne (by omega), update_of_ne (by omega),
      setDwordAt_of_ne (by omega), update_of_ne (by omega)]

theorem iNodeNum_fillEntry : iNodeNum (fillEntry data e name vNode) e = vNode.id := by
  unfold iNodeNum
  rw [dwordAt_congr fun k hk =>
    fillEntry_header (by omega) (by omega) (by omega)]
  exact dwordAt_setDwordAt vNode.id_lt

theorem recLen_fillEntry : recLen (fillEntry data e name vNode) e = recLen data e :=
  wordAt_congr fun k hk => fillEntry_of_outside (by omega)

theorem nameLen_fillEntry (h : name.length < 256) :
    nameLen (fillEntry data e name vNode) e = name.length := by
  unfold nameLen fillEntry setName setNameLen
  rw [overwrite_of_lt (by omega), update_self]
  exact mod_eq_of_lt h

theorem recName_fillEntry (h : name.length < 256) :
    recName (fillEntry data e name vNode) e = name := by
  unfold recName
  rw [nameLen_fillEntry h]
  exact extract_overwrite _ _ _

end Fill

theorem splitEntry_of_outside (h : k ≠ e + 4 ∧ k ≠ e + 5)
    (hnext : k ≠ e + dirRecLen (nameLen data e) + 4 ∧ k ≠ e + dirRecLen (nameLen data e) + 5) :
    splitEntry data e k = data k := by
  unfold splitEntry setRecLen
  rw [setWordAt_of_ne h, setWordAt_of_ne hnext]

theorem nameLen_setRecLen {value : ℕ} (h : o + 6 ≠ e + 4 ∧ o + 6 ≠ e + 5) :
    nameLen (setRecLen data e value) o = nameLen data o :=
  congrArg UInt8.toNat (setWordAt_of_ne h)

/-! ## Changing a block -/

def Fits (data : ℕ → UInt8) (o : ℕ) : Prop :=
  dirRecLen (nameLen data o) ≤ recLen data o ∧ 4 ∣ recLen data o

structure BlockTiled (data : ℕ → UInt8) (size : ℕ) (os : List ℕ) : Prop where
  tiles : Tiles (recLen data) 0 os size
  fits : ∀ o ∈ os, Fits data o

def entryIn (data : ℕ → UInt8) (os : List ℕ) (o : ℕ) : Option (ℕ × List UInt8) :=
  if o ∈ os then some (iNodeNum data o, recName data o) else none

variable {size : ℕ} {os os' : List ℕ} {p q : ℕ}

theorem record_keep (h : Tiles (recLen data) 0 os size) (ho : o ∈ os)
    (houtside : ∀ k, k < o ∨ o + recLen data o ≤ k → data' k = data k)
    (hq : q ∈ os) (hfits : Fits data q) (hne : q ≠ o) :
    recLen data' q = recLen data q ∧ iNodeNum data' q = iNodeNum data q ∧
      nameLen data' q = nameLen data q ∧ recName data' q = recName data q := by
  have hapart := h.apart hq ho hne
  have hlong := le_dirRecLen (nameLen data q)
  have hle := hfits.1
  have hsame : ∀ k, q ≤ k → k < q + recLen data q → data' k = data k :=
    fun k hlow hhigh => houtside k (by omega)
  constructor
  · exact wordAt_congr fun k hk => hsame _ (by omega) (by omega)
  · exact record_congr (fun k hlow hhigh => hsame k hlow (by omega))
      fun k hlow hhigh => hsame k (by omega) (by omega)

theorem entryIn_eq_update (hmem : ∀ q, q ≠ p → (q ∈ os' ↔ q ∈ os))
    (hsame : ∀ q ∈ os, q ≠ p → iNodeNum data' q = iNodeNum data q ∧
      recName data' q = recName data q)
    (hvalue : entryIn data' os' p = value) :
    entryIn data' os' = update (entryIn data os) p value := by
  funext q
  by_cases hq : q = p
  · rw [hq, update_self, hvalue]
  · rw [update_of_ne hq]
    unfold entryIn
    by_cases hin : q ∈ os
    · obtain ⟨hino, hname⟩ := hsame q hin hq
      rw [if_pos hin, if_pos ((hmem q hq).mpr hin), hino, hname]
    · rw [if_neg hin, if_neg (mt (hmem q hq).mp hin)]

theorem blockTiled_fillEntry (h : Tiles (recLen data) 0 os size) (ho : o ∈ os)
    (hfits : ∀ q ∈ os, q ≠ o → Fits data q) (hdvd : 4 ∣ recLen data o)
    (hroom : dirRecLen name.length ≤ recLen data o) (hlen : name.length < 256) :
    BlockTiled (fillEntry data o name vNode) size os ∧ entryIn (fillEntry data o name vNode) os =
      update (entryIn data os) o (some (vNode.id, name)) := by
  have hlong := le_dirRecLen name.length
  have houtside : ∀ k, k < o ∨ o + recLen data o ≤ k → fillEntry data o name vNode k = data k :=
    fun k hk => fillEntry_of_outside (by omega)
  have hkeep := fun q hq hne =>
    record_keep h ho houtside hq (hfits q hq hne) hne
  refine ⟨⟨?_, ?_⟩, ?_⟩
  · refine h.congr fun q hq => ?_
    by_cases hne : q = o
    · rw [hne, recLen_fillEntry]
    · exact (hkeep q hq hne).1
  · intro q hq
    unfold Fits
    by_cases hne : q = o
    · rw [hne, recLen_fillEntry, nameLen_fillEntry hlen]
      exact ⟨hroom, hdvd⟩
    · obtain ⟨hrec, -, hname, -⟩ := hkeep q hq hne
      rw [hrec, hname]
      exact hfits q hq hne
  · apply entryIn_eq_update
    · exact fun q _ => Iff.rfl
    · intro q hq hne
      obtain ⟨-, hino, -, hname⟩ := hkeep q hq hne
      exact ⟨hino, hname⟩
    · unfold entryIn
      rw [if_pos ho, iNodeNum_fillEntry, recName_fillEntry hlen]

section Split

variable {pre post : List ℕ} {needed : ℕ}

theorem recLen_splitEntry (data : ℕ → UInt8) (o : ℕ) :
    recLen (splitEntry data o) o = dirRecLen (nameLen data o) := by
  have hlong := le_dirRecLen (nameLen data o)
  have hlt := dirRecLen_lt (UInt8.toNat_lt (data (o + 6)))
  unfold splitEntry
  dsimp only
  rw [nameLen_setRecLen (by omega)]
  exact wordAt_setWordAt.trans (mod_eq_of_lt hlt)

theorem recLen_splitEntry_next (data : ℕ → UInt8) (o : ℕ) :
    recLen (splitEntry data o) (o + dirRecLen (nameLen data o)) =
      recLen data o - dirRecLen (nameLen data o) := by
  have hlong := le_dirRecLen (nameLen data o)
  have hlt := wordAt_lt data (o + 4)
  have hsub : recLen data o - dirRecLen (nameLen data o) < 2 ^ 16 :=
    lt_of_le_of_lt (sub_le _ _) hlt
  refine (wordAt_setWordAt_of_apart (by omega)).trans ?_
  exact wordAt_setWordAt.trans (mod_eq_of_lt hsub)

theorem mem_append_cons_of_mem (o : ℕ) (h : q ∈ pre ++ post) : q ∈ pre ++ o :: post :=
  mem_append.mpr ((mem_append.mp h).imp_right (mem_cons_of_mem o))

/-- The first half of a record that is divided keeps its name, and the second
half is long enough for another one. -/
theorem tiles_splitEntry (h : BlockTiled data size (pre ++ o :: post)) (hneeded : 8 ≤ needed)
    (hroom : dirRecLen (nameLen data o) + needed ≤ recLen data o) :
    Tiles (recLen (splitEntry data o)) 0
        (pre ++ o :: (o + dirRecLen (nameLen data o)) :: post) size ∧
      (∀ q ∈ pre ++ o :: post, Fits (splitEntry data o) q) ∧
      ∀ q ∈ pre ++ o :: post, iNodeNum (splitEntry data o) q = iNodeNum data q ∧
          recName (splitEntry data o) q = recName data q := by
  have ho : o ∈ pre ++ o :: post :=
    mem_append_right _ mem_cons_self
  have hlong := le_dirRecLen (nameLen data o)
  have houtside : ∀ k, k < o ∨ o + recLen data o ≤ k → splitEntry data o k = data k := by
    intro k hk
    apply splitEntry_of_outside
    · omega
    · omega
  have hkeep := fun q hq hne =>
    record_keep h.tiles ho houtside hq (h.fits q hq) hne
  have hself := @record_congr data (splitEntry data o) o
    (fun k hlow hhigh => splitEntry_of_outside (by omega) (by omega))
    (fun k hlow hhigh => splitEntry_of_outside (by omega) (by omega))
  have hnext := recLen_splitEntry_next data o
  have hothers : ∀ q ∈ pre ++ post, recLen (splitEntry data o) q = recLen data q := by
    intro q hq
    have hmem : q ∈ pre ++ o :: post := mem_append_cons_of_mem o hq
    exact (hkeep q hmem (h.tiles.ne_of_mem hq)).1
  refine ⟨?_, ?_, ?_⟩
  · exact h.tiles.split (by omega) (by omega) (recLen_splitEntry data o) hnext
      hothers
  · intro q hq
    by_cases hne : q = o
    · rw [hne]
      unfold Fits
      rw [recLen_splitEntry, hself.2.1]
      exact ⟨le_rfl, four_dvd_dirRecLen _⟩
    · obtain ⟨hrec, -, hlen, -⟩ := hkeep q hq hne
      unfold Fits
      rw [hrec, hlen]
      exact h.fits q hq
  · intro q hq
    by_cases hne : q = o
    · rw [hne]
      exact ⟨hself.1, hself.2.2⟩
    · obtain ⟨-, hino, -, hname⟩ := hkeep q hq hne
      exact ⟨hino, hname⟩

theorem entryIn_of_notMem (h : o ∉ os) : entryIn data os o = none :=
  if_neg h

theorem mem_of_ne_inserted {new : ℕ} (hne : q ≠ new) :
    q ∈ pre ++ o :: new :: post ↔ q ∈ pre ++ o :: post := by
  simp only [mem_append, mem_cons, hne, false_or]

end Split

/-- Enter a name at a record with room: the map of the block changes at one
offset, where there was no record or an unused one. -/
theorem blockTiled_enterName (h : BlockTiled data size os) (ho : o ∈ os)
    (hroom : hasRoom data o (dirRecLen name.length) = true) (hlen : name.length < 256) :
    ∃ os' p, BlockTiled (enterName data o name vNode) size os' ∧
      entryIn (enterName data o name vNode) os' =
        update (entryIn data os) p (some (vNode.id, name)) ∧
      ∀ ino old, entryIn data os p = some (ino, old) → ino = 0 := by
  have hlong := le_dirRecLen name.length
  unfold hasRoom at hroom
  rw [Bool.or_eq_true, Bool.and_eq_true, decide_eq_true_iff, decide_eq_true_iff,
    decide_eq_true_iff] at hroom
  unfold enterName
  by_cases hino : iNodeNum data o = 0
  · rw [if_neg (not_not.mpr hino)]
    obtain ⟨htiled, hentry⟩ := @blockTiled_fillEntry data name o vNode size os
      h.tiles ho (fun q hq _ => h.fits q hq) (h.fits o ho).2 (by omega) hlen
    refine ⟨os, o, htiled, hentry, ?_⟩
    intro ino old hold
    unfold entryIn at hold
    rw [if_pos ho, some.injEq, mk.injEq] at hold
    rw [← hold.1, hino]
  · rw [if_pos hino]
    have hfree : dirRecLen (nameLen data o) + dirRecLen name.length ≤ recLen data o := by
      rcases hroom with hunused | hfree
      · exact absurd hunused.1 hino
      · exact hfree
    obtain ⟨pre, post, rfl⟩ := append_of_mem ho
    obtain ⟨htiles, hfits, hsame⟩ :=
      tiles_splitEntry h (by omega : 8 ≤ dirRecLen name.length) hfree
    have hnext := recLen_splitEntry_next data o
    have hmem : o + dirRecLen (nameLen data o) ∈
        pre ++ o :: (o + dirRecLen (nameLen data o)) :: post :=
      mem_append_right _ (mem_cons_of_mem _ mem_cons_self)
    have hnew : o + dirRecLen (nameLen data o) ∉ pre ++ o :: post := by
      intro hold
      have hlong' := le_dirRecLen (nameLen data o)
      rcases h.tiles.apart ho hold (by omega) with hafter | hbefore
      · omega
      · omega
    obtain ⟨htiled, hentry⟩ := @blockTiled_fillEntry (splitEntry data o) name
      _ vNode size _ htiles hmem
      (fun q hq hne => hfits q ((mem_of_ne_inserted hne).mp hq))
      (by
        rw [hnext]
        exact dvd_sub (h.fits o ho).2 (four_dvd_dirRecLen _))
      (by omega) hlen
    have hsplit := @entryIn_eq_update data (splitEntry data o) _
      (pre ++ o :: post) (pre ++ o :: (o + dirRecLen (nameLen data o)) :: post)
      (o + dirRecLen (nameLen data o))
      (fun q hne => mem_of_ne_inserted hne) (fun q hq _ => hsame q hq) rfl
    refine ⟨_, o + dirRecLen (nameLen data o), htiled, ?_, ?_⟩
    · rw [hentry, hsplit, update_idem]
    · intro ino old hold
      rw [entryIn_of_notMem hnew] at hold
      cases hold

/-! ## Removing a record from a block -/

section Remove

variable {pre post : List ℕ}

theorem removeLoop_eq {prev : Option ℕ} (h : Tiles (recLen data) a (pre ++ e :: post) size)
    (hfuel : size - a < fuel) :
    removeLoop data size e fuel prev a = match pre.getLast?.or prev with
      | some p => some (0, setRecLen data p (recLen data p + recLen data e))
      | none => some (0, setINodeNum data e 0) := by
  induction fuel generalizing a pre prev with
  | zero => exact absurd hfuel (not_lt_zero _)
  | succ fuel ih =>
    unfold removeLoop
    cases pre with
    | nil =>
      cases h with
      | cons hpos htail =>
        have hle := htail.le
        rw [if_pos (by omega), if_pos rfl]
        cases prev with
        | none | some p => rfl
    | cons curr pre =>
      cases h with
      | cons hpos htail =>
        have hle := htail.le
        have hlow := (htail.bounds (mem_append_right pre mem_cons_self)).1
        rw [if_pos (by omega), if_neg (by omega), ih htail (by omega), getLast?_cons]
        cases pre.getLast? with
        | none | some p => rfl

theorem record_setRecLen (data : ℕ → UInt8) (p value : ℕ) :
    iNodeNum (setRecLen data p value) p = iNodeNum data p ∧
      nameLen (setRecLen data p value) p = nameLen data p ∧
      recName (setRecLen data p value) p = recName data p :=
  record_congr (fun _ _ _ => setWordAt_of_ne (by omega))
    fun _ _ _ => setWordAt_of_ne (by omega)

theorem blockTiled_merge (h : BlockTiled data size (pre ++ p :: e :: post))
    (hsize : size < 2 ^ 16) :
    BlockTiled (setRecLen data p (recLen data p + recLen data e)) size (pre ++ p :: post) ∧
      entryIn (setRecLen data p (recLen data p + recLen data e)) (pre ++ p :: post) =
        update (entryIn data (pre ++ p :: e :: post)) e none := by
  have hp : p ∈ pre ++ p :: e :: post :=
    mem_append_right _ mem_cons_self
  have he : e ∈ pre ++ p :: e :: post :=
    mem_append_right _ (mem_cons_of_mem _ mem_cons_self)
  have hfits := (h.fits p hp).1
  have hlong := le_dirRecLen (nameLen data p)
  obtain ⟨hino, hname, hrecName⟩ :=
    record_setRecLen data p (recLen data p + recLen data e)
  have hnext : e = p + recLen data p := by
    obtain ⟨m, -, hcells⟩ := tiles_append.mp h.tiles
    cases hcells with
    | cons _ hcell =>
      cases hcell with
      | cons _ _ => rfl
  have hend := (h.tiles.bounds he).2
  have hlen : recLen (setRecLen data p (recLen data p + recLen data e)) p =
      recLen data p + recLen data e :=
    wordAt_setWordAt.trans (mod_eq_of_lt (by omega))
  have hkeep : ∀ q ∈ pre ++ p :: e :: post, q ≠ p → _ := fun q hq hne =>
    @record_keep data (setRecLen data p (recLen data p + recLen data e)) p size _
      q h.tiles hp (fun k hk => setWordAt_of_ne (by omega)) hq (h.fits q hq) hne
  have hmem : ∀ q ∈ pre ++ p :: post, q ∈ pre ++ p :: e :: post := by
    intro q hq
    by_cases hne : q = e
    · rw [hne]
      exact he
    · exact (mem_of_ne_inserted hne).mpr hq
  refine ⟨⟨?_, ?_⟩, ?_⟩
  · apply h.tiles.merge hlen
    intro q hq
    refine (hkeep q (hmem q (mem_append_cons_of_mem p hq)) ?_).1
    apply h.tiles.ne_of_mem
    exact mem_append.mpr ((mem_append.mp hq).imp_right (mem_cons_of_mem e))
  · intro q hq
    unfold Fits
    by_cases hne : q = p
    · rw [hne, hlen, hname]
      exact ⟨by omega, Nat.dvd_add (h.fits p hp).2 (h.fits e he).2⟩
    · obtain ⟨hrec, -, hlen', -⟩ := hkeep q (hmem q hq) hne
      rw [hrec, hlen']
      exact h.fits q (hmem q hq)
  · apply entryIn_eq_update
    · exact fun q hne => (mem_of_ne_inserted hne).symm
    · intro q hq _
      by_cases hne : q = p
      · rw [hne]
        exact ⟨hino, hrecName⟩
      · obtain ⟨-, hino', -, hname'⟩ := hkeep q hq hne
        exact ⟨hino', hname'⟩
    · apply entryIn_of_notMem
      intro hin
      have htiles := h.tiles
      rw [append_cons] at htiles hin
      exact htiles.ne_of_mem hin rfl

theorem ext3RemoveEntry_merge (h : BlockTiled data size os) (he : e ∈ os)
    (hfirst : e ≠ 0) (hsize : size < 2 ^ 16) :
    ∃ data' os', ext3RemoveEntry data size e = some (0, data') ∧ BlockTiled data' size os' ∧
      entryIn data' os' = update (entryIn data os) e none := by
  obtain ⟨pre, post, rfl⟩ := append_of_mem he
  have hloop := @removeLoop_eq data (size + 1) e 0 size pre post none h.tiles (by omega)
  rcases pre.eq_nil_or_concat' with rfl | ⟨pre, p, rfl⟩
  · cases h.tiles with
    | cons _ _ => exact absurd rfl hfirst
  · rw [getLast?_concat] at hloop
    rw [← append_cons] at h
    obtain ⟨htiled, hentry⟩ := blockTiled_merge h hsize
    refine ⟨_, _, hloop, htiled, ?_⟩
    rw [← append_cons]
    exact hentry

theorem ext3RemoveEntry_returns (h : Tiles (recLen data) 0 os size)
    (he : e ∈ os) : ∃ data', ext3RemoveEntry data size e = some (0, data') := by
  obtain ⟨pre, post, rfl⟩ := append_of_mem he
  unfold ext3RemoveEntry
  rw [removeLoop_eq h (by omega)]
  split
  · exact ⟨_, rfl⟩
  · exact ⟨_, rfl⟩

end Remove

/-! ## Changing the map -/

structure MapChanged (dir dir' : Dir) (b p : ℕ) (value : Option (ℕ × List UInt8)) : Prop where
  tiled : Tiled dir'
  blockSize : dir'.blockSize = dir.blockSize
  entry : ∀ b' o, dir'.entry b' o = if b' = b ∧ o = p then value else dir.entry b' o

theorem Tiled.block (h : Tiled dir) (hb : b < dir.count) :
    BlockTiled (dir.data b) dir.blockSize (dir.records b) :=
  ⟨h.tiles b hb, h.fits b hb⟩

theorem records_setBlock_self (h : BlockTiled data dir.blockSize os) :
    (dir.setBlock b data).records b = os := by
  unfold Dir.records Dir.setBlock
  dsimp only
  rw [update_self]
  exact h.tiles.walk_eq le_rfl

theorem records_setBlock_of_ne (h : b' ≠ b) :
    (dir.setBlock b data).records b' = dir.records b' := by
  unfold Dir.records Dir.setBlock
  dsimp only
  rw [update_of_ne h]

theorem data_setBlock_self (dir : Dir) (b : ℕ) (data : ℕ → UInt8) :
    (dir.setBlock b data).data b = data :=
  update_self _ _ _

theorem data_setBlock_of_ne (h : b' ≠ b) : (dir.setBlock b data).data b' = dir.data b' :=
  update_of_ne h _ _

theorem Tiled.setBlock (h : Tiled dir) (hblock : BlockTiled data dir.blockSize os) :
    Tiled (dir.setBlock b data) := by
  refine ⟨h.blockSize_pos, h.blockSize_dvd, ?_, ?_⟩
  · intro b' hb'
    by_cases hne : b' = b
    · rw [hne, data_setBlock_self, records_setBlock_self hblock]
      exact hblock.tiles
    · rw [data_setBlock_of_ne hne, records_setBlock_of_ne hne]
      exact h.tiles b' hb'
  · intro b' hb' o ho
    by_cases hne : b' = b
    · rw [hne, records_setBlock_self hblock] at ho
      rw [hne, data_setBlock_self]
      exact hblock.fits o ho
    · rw [records_setBlock_of_ne hne] at ho
      rw [data_setBlock_of_ne hne]
      exact h.fits b' hb' o ho

theorem entry_eq_entryIn (hb : b < dir.count) (o : ℕ) :
    dir.entry b o = entryIn (dir.data b) (dir.records b) o := by
  unfold Dir.entry entryIn
  simp only [hb, true_and]

theorem Tiled.mapChanged (h : Tiled dir) {p : ℕ} (hb : b < dir.count)
    (hblock : BlockTiled data dir.blockSize os)
    (hentry : entryIn data os = update (entryIn (dir.data b) (dir.records b)) p value) :
    MapChanged dir (dir.setBlock b data) b p value := by
  refine ⟨h.setBlock hblock, rfl, fun b' o => ?_⟩
  by_cases hne : b' = b
  · have hb' : b < (dir.setBlock b data).count := hb
    rw [hne, entry_eq_entryIn hb, entry_eq_entryIn hb', data_setBlock_self,
      records_setBlock_self hblock, hentry, update_apply]
    simp only [true_and]
  · rw [if_neg fun hat => hne hat.1]
    unfold Dir.entry
    rw [records_setBlock_of_ne hne, data_setBlock_of_ne hne]
    rfl

theorem findRoom_spec {needed : ℕ} (h : Tiles (recLen data) a os size)
    (hs : findRoom data size needed fuel a = some o) : o ∈ os ∧ hasRoom data o needed = true := by
  induction fuel generalizing a os with
  | zero => cases hs
  | succ fuel ih =>
    rw [findRoom] at hs
    cases h with
    | nil =>
      rw [if_pos le_rfl] at hs
      cases hs
    | cons hpos htail =>
      have hle := htail.le
      rw [if_neg (by omega)] at hs
      split at hs
      · next hroom =>
        cases hs
        exact ⟨mem_cons_self, hroom⟩
      · obtain ⟨ho, hroom⟩ := ih htail hs
        exact ⟨mem_cons_of_mem _ ho, hroom⟩

theorem findRoom_returns {needed : ℕ} (h : Tiles (recLen data) a os size) (ho : o ∈ os)
    (hroom : hasRoom data o needed = true) (hfuel : size - a < fuel) :
    ∃ o', findRoom data size needed fuel a = some o' := by
  induction fuel generalizing a os with
  | zero => exact absurd hfuel (not_lt_zero _)
  | succ fuel ih =>
    cases h with
    | nil => cases ho
    | cons hpos htail =>
      have hle := htail.le
      rw [findRoom, if_neg (by omega)]
      split
      · exact ⟨_, rfl⟩
      · next hfull =>
        rcases mem_cons.mp ho with rfl | ho
        · exact absurd hroom hfull
        · exact ih htail ho (by omega)

theorem ext3AddEntry_spec (h : Tiled dir) (hcount : 0 < dir.count)
    (hlen : name.length < 256) (hs : ext3AddEntry dir name vNode = some dir') :
    ∃ p, MapChanged dir dir' 0 p (some (vNode.id, name)) ∧
      ∀ ino old, dir.entry 0 p = some (ino, old) → ino = 0 := by
  obtain ⟨o, hroom, rfl⟩ := map_eq_some_iff.mp hs
  obtain ⟨ho, hfits⟩ := findRoom_spec (h.tiles 0 hcount) hroom
  obtain ⟨os', p, htiled, hentry, hold⟩ := @blockTiled_enterName _ _ _ vNode _ _
    (h.block hcount) ho hfits hlen
  refine ⟨p, h.mapChanged hcount htiled hentry, ?_⟩
  rw [entry_eq_entryIn hcount]
  exact hold

theorem ext3Remove_spec {name : Name} (h : Tiled dir) (hsize : dir.blockSize < 2 ^ 16)
    (hfirst : ∀ b < dir.count, recName (dir.data b) 0 ≠ name.bytes) :
    (∃ b p ino dir', dir.entry b p = some (ino, name.bytes) ∧
      ext3Remove dir name.bytes = some (0, dir') ∧
      MapChanged dir dir' b p none) ∨
    (∀ b o ino, dir.entry b o ≠ some (ino, name.bytes)) ∧
      ext3Remove dir name.bytes = some (-ENOENT, dir) := by
  rcases ext3FindEntry_spec h name with
    ⟨b, hb, o, ho, hname, hfind⟩ | ⟨hnone, hfind⟩
  · left
    have hlt := record_lt h hb ho
    have hne : o ≠ 0 := by
      rintro rfl
      exact hfirst b hb hname
    obtain ⟨data', os', hremove, htiled, hentry⟩ :=
      ext3RemoveEntry_merge (h.block hb) ho hne hsize
    refine ⟨b, o, _, dir.setBlock b data',
      entry_eq_some.mpr ⟨hb, ho, rfl, hname⟩, ?_, h.mapChanged hb htiled hentry⟩
    unfold ext3Remove
    rw [hfind]
    dsimp only
    rw [place_div hlt, place_mod hlt, hremove]
    rfl
  · right
    constructor
    · intro b o ino hsome
      obtain ⟨hb, ho, -, hname⟩ := entry_eq_some.mp hsome
      exact hnone b hb o ho hname
    · unfold ext3Remove
      rw [hfind]

/-! ## Runs -/

section Steps

variable {id : ℕ} {nm : Name}

theorem bytes_ne (h : other ≠ nm) : nm.bytes ≠ other.bytes := by
  intro heq
  cases other
  cases nm
  cases heq
  exact h rfl

section

variable (h : Mapped dir)
include h

theorem MapChanged.mapped_add (hid : 0 < id)
    (habsent : ∀ b o ino, dir.entry b o ≠ some (ino, nm.bytes))
    (hchanged : MapChanged dir dir' b p (some (id, nm.bytes))) : Mapped dir' := by
  have hnew : ∀ b₁ o₁ ino₁ b₂ o₂ ino₂ name, dir'.entry b₁ o₁ = some (ino₁, name) →
      dir'.entry b₂ o₂ = some (ino₂, name) → b₁ = b ∧ o₁ = p → b₂ = b ∧ o₂ = p := by
    intro b₁ o₁ ino₁ b₂ o₂ ino₂ name hfirst hsecond hat
    by_contra hother
    rw [hchanged.entry, if_pos hat] at hfirst
    rw [hchanged.entry, if_neg hother, ← (mk.inj (some.inj hfirst)).2] at hsecond
    exact habsent b₂ o₂ ino₂ hsecond
  refine ⟨hchanged.tiled, ?_, ?_⟩
  · intro name b₁ o₁ b₂ o₂ ino₁ ino₂ hfirst hsecond
    by_cases hat : b₁ = b ∧ o₁ = p
    · have hat' := hnew b₁ o₁ ino₁ b₂ o₂ ino₂ _ hfirst hsecond hat
      exact ⟨hat.1.trans hat'.1.symm, hat.2.trans hat'.2.symm⟩
    · have hother := mt (hnew b₂ o₂ ino₂ b₁ o₁ ino₁ _ hsecond hfirst) hat
      rw [hchanged.entry, if_neg hat] at hfirst
      rw [hchanged.entry, if_neg hother] at hsecond
      exact h.unique name b₁ o₁ b₂ o₂ ino₁ ino₂ hfirst hsecond
  · intro b₁ o₁ name hunused
    rw [hchanged.entry] at hunused
    split at hunused
    · have hzero := (mk.inj (some.inj hunused)).1
      exact absurd hzero hid.ne'
    · exact h.named b₁ o₁ name hunused

theorem MapChanged.mapped_remove (hchanged : MapChanged dir dir' b p none) : Mapped dir' := by
  have hold : ∀ b₁ o₁ value, dir'.entry b₁ o₁ = some value → dir.entry b₁ o₁ = some value := by
    intro b₁ o₁ value hsome
    rw [hchanged.entry] at hsome
    split at hsome
    · cases hsome
    · exact hsome
  refine ⟨hchanged.tiled, ?_, ?_⟩
  · intro name b₁ o₁ b₂ o₂ ino₁ ino₂ hfirst hsecond
    exact h.unique name b₁ o₁ b₂ o₂ ino₁ ino₂ (hold _ _ _ hfirst) (hold _ _ _ hsecond)
  · intro b₁ o₁ name hunused
    exact h.named b₁ o₁ name (hold _ _ _ hunused)

theorem MapChanged.lookup_other (h' : Mapped dir') (hchanged : MapChanged dir dir' b p value)
    (hold : ∀ ino, dir.entry b p ≠ some (ino, other.bytes))
    (hnew : ∀ ino, value ≠ some (ino, other.bytes)) : lookup dir' other = lookup dir other := by
  refine h.lookup_congr h' hchanged.blockSize fun b₁ o₁ ino => ?_
  rw [hchanged.entry]
  split
  · next hat =>
    rw [hat.1, hat.2]
    exact iff_of_false (hnew ino) (hold ino)
  · exact Iff.rfl

theorem not_present_iff :
    ¬ dir.Present nm.bytes ↔ ∀ b o ino, dir.entry b o ≠ some (ino, nm.bytes) := by
  constructor
  · intro habsent b o ino hsome
    have hino := ino_ne_zero h.named hsome
    obtain ⟨hb, ho, rfl, hname⟩ := entry_eq_some.mp hsome
    exact habsent ⟨b, hb, o, ho, ho, hino, hname⟩
  · rintro hnone ⟨b, hb, o, -, ho, -, hname⟩
    exact hnone b o _ (entry_eq_some.mpr ⟨hb, ho, rfl, hname⟩)

theorem Mapped.add (hlen : nm.bytes.length < 256) (hs : dirStep dir (.add nm vNode) = some dir') :
    Mapped dir' ∧ StepOk dir (.add nm vNode) dir' := by
  obtain ⟨henabled, hs⟩ := ite_none_right_eq_some.mp hs
  have habsent := (not_present_iff h).mp henabled.2
  obtain ⟨p, hchanged, hunused⟩ :=
    ext3AddEntry_spec h.tiled henabled.1 hlen hs
  have hmapped := hchanged.mapped_add h vNode.id_pos habsent
  have hnew : dir'.entry 0 p = some (vNode.id, nm.bytes) := by
    rw [hchanged.entry, if_pos ⟨rfl, rfl⟩]
  refine ⟨hmapped, ⟨_, hmapped.lookup_found hnew⟩, ?_⟩
  intro other hne
  apply hchanged.lookup_other h hmapped
  · intro ino hold
    rw [hunused ino _ hold] at hold
    exact other.ne_nil (h.named 0 p _ hold)
  · intro ino hvalue
    exact bytes_ne hne (mk.inj (some.inj hvalue)).2

theorem Mapped.remove (hsize : dir.blockSize < 2 ^ 16)
    (hfirst : ∀ b < dir.count, recName (dir.data b) 0 ≠ nm.bytes)
    (hs : dirStep dir (.remove nm) = some dir') : Mapped dir' ∧ StepOk dir (.remove nm) dir' := by
  obtain ⟨r, hremove, rfl⟩ := map_eq_some_iff.mp hs
  rcases ext3Remove_spec h.tiled hsize hfirst with
    ⟨b, p, ino, dir', hentry, heq, hchanged⟩ | ⟨hnone, heq⟩
  · rw [heq] at hremove
    cases hremove
    have hmapped := hchanged.mapped_remove h
    refine ⟨hmapped, fun _ => hmapped.lookup_missing ?_, ?_⟩
    · intro b₁ o₁ ino₁ hsome
      rw [hchanged.entry] at hsome
      split at hsome
      · cases hsome
      · next hother =>
        exact hother (h.unique _ _ _ _ _ _ _ hsome hentry)
    · intro other hne
      apply hchanged.lookup_other h hmapped
      · intro ino' hold
        rw [hentry] at hold
        exact bytes_ne hne (mk.inj (some.inj hold)).2
      · exact fun _ => nofun
  · rw [heq] at hremove
    cases hremove
    exact ⟨h, fun _ => h.lookup_missing hnone, fun _ _ => rfl⟩

theorem Mapped.uniqueNames : UniqueNames dir := by
  rintro name b hb b' hb' o o' ⟨ho, -, hname⟩ ⟨ho', -, hname'⟩
  exact h.unique name b o b' o' _ _ (entry_eq_some.mpr ⟨hb, ho, rfl, hname⟩)
    (entry_eq_some.mpr ⟨hb', ho', rfl, hname'⟩)

end

theorem dirStep_mapped {op : DirOp} (htiled : Tiled dir) (hunique : UniqueNames dir)
    (hguard : KeepsNames dir op) (hs : dirStep dir op = some dir') :
    Mapped dir' ∧ StepOk dir op dir' := by
  cases op with
  | add nm vNode =>
    exact (Mapped.of_uniqueNames htiled hunique hguard.1).add hguard.2 hs
  | remove nm =>
    exact (Mapped.of_uniqueNames htiled hunique hguard.1).remove hguard.2.1 hguard.2.2 hs

theorem Tiled.returns (h : Tiled dir) : Returns dir := by
  intro name
  unfold lookup ext3Remove
  rcases ext3FindEntry_spec h name with ⟨b, hb, o, ho, -, hfind⟩ | ⟨-, hfind⟩
  · have hlt := record_lt h hb ho
    obtain ⟨data', hremove⟩ := ext3RemoveEntry_returns (h.tiles b hb) ho
    rw [hfind]
    dsimp only
    rw [place_div hlt, place_mod hlt, hremove]
    exact ⟨nofun, nofun⟩
  · rw [hfind]
    exact ⟨nofun, nofun⟩

end Steps

theorem Tiled.dirStep_returns {op : DirOp} (h : Tiled dir) (henabled : Enabled dir op) :
    ∃ dir', dirStep dir op = some dir' := by
  cases op with
  | add nm vNode =>
    obtain ⟨hcount, habsent, o, ho, hroom⟩ := henabled
    obtain ⟨o', hfind⟩ := findRoom_returns (h.tiles 0 hcount) ho hroom (lt_succ_self dir.blockSize)
    rw [dirStep, if_pos ⟨hcount, habsent⟩, ext3AddEntry, hfind]
    exact ⟨_, rfl⟩
  | remove nm =>
    obtain ⟨r, hremove⟩ := ne_none_iff_exists'.mp (h.returns nm).2
    rw [dirStep, hremove]
    exact ⟨_, rfl⟩

/-- In every run in which no unused record keeps a name and no first record of a
block is removed, a directory is a finite map: every further call does what it has to do,
and it returns, an addition if the first block has room. -/
theorem ext3_directory_map {s : Dir} (htiled : Tiled dir)
    (hunique : UniqueNames dir) (hreach : Reach dirStep KeepsNames dir s) :
    Tiled s ∧ Returns s ∧ ∀ op, KeepsNames s op →
      (Enabled s op → ∃ s', dirStep s op = some s') ∧
        ∀ s', dirStep s op = some s' → StepOk s op s' := by
  have hinv : Tiled s ∧ UniqueNames s := by
    apply @Reach.invariant _ _ dirStep KeepsNames dir s
      (fun s => Tiled s ∧ UniqueNames s) ⟨htiled, hunique⟩ _ hreach
    intro s op s' hs hguard hstep
    have hmapped := (dirStep_mapped hs.1 hs.2 hguard hstep).1
    exact ⟨hmapped.tiled, hmapped.uniqueNames⟩
  exact ⟨hinv.1, hinv.1.returns, fun op hguard => ⟨hinv.1.dirStep_returns, fun s' hstep =>
    (dirStep_mapped hinv.1 hinv.2 hguard hstep).2⟩⟩

/-- A directory of two blocks, with the names `.` and `..` in the first one and
the name `a` in the second one. -/
def twoBlocks : Dir where
  blockSize := 1024
  size := 2048
  data
    | 0, 0 => 2
    | 0, 4 => 12
    | 0, 6 => 1
    | 0, 8 => 46
    | 0, 12 => 2
    | 0, 16 => 0xF4
    | 0, 17 => 0x03
    | 0, 18 => 2
    | 0, 20 => 46
    | 0, 21 => 46
    | 1, 0 => 11
    | 1, 5 => 4
    | 1, 6 => 1
    | 1, 8 => 97
    | _, _ => 0

def nameA : Name := ⟨[97], by decide, by decide⟩
def nameB : Name := ⟨[98], by decide, by decide⟩
def newFile : VNode := ⟨12, 1, by decide, by decide⟩

theorem twoBlocks_tiled : Tiled twoBlocks :=
  ⟨by decide, by decide, by decide, by decide⟩

theorem twoBlocks_uniqueNames : UniqueNames twoBlocks := by
  have hrecords : ∀ b < 2, ∀ o ∈ twoBlocks.records b, ∀ b' < 2, ∀ o' ∈ twoBlocks.records b',
        recName (twoBlocks.data b) o = recName (twoBlocks.data b') o' → b = b' ∧ o = o' := by decide
  rintro name b hb b' hb' o o' ⟨ho, -, hname⟩ ⟨ho', -, hname'⟩
  exact hrecords b hb o ho b' hb' o' ho' (hname.trans hname'.symm)

theorem ext3_directory_map_twoBlocks :
    ∃ s, Reach dirStep KeepsNames twoBlocks s ∧ iNodeNum (s.data 0) 24 = 12 ∧ Tiled s ∧ Returns s ∧
      ∀ op, KeepsNames s op → (Enabled s op → ∃ s', dirStep s op = some s') ∧
        ∀ s', dirStep s op = some s' → StepOk s op s' := by
  obtain ⟨s, hreach, hend⟩ := exists_reach dirStep KeepsNames twoBlocks
    [.add nameB newFile, .remove nameB, .add nameB newFile]
    (fun s => iNodeNum (s.data 0) 24 = 12) (by decide)
  exact ⟨s, hreach, hend, ext3_directory_map twoBlocks_tiled twoBlocks_uniqueNames hreach⟩

/-- The only record of the second block is removed, but it is still found. -/
theorem ext3Remove_first_record_found :
    ∃ dir', Tiled twoBlocks ∧ UniqueNames twoBlocks ∧
      ext3Remove twoBlocks nameA.bytes = some (0, dir') ∧
      dirStep twoBlocks (.remove nameA) = some dir' ∧
      lookup dir' nameA ≠ some (.error (-ENOENT)) := by
  have hremove : (ext3Remove twoBlocks nameA.bytes).map (fun r =>
      (r.1, (ext3FindEntry r.2 nameA.bytes).map Except.isOk)) = some (0, some true) := by decide
  obtain ⟨⟨err, dir'⟩, hs, hend⟩ := map_eq_some_iff.mp hremove
  obtain ⟨rfl, hfound⟩ := mk.inj hend
  refine ⟨dir', twoBlocks_tiled, twoBlocks_uniqueNames, hs, ?_, ?_⟩
  · exact congrArg (Option.map snd) hs
  · intro hlookup
    obtain ⟨r, hr, herr⟩ := map_eq_some_iff.mp hlookup
    rw [hr] at hfound
    cases r with
    | error err => cases hfound
    | ok i => cases herr

end Whitix.Ext3
