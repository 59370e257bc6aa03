import Whitix.Fs.Vfs.Load.Model

/-!
# Passing arguments

A string that lies in one page is copied as it is.  The second part of a string that
crosses the end of a page begins with the first byte of the string again, and has no
terminator.
-/

namespace Whitix.Load

open Support Function List Nat Option

/-! ## The pages as one memory -/

/-- The byte that is stored for a string at `pos` in the address `a`. -/
def placed (s : CString) (pos a : ℕ) : UInt8 :=
  s.stored.getD (if a / pageSize = pos / pageSize then a - pos else a % pageSize) 0

def put (memory : ℕ → UInt8) (s : CString) (pos start len : ℕ) : ℕ → UInt8 := fun a =>
  if start ≤ a ∧ a < start + len then placed s pos a else memory a

/-- The pages up to `stackPos` hold the memory. -/
structure Flat (memory : ℕ → UInt8) (args : ExecArgs) : Prop where
  page : ∀ p, p * pageSize < args.stackPos → ∃ page, args.argPages p = some page ∧
    ∀ i < pageSize, page i = memory (p * pageSize + i)
  fresh : ∀ p, args.stackPos ≤ p * pageSize → args.argPages p = none
  zero : ∀ a, args.stackPos ≤ a → memory a = 0

def Mapped (args : ExecArgs) (currVirtPage : Option ℕ) : Prop :=
  ∀ page ∈ currVirtPage, 0 < args.stackPos ∧ page = (args.stackPos - 1) / pageSize

/-- A part of a string begins with the string, or with a page. -/
def Part (pos start : ℕ) : Prop :=
  start = pos ∨ pos < start ∧ start % pageSize = 0

theorem length_stored (s : CString) : s.stored.length = s.size := by
  rw [CString.stored, length_append]
  rfl

variable {s : CString}

variable {a pos n i argAddr : ℕ} {after rest : List CString} {area : ArgArea}

theorem placed_of_part {start : ℕ} (hpart : Part pos start) (_ : start ≤ a)
    (hpage : a / pageSize = start / pageSize) : placed s pos a = s.stored.getD (a - start) 0 := by
  unfold placed
  unfold pageSize at *
  rcases hpart with rfl | ⟨hlt, haligned⟩
  · rw [if_pos hpage]
  · unfold pageSize at haligned
    rw [if_neg (by omega), show a % 4096 = a - start by omega]

variable {memory : ℕ → UInt8} {args : ExecArgs}

section

variable {currVirtPage : Option ℕ}

section

variable (h : Flat memory args)
include h

theorem mappedPage_eq (hmapped : Mapped args currVirtPage) :
    mappedPage args.argPages (args.stackPos / pageSize) currVirtPage =
      args.stackPos / pageSize := by
  cases currVirtPage with
  | none => rfl
  | some page =>
    obtain ⟨hpos, rfl⟩ := hmapped page rfl
    rw [mappedPage]
    split_ifs with hnone
    · rfl
    · have hlt : ¬ args.stackPos ≤ args.stackPos / pageSize * pageSize := fun hle =>
        hnone (by rw [h.fresh _ hle]; rfl)
      unfold pageSize at *
      omega

theorem withPage_eq :
    ∃ page, withPage args.argPages (args.stackPos / pageSize)
        (args.stackPos / pageSize) = some page ∧
      (∀ i < pageSize, page i = memory (args.stackPos / pageSize * pageSize + i)) ∧
      ∀ p ≠ args.stackPos / pageSize,
        withPage args.argPages (args.stackPos / pageSize) p = args.argPages p := by
  unfold withPage
  cases hpage : args.argPages (args.stackPos / pageSize) with
  | none =>
    refine ⟨fun _ => 0, update_self _ _ _, fun i _ => ?_, fun p hp => update_of_ne hp _ _⟩
    refine (h.zero _ (le_trans ?_ (le_add_right _ i))).symm
    by_contra hlt
    obtain ⟨page, hsome, -⟩ := h.page _ (Nat.lt_of_not_le hlt)
    rw [hpage] at hsome
    cases hsome
  | some page =>
    refine ⟨page, hpage, ?_, fun _ _ => rfl⟩
    have hlt : ¬ args.stackPos ≤ args.stackPos / pageSize * pageSize := fun hle =>
      absurd (h.fresh _ hle) (by rw [hpage]; nofun)
    obtain ⟨page', hsome, hbytes⟩ := h.page _ (Nat.lt_of_not_le hlt)
    rw [hpage] at hsome
    cases hsome
    exact hbytes

theorem Flat.part (hmapped : Mapped args currVirtPage) (hpart : Part pos args.stackPos)
    (hpos : 0 < n) (hroom : n ≤ pageSize - args.stackPos % pageSize) (hsize : n ≤ s.size) :
    Flat (put memory s pos args.stackPos n) (copyPart s n args currVirtPage).1 := by
  unfold Load.copyPart
  dsimp only
  rw [mappedPage_eq h hmapped]
  obtain ⟨page, hpage, hbytes, hothers⟩ := withPage_eq h
  rw [hpage, map_some]
  have hlength : (s.stored.take n).length = n := by
    rw [length_take, length_stored]
    omega
  have hindex : args.stackPos / pageSize * pageSize + args.stackPos % pageSize = args.stackPos := by
    unfold pageSize
    omega
  refine ⟨fun p hp => ?_, fun p hp => ?_, fun a ha => ?_⟩
  · dsimp only at hp ⊢
    by_cases hp' : p = args.stackPos / pageSize
    · subst hp'
      refine ⟨_, update_self _ _ _, fun i hi => ?_⟩
      unfold copyTo put
      rw [hlength, hbytes i hi]
      by_cases hin : args.stackPos % pageSize ≤ i ∧ i < args.stackPos % pageSize + n
      · rw [if_pos hin, if_pos (by omega),
          placed_of_part hpart (by omega) (by unfold pageSize at *; omega),
          show args.stackPos / pageSize * pageSize + i - args.stackPos =
            i - args.stackPos % pageSize by omega,
          getD_eq_getElem?_getD, getD_eq_getElem?_getD,
          getElem?_take_of_lt (by omega)]
      · rw [if_neg hin, if_neg (by omega)]
    · have hlt : p * pageSize + pageSize ≤ args.stackPos := by
        unfold pageSize at *
        omega
      obtain ⟨page', hpage', hbytes'⟩ := h.page p (by unfold pageSize at *; omega)
      refine ⟨page', ?_, fun i hi => ?_⟩
      · rw [update_of_ne hp', hothers p hp', hpage']
      · rw [hbytes' i hi, put, if_neg (by omega)]
  · dsimp only at hp ⊢
    have hp' : p ≠ args.stackPos / pageSize := by
      rintro rfl
      omega
    rw [update_of_ne hp', hothers p hp', h.fresh p (by omega)]
  · dsimp only at ha
    rw [put, if_neg (by omega), h.zero a (by omega)]

theorem Flat.mappedPart (hmapped : Mapped args currVirtPage) (hpos : 0 < n)
    (hroom : n ≤ pageSize - args.stackPos % pageSize) :
    Mapped (copyPart s n args currVirtPage).1 (copyPart s n args currVirtPage).2 := by
  rintro _ ⟨⟩
  rw [mappedPage_eq h hmapped]
  unfold Load.copyPart
  dsimp only
  unfold pageSize at *
  omega

end

theorem bytesToCopy_spec {len : ℕ} (hlen : 0 < len) (stackPos : ℕ) :
    0 < bytesToCopy len stackPos ∧ bytesToCopy len stackPos ≤ len ∧
      bytesToCopy len stackPos ≤ pageSize - stackPos % pageSize ∧
      (bytesToCopy len stackPos ≠ len →
        bytesToCopy len stackPos = pageSize - stackPos % pageSize) := by
  have hmod := mod_lt stackPos (show 0 < pageSize by decide)
  unfold bytesToCopy
  split_ifs <;> omega

theorem put_zero (memory : ℕ → UInt8) (s : CString) (pos start : ℕ) :
    put memory s pos start 0 = memory := by
  funext a
  rw [put, if_neg (by omega)]

theorem put_put (memory : ℕ → UInt8) (s : CString) (pos start n m : ℕ) :
    put (put memory s pos start n) s pos (start + n) m = put memory s pos start (n + m) := by
  funext a
  unfold put
  split_ifs <;> first | rfl | omega

theorem Flat.copyLoop {fuel len : ℕ} (h : Flat memory args) (hmapped : Mapped args currVirtPage)
    (hpart : len ≠ 0 → Part pos args.stackPos) (hfuel : len ≤ fuel) (hsize : len ≤ s.size) :
    let copied := copyLoop s fuel len args currVirtPage
    Flat (put memory s pos args.stackPos len) copied.1 ∧
      Mapped copied.1 copied.2 ∧ copied.1.stackPos = args.stackPos + len ∧
      copied.1.argc = args.argc := by
  induction fuel generalizing memory args currVirtPage len with
  | zero =>
    obtain rfl := le_zero.mp hfuel
    rw [put_zero]
    exact ⟨h, hmapped, rfl, rfl⟩
  | succ fuel ih =>
    rw [Load.copyLoop]
    by_cases hlen : len = 0
    · subst hlen
      rw [put_zero]
      exact ⟨h, hmapped, rfl, rfl⟩
    rw [if_neg hlen]
    obtain ⟨hpos, hle, hroom, hrest⟩ := bytesToCopy_spec (pos_of_ne_zero hlen) args.stackPos
    generalize bytesToCopy len args.stackPos = n at *
    have hpart' : len - n ≠ 0 → Part pos (args.stackPos + n) := by
      intro hne
      have hn := hrest (by omega)
      have hmod := mod_lt args.stackPos (show 0 < pageSize by decide)
      refine .inr ⟨?_, ?_⟩
      · rcases hpart hlen with hstart | ⟨hstart, -⟩ <;> omega
      · unfold pageSize at *
        omega
    obtain ⟨hflat, hmapped', hstack, hargc⟩ :=
      @ih _ _ _ (len - n) (h.part (s := s) hmapped (hpart hlen) hpos hroom (by omega))
        (h.mappedPart hmapped hpos hroom) hpart' (by omega) (by omega)
    change Flat (put _ s pos (args.stackPos + n) (len - n)) _ at hflat
    rw [put_put, Nat.add_sub_cancel' hle] at hflat
    refine ⟨hflat, hmapped', hstack.trans ?_, hargc⟩
    change args.stackPos + n + (len - n) = args.stackPos + len
    omega

end

def putAll (memory : ℕ → UInt8) : ℕ → List CString → ℕ → UInt8
  | _, [] => memory
  | pos, s :: strings =>
    putAll (put memory s pos pos s.size) (pos + s.size) strings

def totalSize : List CString → ℕ
  | [] => 0
  | s :: strings => s.size + totalSize strings

variable {strings : List CString}

theorem Flat.copyStrings {currVirtPage : Option ℕ} (h : Flat memory args)
    (hmapped : Mapped args currVirtPage) :
    let copied := copyStrings strings args currVirtPage
    Flat (putAll memory args.stackPos strings) copied ∧
      copied.stackPos = args.stackPos + totalSize strings ∧ copied.argc = args.argc := by
  induction strings generalizing memory args currVirtPage with
  | nil => exact ⟨h, rfl, rfl⟩
  | cons s strings ih =>
    obtain ⟨hflat, hmapped', hstack, hargc⟩ :=
      h.copyLoop (s := s) hmapped (fun _ => .inl rfl) le_rfl le_rfl
    obtain ⟨hflat', hstack', hargc'⟩ := ih hflat hmapped'
    rw [hstack] at hflat' hstack'
    refine ⟨hflat', ?_, hargc'.trans hargc⟩
    rw [totalSize, ← add_assoc]
    exact hstack'

theorem putAll_of_lt (ha : a < pos) : putAll memory pos strings a = memory a := by
  induction strings generalizing memory pos with
  | nil => rfl
  | cons s strings ih => rw [putAll, ih (by omega), put, if_neg (by omega)]

theorem putAll_append (memory : ℕ → UInt8) (pos : ℕ) (strings rest : List CString) :
    putAll memory pos (strings ++ rest) =
      putAll (putAll memory pos strings) (pos + totalSize strings) rest := by
  induction strings generalizing memory pos with
  | nil => rfl
  | cons s strings ih =>
    rw [cons_append, putAll, ih, putAll, totalSize, add_assoc]

theorem totalSize_append (strings rest : List CString) :
    totalSize (strings ++ rest) = totalSize strings + totalSize rest := by
  induction strings with
  | nil => exact (zero_add _).symm
  | cons s strings ih => rw [cons_append, totalSize, ih, totalSize, add_assoc]

variable {before : List CString} {addr : ℕ} {stack stack' : Stack}

theorem putAll_mid (hi : i < s.size) :
    putAll memory 0 (before ++ s :: after) (totalSize before + i) =
      placed s (totalSize before) (totalSize before + i) := by
  rw [putAll_append, putAll, putAll_of_lt (by omega), put, if_pos (by omega), zero_add]

/-! ## The strings in the new process -/

def InPage (s : CString) (pos : ℕ) : Prop :=
  pos / pageSize = (pos + s.size - 1) / pageSize

/-- Each of the strings that follow one another from `pos` on lies in one page. -/
def Intact : ℕ → List CString → Prop
  | _, [] => True
  | pos, s :: strings => InPage s pos ∧ Intact (pos + s.size) strings

/-- A string with its terminator is at an address. -/
def HoldsString (memory : ℕ → Option UInt8) (address : ℕ) (s : CString) : Prop :=
  ∀ i < s.size, memory (address + i) = some (s.stored.getD i 0)

theorem size_pos (s : CString) : 0 < s.size := succ_pos _

theorem InPage.placed (h : InPage s pos) (hi : i < s.size) :
    placed s pos (pos + i) = s.stored.getD i 0 := by
  unfold InPage at h
  unfold Load.placed
  rw [if_pos, Nat.add_sub_cancel_left]
  unfold pageSize at *
  omega

theorem stored_last (s : CString) : s.stored.getD (s.size - 1) 0 = 0 := by
  rw [CString.stored, CString.size, Nat.add_sub_cancel, getD_eq_getElem?_getD,
    getElem?_append_right le_rfl, Nat.sub_self]
  rfl

theorem stored_ne_zero (hi : i < s.size - 1) : s.stored.getD i 0 ≠ 0 := by
  have hi' : i < s.bytes.length := hi
  rw [CString.stored, getD_eq_getElem?_getD, getElem?_append_left hi',
    getElem?_eq_getElem hi', getD_some]
  intro hzero
  exact s.noNul (hzero ▸ getElem_mem hi')

theorem placed_last_ne (h : ¬ InPage s pos) : placed s pos (pos + (s.size - 1)) ≠ 0 := by
  have hsize := size_pos s
  unfold InPage at h
  unfold placed
  rw [Nat.add_sub_assoc hsize] at h
  rw [if_neg (Ne.symm h)]
  apply stored_ne_zero
  unfold pageSize at *
  omega

/-! ## The area of the arguments -/

theorem Flat.initial : Flat (fun _ => 0) .initial where
  page _ hp := absurd hp (not_lt_zero _)
  fresh _ _ := rfl
  zero _ _ := rfl

theorem length_le_totalSize (strings : List CString) : strings.length ≤ totalSize strings := by
  induction strings with
  | nil => exact le_rfl
  | cons s strings ih =>
    rw [length_cons, totalSize]
    have hsize := size_pos s
    omega

section

variable (name : CString) (argv : List CString)

/-- The strings of a process, in the order in which they are copied. -/
def copyOrder : List CString :=
  (name :: argv).reverse

theorem Flat.execCopyStrings (h : Flat memory args) (strings : List CString) :
    let copied := execCopyStrings args strings
    Flat (putAll memory args.stackPos strings.reverse) copied ∧
      copied.stackPos = args.stackPos + totalSize strings.reverse ∧
      copied.argc = args.argc + strings.length := by
  have hcounted : Flat memory { args with argc := args.argc + strings.length } := { h with }
  exact Flat.copyStrings hcounted fun _ hnone => nomatch hnone

theorem execCopyStrings_eq :
    let args := execCopyStrings (execCopyStrings .initial argv) [name]
    Flat (putAll (fun _ => 0) 0 (copyOrder name argv)) args ∧
      args.stackPos = totalSize (copyOrder name argv) ∧ args.argc = argv.length + 1 := by
  obtain ⟨hflat, hpos, hargc⟩ := Flat.initial.execCopyStrings argv
  obtain ⟨hflat', hpos', hargc'⟩ := hflat.execCopyStrings [name]
  rw [hpos] at hflat' hpos'
  rw [copyOrder, reverse_cons, putAll_append, totalSize_append]
  refine ⟨hflat', hpos'.trans ?_, hargc'.trans ?_⟩
  · change 0 + _ + _ = _
    rw [zero_add]
    rfl
  · rw [hargc]
    change 0 + _ + _ = _
    rw [zero_add]
    rfl

theorem pageAlignUp_stackPos {stackPos : ℕ} (h : stackPos ≤ pageSize * numArgPages) :
    stackPos ≤ pageAlignUp stackPos := by
  unfold pageAlignUp pageAlign
  unfold pageSize numArgPages at *
  rw [dword_of_lt (by omega)]
  omega

theorem execSetupArgs_memory (h : Flat memory args) (ha : a < args.stackPos)
    (hfits : args.stackPos ≤ pageSize * numArgPages) :
    (execSetupArgs args argAddr).memory (argAddr + a) = some (memory a) := by
  have hle := pageAlignUp_stackPos hfits
  have hpage : a / pageSize * pageSize < args.stackPos :=
    lt_of_le_of_lt (div_mul_le_self _ _) ha
  obtain ⟨page, hsome, hbytes⟩ := h.page _ hpage
  change (if _ then _ else _) = _
  rw [if_pos (by omega), Nat.add_sub_cancel_left, hsome, map_some,
    hbytes _ (mod_lt _ (by decide)), div_add_mod']

/-! ## The stack -/

theorem pushLoop_frame {argCount : ℕ} (hroom : 4 * argCount ≤ stack.stackP)
    (h : pushLoop area argCount addr stack = some stack') :
    stack'.stackP = stack.stackP - 4 * argCount ∧
      ∀ a, stack.stackP ≤ a → stack'.words a = stack.words a := by
  induction argCount generalizing addr stack with
  | zero =>
    cases h
    exact ⟨rfl, fun _ _ => rfl⟩
  | succ argCount ih =>
    obtain ⟨len, -, h⟩ := bind_eq_some_iff.mp h
    have hroom' : 4 * argCount ≤ (stack.push addr).stackP := by
      change _ ≤ stack.stackP - 4
      omega
    obtain ⟨hstackP, hwords⟩ := ih hroom' h
    have hpush : (stack.push addr).stackP = stack.stackP - 4 := rfl
    refine ⟨by omega, fun a ha => ?_⟩
    rw [hwords a (by omega)]
    exact update_of_ne (by omega) _ _

theorem strlen_of_holdsString {memory : ℕ → Option UInt8} {bytes : List UInt8} {fuel : ℕ}
    (hnoNul : 0 ∉ bytes) (hfuel : bytes.length < fuel)
    (h : ∀ i ≤ bytes.length, memory (addr + i) = some ((bytes ++ [0]).getD i 0)) :
    strlen memory fuel addr = some bytes.length := by
  induction fuel generalizing addr bytes with
  | zero => exact absurd hfuel (not_lt_zero _)
  | succ fuel ih =>
    have hfirst := h 0 (zero_le _)
    rw [add_zero] at hfirst
    rw [strlen, hfirst]
    cases bytes with
    | nil => rfl
    | cons c bytes =>
      have hc : c ≠ 0 := fun hc => hnoNul (hc ▸ mem_cons_self)
      have hrest := @ih (addr + 1) bytes (fun hmem => hnoNul (mem_cons_of_mem _ hmem))
        (lt_of_succ_lt_succ hfuel) fun i hi => by
          have hi' := h (i + 1) (succ_le_succ hi)
          rwa [add_comm i, ← add_assoc, add_comm 1 i] at hi'
      change (if c = 0 then _ else _) = _
      rw [if_neg hc, hrest]
      rfl

/-- Strings follow one another from an address on. -/
def HoldsAll (memory : ℕ → Option UInt8) : ℕ → List CString → Prop
  | _, [] => True
  | address, s :: strings =>
    HoldsString memory address s ∧ HoldsAll memory (address + s.size) strings

theorem pushLoop_of_holdsAll (argCount : ℕ) (stack : Stack)
    (h : HoldsAll area.memory addr strings) (hend : addr + totalSize strings ≤ area.argsEnd) :
    ∃ stack', stack'.stackP = stack.stackP - 4 * strings.length ∧
      pushLoop area (strings.length + argCount) addr stack =
        pushLoop area argCount (addr + totalSize strings) stack' := by
  induction strings generalizing addr stack with
  | nil =>
    refine ⟨stack, rfl, ?_⟩
    rw [length_nil, zero_add]
    rfl
  | cons s strings ih =>
    rw [totalSize] at hend
    have hstrlen : strlen area.memory (area.argsEnd - addr + 1) addr = some s.bytes.length := by
      apply strlen_of_holdsString s.noNul
      · have hsize : s.size = s.bytes.length + 1 := rfl
        omega
      · exact fun i hi => h.1 i (lt_succ_of_le hi)
    obtain ⟨stack', hstackP, hloop⟩ := ih (stack.push addr) h.2 (by omega)
    refine ⟨stack', ?_, ?_⟩
    · rw [hstackP, length_cons]
      change stack.stackP - 4 - _ = _
      omega
    · rw [length_cons, add_right_comm, pushLoop, hstrlen, bind_some,
        totalSize, ← add_assoc addr s.size]
      exact hloop

theorem pushLoop_word (h : HoldsAll area.memory addr before)
    (hend : addr + totalSize before ≤ area.argsEnd)
    (hroom : 4 * (before ++ s :: after).length ≤ stack.stackP)
    (hloop : pushLoop area (before ++ s :: after).length addr stack = some stack') :
    stack'.words (stack.stackP - 4 * (before.length + 1)) = addr + totalSize before := by
  obtain ⟨middle, hmiddle, heq⟩ := pushLoop_of_holdsAll (after.length + 1) stack h hend
  rw [length_append, length_cons] at hroom hloop
  rw [heq] at hloop
  obtain ⟨len, -, hloop⟩ := bind_eq_some_iff.mp hloop
  have hpush : (middle.push (addr + totalSize before)).stackP = middle.stackP - 4 := rfl
  obtain ⟨-, hwords⟩ := pushLoop_frame (by omega) hloop
  rw [hwords _ (by omega), show stack.stackP - 4 * (before.length + 1) = middle.stackP - 4 by omega]
  exact update_self _ _ _

theorem holdsAll_of_intact {m : ℕ → Option UInt8} (hintact : Intact pos strings)
    (h : ∀ a < pos + totalSize strings,
      m (argAddr + a) = some (putAll memory pos (strings ++ rest) a)) :
    HoldsAll m (argAddr + pos) strings := by
  induction strings generalizing memory pos with
  | nil => trivial
  | cons s strings ih =>
    rw [totalSize, ← add_assoc] at h
    refine ⟨fun i hi => ?_, ?_⟩
    · rw [add_assoc, h _ (by omega), cons_append, putAll,
        putAll_of_lt (by omega), put, if_pos (by omega), hintact.1.placed hi]
    · rw [add_assoc]
      exact ih hintact.2 h

theorem exists_crossing (h : ¬ Intact pos strings) : ∃ before s after,
    strings = before ++ s :: after ∧ Intact pos before ∧ ¬ InPage s (pos + totalSize before) := by
  induction strings generalizing pos with
  | nil => exact absurd trivial h
  | cons s strings ih =>
    by_cases hs : InPage s pos
    · obtain ⟨before, t, after, hsplit, hbefore, ht⟩ :=
        ih fun hrest => h ⟨hs, hrest⟩
      refine ⟨s :: before, t, after, ?_, ⟨hs, hbefore⟩, ?_⟩
      · rw [hsplit]
        rfl
      · rw [totalSize, ← add_assoc]
        exact ht
    · exact ⟨[], s, strings, rfl, trivial, hs⟩

theorem Intact.left (h : Intact pos (before ++ rest)) : Intact pos before := by
  induction before generalizing pos with
  | nil => trivial
  | cons s before ih => exact ⟨h.1, ih h.2⟩

/-! ## The arguments of the new process -/

/-- The arguments of a process: the count on the top of the stack, the pointer to the
vector of pointers above it, and each string in the area. -/
structure Exact (name : CString) (argv : List CString) (area : ArgArea) (stack : Stack) : Prop where
  argc : stack.words stack.stackP = argv.length + 1
  pointer : ∀ i s, (name :: argv)[i]? = some s →
    let p := stack.words (stack.words (stack.stackP + 4) + 4 * i)
    area.argsStart ≤ p ∧ p + s.size ≤ area.argsEnd ∧ HoldsString area.memory p s

/-- The loader passes the arguments, with `MMapDo` choosing `argAddr`. -/
def PassedExactly (argAddr : ℕ) (words : ℕ → ℕ) : Prop :=
  ∃ area stack, execArguments name argv argAddr (elfStack words) = some (area, stack) ∧
    Exact name argv area stack

structure Copied (name : CString) (argv : List CString) (argAddr : ℕ) (area : ArgArea) : Prop where
  argsStart : area.argsStart = argAddr
  room : argAddr + totalSize (copyOrder name argv) ≤ area.argsEnd
  bytes : ∀ a < totalSize (copyOrder name argv), area.memory (argAddr + a) =
    some (putAll (fun _ => 0) 0 (copyOrder name argv) a)

theorem totalSize_copyOrder : totalSize (copyOrder name argv) = totalSize (name :: argv) := by
  unfold copyOrder
  induction name :: argv with
  | nil => rfl
  | cons s strings ih =>
    rw [reverse_cons, totalSize_append, ih, add_comm]
    rfl

theorem length_copyOrder :
    (copyOrder name argv).length = argv.length + 1 := by rw [copyOrder, length_reverse, length_cons]

end

variable {argv : List CString} {name : CString}

/-- The stack with the pointer to the vector and the count. -/
def Stack.withArgs (stack : Stack) (argc : ℕ) : Stack :=
  (stack.push stack.stackP).push argc

theorem execArguments_eq (argAddr : ℕ)
    (stack : Stack) (hfits : totalSize (name :: argv) ≤ pageSize * numArgPages) :
    ∃ area, Copied name argv argAddr area ∧ execArguments name argv argAddr stack =
      (pushLoop area (copyOrder name argv).length argAddr stack).map fun stack =>
        (area, stack.withArgs (argv.length + 1)) := by
  obtain ⟨hflat, hpos, hargc⟩ := execCopyStrings_eq name argv
  have hfits' : totalSize (copyOrder name argv) ≤ pageSize * numArgPages :=
    le_trans (le_of_eq (totalSize_copyOrder name argv)) hfits
  have hlength := length_le_totalSize (name :: argv)
  rw [length_cons] at hlength
  rw [← hpos] at hfits'
  refine ⟨execSetupArgs (execCopyStrings (execCopyStrings .initial argv) [name]) argAddr,
    ⟨rfl, ?_, ?_⟩, ?_⟩
  · rw [← hpos]
    exact Nat.add_le_add_left (pageAlignUp_stackPos hfits') _
  · intro a ha
    rw [← hpos] at ha
    exact execSetupArgs_memory hflat ha hfits'
  · rw [execArguments, execCopyArgs, if_neg (by omega)]
    change Option.map _ (execSetupStack _ _ _) = _
    rw [execSetupStack, hargc, Option.map_map, length_copyOrder]
    rfl

theorem Stack.withArgs_argc (stack : Stack) (argc : ℕ) :
    (stack.withArgs argc).words (stack.withArgs argc).stackP = argc :=
  update_self _ _ _

theorem Stack.withArgs_argv (argc : ℕ) (h : 8 ≤ stack.stackP) :
    (stack.withArgs argc).words ((stack.withArgs argc).stackP + 4) = stack.stackP := by
  have htop : (stack.withArgs argc).stackP + 4 = stack.stackP - 4 := by
    change stack.stackP - 4 - 4 + 4 = _
    omega
  rw [htop]
  change update (update stack.words (stack.stackP - 4) stack.stackP)
    (stack.stackP - 4 - 4) argc _ = _
  rw [update_of_ne (by omega)]
  exact update_self _ _ _

theorem Stack.withArgs_above (argc : ℕ) (h : 8 ≤ stack.stackP)
    (ha : stack.stackP ≤ a) : (stack.withArgs argc).words a = stack.words a := by
  change update (update stack.words (stack.stackP - 4) stack.stackP)
    (stack.stackP - 4 - 4) argc _ = _
  rw [update_of_ne (by omega)]
  exact update_of_ne (by omega) _ _

theorem Copied.pointer (h : Copied name argv argAddr area)
    (hsplit : copyOrder name argv = before ++ s :: after) (hintact : Intact 0 before)
    (hroom : 4 * (argv.length + 3) ≤ stack.stackP)
    (hloop : pushLoop area (copyOrder name argv).length argAddr stack = some stack') :
    let final := stack'.withArgs (argv.length + 1)
    final.words (final.words (final.stackP + 4) + 4 * after.length) =
      argAddr + totalSize before := by
  have hlength := length_copyOrder name argv
  have htotal := congrArg totalSize hsplit
  rw [totalSize_append] at htotal
  have hholds : HoldsAll area.memory argAddr before := by
    apply holdsAll_of_intact hintact
    intro a ha
    rw [← hsplit]
    exact h.bytes a (by omega)
  have hend := h.room
  obtain ⟨hstackP, -⟩ := pushLoop_frame (by omega) hloop
  have hword := hloop
  rw [hsplit] at hword
  have hsum : (copyOrder name argv).length = before.length + (after.length + 1) := by
    rw [hsplit, length_append, length_cons]
  have hroom' : 4 * (before ++ s :: after).length ≤ stack.stackP := by
    rw [← hsplit]
    omega
  have hbefore := pushLoop_word hholds (by omega) hroom' hword
  intro final
  rw [Stack.withArgs_argv _ (by omega), Stack.withArgs_above _ (by omega) (by omega), ← hbefore]
  congr 1
  omega

theorem copyOrder_split (h : (name :: argv)[i]? = some s) : ∃ before after,
    copyOrder name argv = before ++ s :: after ∧ after.length = i := by
  obtain ⟨hlt, heq⟩ := List.getElem?_eq_some_iff.mp h
  refine ⟨((name :: argv).drop (i + 1)).reverse, ((name :: argv).take i).reverse, ?_, ?_⟩
  · have hparts : name :: argv = (name :: argv).take i ++ s :: (name :: argv).drop (i + 1) := by
      rw [← heq, ← drop_eq_getElem_cons hlt, take_append_drop]
    have hreverse := congrArg reverse hparts
    rw [reverse_append, @reverse_cons _ s, append_assoc] at hreverse
    exact hreverse
  · rw [length_reverse, length_take]
    omega

theorem getElem?_of_copyOrder (h : copyOrder name argv = before ++ s :: after) :
    (name :: argv)[after.length]? = some s := by
  have hreverse := congrArg reverse h
  rw [copyOrder, reverse_reverse, reverse_append, reverse_cons, append_assoc] at hreverse
  rw [hreverse, getElem?_append_right (le_of_eq (length_reverse)), length_reverse, Nat.sub_self]
  rfl

theorem HoldsAll.of_split {memory : ℕ → Option UInt8}
    (h : HoldsAll memory addr (before ++ s :: after)) :
    HoldsString memory (addr + totalSize before) s := by
  induction before generalizing addr with
  | nil => exact h.1
  | cons t before ih =>
    rw [totalSize, ← add_assoc]
    exact ih h.2

theorem Copied.holdsAll (h : Copied name argv argAddr area)
    (hintact : Intact 0 (copyOrder name argv)) :
    HoldsAll area.memory argAddr (copyOrder name argv) := by
  apply @holdsAll_of_intact _ _ [] _ _ _ hintact
  intro a ha
  rw [append_nil]
  exact h.bytes a (by omega)

section

variable {words : ℕ → ℕ}

section

variable (hfits : totalSize (name :: argv) ≤ pageSize * numArgPages)
include hfits

theorem room_of_fits : 4 * (argv.length + 3) ≤ (elfStack words).stackP := by
  have hlength := length_le_totalSize (name :: argv)
  rw [length_cons] at hlength
  change _ ≤ 0xC0000000 - 4 * 17
  unfold pageSize numArgPages at hfits
  omega

/-- The terminator of the first string that crosses a page is missing. -/
theorem intact_of_passedExactly
    (h : PassedExactly name argv argAddr words) : Intact 0 (copyOrder name argv) := by
  obtain ⟨area, hcopied, heq⟩ := execArguments_eq argAddr (elfStack words) hfits
  obtain ⟨area', stack, hresult, hexact⟩ := h
  rw [heq] at hresult
  obtain ⟨stack', hloop, hpair⟩ := map_eq_some_iff.mp hresult
  cases hpair
  by_contra hcross
  obtain ⟨before, s, after, hsplit, hbefore, hs⟩ := exists_crossing hcross
  rw [zero_add] at hs
  have hpointer := hcopied.pointer hsplit hbefore (room_of_fits hfits) hloop
  obtain ⟨-, -, hholds⟩ := hexact.pointer _ _ (getElem?_of_copyOrder hsplit)
  have hsize := size_pos s
  have hlast := hholds (s.size - 1) (by omega)
  have htotal := congrArg totalSize hsplit
  rw [totalSize_append, totalSize] at htotal
  -- the byte in the place of the terminator is one of the string
  rw [hpointer, stored_last, add_assoc, hcopied.bytes _ (by omega), hsplit,
    putAll_mid (by omega), some_inj] at hlast
  exact placed_last_ne hs hlast

theorem passedExactly_of_intact (argAddr : ℕ) (hintact : Intact 0 (copyOrder name argv)) :
    PassedExactly name argv argAddr words := by
  obtain ⟨area, hcopied, heq⟩ := execArguments_eq argAddr (elfStack words) hfits
  have hholds := hcopied.holdsAll hintact
  obtain ⟨stack', -, hloop⟩ := pushLoop_of_holdsAll 0 (elfStack words) hholds hcopied.room
  rw [add_zero] at hloop
  refine ⟨area, stack'.withArgs (argv.length + 1), ?_, ⟨Stack.withArgs_argc _ _, ?_⟩⟩
  · rw [heq, hloop]
    rfl
  · intro i s hi
    obtain ⟨before, after, hsplit, rfl⟩ := copyOrder_split hi
    have htotal := congrArg totalSize hsplit
    rw [totalSize_append, totalSize] at htotal
    have hroom := hcopied.room
    rw [hsplit] at hintact hholds
    rw [hcopied.pointer hsplit hintact.left (room_of_fits hfits) hloop, hcopied.argsStart]
    exact ⟨le_add_right _ _, by omega, hholds.of_split⟩

end

end

/-- The arguments and the name of a new process are passed as they are if and
only if none of the strings, which are copied from the last argument to the
name, crosses the end of a page. -/
theorem passedExactly_iff (name : CString) (argv : List CString) (argAddr : ℕ)
    (words : ℕ → ℕ) (hfits : totalSize (name :: argv) ≤ pageSize * numArgPages) :
    PassedExactly name argv argAddr words ↔ Intact 0 (copyOrder name argv) :=
  ⟨intact_of_passedExactly hfits, passedExactly_of_intact hfits argAddr⟩

theorem passedExactly_two :
    PassedExactly ⟨[108, 115], by decide⟩ [⟨[45, 108], by decide⟩, ⟨[47], by decide⟩]
      0x10000000 (fun _ => 0) :=
  (passedExactly_iff _ _ _ _ (by decide)).mpr ⟨rfl, rfl, rfl, trivial⟩

def longArgument : CString := ⟨replicate 4096 120, fun h =>
  absurd (eq_of_mem_replicate h) (by decide)⟩

theorem not_passedExactly_long :
    ¬ PassedExactly ⟨[108, 115], by decide⟩ [longArgument] 0x10000000 (fun _ => 0) := by
  have hsize : longArgument.size = 4097 := by rw [CString.size, longArgument, length_replicate]
  have hfits : totalSize [⟨[108, 115], by decide⟩, longArgument] ≤ pageSize * numArgPages := by
    rw [totalSize, totalSize, hsize]
    decide
  intro h
  have hpage := (intact_of_passedExactly hfits h).1
  unfold InPage at hpage
  rw [hsize] at hpage
  cases hpage

end Whitix.Load
