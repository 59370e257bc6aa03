import Whitix.Fs.Vfs.ChangeDir
import Whitix.Support.Components

/-!
# The string of the working directory

`AddStringPath` edits the string of the working directory component by component.
A name is added with a slash behind it, and `..` removes a name and its slash.
This is what it does to paths it can follow; it takes every component that
starts with a dot for `.` or `..`.
-/

namespace Whitix.WorkingDir

open Support Function List Nat Option
open Vfs

/-! ## The buffer -/

def Holds (sCwd : Buffer) (text : List Char) : Prop :=
  ∀ i c, text[i]? = some c → sCwd i = c

variable {rest name : List Char} {j : ℕ}

section Buffer

variable {sCwd : Buffer} {text : List Char}

theorem Holds.left (h : Holds sCwd (text ++ rest)) : Holds sCwd text := by
  intro i c hc
  obtain ⟨hi, -⟩ := List.getElem?_eq_some_iff.mp hc
  exact h i c ((getElem?_append_left hi).trans hc)

theorem Holds.right (h : Holds sCwd (text ++ rest)) {i : ℕ}
    {c : Char} (hc : rest[i]? = some c) : sCwd (text.length + i) = c := by
  apply h (text.length + i) c
  rw [getElem?_append_right (Nat.le_add_right _ _), Nat.add_sub_cancel_left]
  exact hc

section

variable (h : Holds sCwd text)
include h

theorem Holds.congr {sCwd' : Buffer}
    (hsame : ∀ i < text.length, sCwd' i = sCwd i) : Holds sCwd' text := by
  intro i c hc
  obtain ⟨hi, -⟩ := List.getElem?_eq_some_iff.mp hc
  exact (hsame i hi).trans (h i c hc)

theorem Holds.write (c : Char) : Holds (update sCwd text.length c) (text ++ [c]) := by
  intro i d hd
  by_cases hi : i = text.length
  · rw [hi, getElem?_concat_length] at hd
    rw [hi, update_self]
    exact some.inj hd
  · rw [update_of_ne hi]
    obtain ⟨hlt, -⟩ := List.getElem?_eq_some_iff.mp hd
    rw [length_append, length_singleton] at hlt
    rw [getElem?_append_left (by omega)] at hd
    exact h i d hd

theorem Holds.ended (c : Char) : Holds (update sCwd text.length c) text :=
  h.congr fun _ hi => update_of_ne hi.ne _ _

theorem extract_of_holds : extract sCwd 0 text.length = text := by
  apply ext_getElem
  · rw [length_extract]
  · intro i hi hi'
    have hc := h i text[i] (getElem?_eq_getElem hi')
    simpa [Support.extract] using hc

theorem strlenFrom_of_holds (hnul : nul ∉ text) (hend : sCwd text.length = nul) {left : ℕ}
    (hj : j ≤ text.length) (hleft : text.length - j < left) :
    strlenFrom sCwd left j = text.length := by
  induction left generalizing j with
  | zero => exact absurd hleft (not_lt_zero _)
  | succ left ih =>
    rw [strlenFrom]
    by_cases heq : j = text.length
    · rw [heq, if_pos hend]
    · have hlt : j < text.length := lt_of_le_of_ne hj heq
      have hc := h j text[j] (getElem?_eq_getElem hlt)
      have hne : sCwd j ≠ nul := by
        rw [hc]
        exact fun hzero => hnul (hzero ▸ getElem_mem hlt)
      rw [if_neg hne]
      exact ih hlt (by omega)

end

structure Contains (sCwd : Buffer) (text : List Char) : Prop where
  holds : Holds sCwd text
  noNul : nul ∉ text
  ended : sCwd text.length = nul
  short : text.length < pathMax

theorem Contains.strlen (h : Contains sCwd text) : strlen sCwd = text.length :=
  strlenFrom_of_holds h.holds h.noNul h.ended (zero_le _) h.short

theorem Contains.string (h : Contains sCwd text) : string sCwd = text := by
  unfold WorkingDir.string
  rw [h.strlen]
  exact extract_of_holds h.holds

theorem readAt_of_lt (hj : j < pathMax) : readAt sCwd j = .ok (sCwd j) := if_pos hj

theorem writeAt_of_lt (hj : j < pathMax) (c : Char) :
    writeAt sCwd j c = .ok (update sCwd j c) := if_pos hj

end Buffer

/-! ## Going back -/

section GoBack

variable {sCwd : Buffer}

theorem skipBack_of_ne (hj : j < pathMax) (hc : sCwd j ≠ '/') : skipBack sCwd j = .ok j := by
  cases j with
  | zero | succ j =>
    rw [skipBack, readAt_of_lt hj]
    exact if_neg hc

theorem skipBack_of_eq (hj : j + 1 < pathMax) (hc : sCwd (j + 1) = '/') :
    skipBack sCwd (j + 1) = skipBack sCwd j := by
  rw [skipBack, readAt_of_lt hj]
  exact if_pos hc

theorem zeroBack_of_ne {k n : ℕ} (hk : sCwd k = '/')
    (hne : ∀ i < n, sCwd (k + 1 + i) ≠ '/') (hlt : k + n < pathMax) :
    zeroBack sCwd (k + n) = .ok (fun i => if k < i ∧ i ≤ k + n then nul else sCwd i, k) := by
  induction n generalizing sCwd with
  | zero =>
    have hsame : (fun i => if k < i ∧ i ≤ k + 0 then nul else sCwd i) =
        sCwd := by
      funext i
      exact if_neg fun h => Nat.not_le_of_lt h.1 h.2
    rw [hsame]
    cases k with
    | zero | succ k =>
      rw [zeroBack, readAt_of_lt hlt]
      exact if_pos hk
  | succ n ih =>
    have hlast : sCwd (k + n + 1) ≠ '/' := by
      have hlast := hne n (lt_succ_self n)
      rwa [add_right_comm] at hlast
    have hupdate : ∀ i ≠ k + n + 1, update sCwd (k + n + 1) nul i = sCwd i := fun i hi =>
      update_of_ne hi _ _
    have hzero := @ih (update sCwd (k + n + 1) nul) (by rw [hupdate k (by omega), hk])
      (fun i hi => by
        rw [hupdate _ (by omega)]
        exact hne i (lt_succ_of_lt hi))
      (by omega)
    rw [← add_assoc, zeroBack, readAt_of_lt (by omega)]
    refine (if_neg hlast).trans (hzero.trans ?_)
    congr 2
    funext i
    by_cases hi : i = k + n + 1
    · rw [hi, update_self, ite_self, if_pos (by omega)]
    · rw [hupdate i hi]
      exact if_congr (by omega) rfl rfl

theorem skipForward_of_eq {left : ℕ} (hc : sCwd j = '/') (hnext : sCwd (j + 1) ≠ '/')
    (hleft : 2 ≤ left) : skipForward sCwd left j = .ok (j + 1) := by
  obtain ⟨left, rfl⟩ := Nat.exists_eq_add_of_le' hleft
  rw [skipForward, if_pos hc, skipForward, if_neg hnext]

theorem goBack_of_holds {base : List Char} (hne : name ≠ []) (hname : '/' ∉ name)
    (hholds : Holds sCwd (base ++ ['/'] ++ (name ++ ['/'])))
    (hlt : (base ++ ['/'] ++ (name ++ ['/'])).length < pathMax) :
    ∃ sCwd', goBack sCwd (base ++ ['/'] ++ (name ++ ['/'])).length =
        .ok (sCwd', base.length) ∧ Holds sCwd' (base ++ ['/']) ∧
      sCwd' (base.length + 1) = nul := by
  have hpos := length_pos_iff.mpr hne
  have hbase : (base ++ ['/']).length = base.length + 1 := length_append
  have hlength : (base ++ ['/'] ++ (name ++ ['/'])).length = base.length + name.length + 1 + 1 := by
    rw [length_append, hbase, length_append, length_singleton]
    omega
  rw [hlength] at hlt ⊢
  have hslash : sCwd base.length = '/' :=
    hholds.left.right (i := 0) rfl
  have hlast : sCwd (base.length + name.length + 1) = '/' := by
    have hright := hholds.right (i := name.length) getElem?_concat_length
    rwa [hbase, add_right_comm] at hright
  have hchars : ∀ i < name.length, sCwd (base.length + 1 + i) ≠ '/' := by
    intro i hi
    have hright := hholds.right (i := i) ((getElem?_append_left hi).trans (getElem?_eq_getElem hi))
    rw [hbase] at hright
    rw [hright]
    exact fun heq => hname (heq ▸ getElem_mem hi)
  have hend : sCwd (base.length + name.length) ≠ '/' := by
    have hright := hchars (name.length - 1) (by omega)
    rwa [show base.length + 1 + (name.length - 1) = base.length + name.length by omega] at hright
  refine ⟨fun i => if base.length < i ∧ i ≤ base.length + name.length then nul
    else sCwd i, ?_, ?_, ?_⟩
  · have hskip : skipBack sCwd (base.length + name.length + 1) =
        .ok (base.length + name.length) := by
      rw [skipBack_of_eq (by omega) hlast, skipBack_of_ne (by omega) hend]
    rw [goBack, hskip]
    exact zeroBack_of_ne hslash hchars (by omega)
  · apply hholds.left.congr
    intro i hi
    rw [hbase] at hi
    exact if_neg fun h => Nat.not_lt_of_le (le_of_lt_succ hi) h.1
  · exact if_pos ⟨lt_succ_self _, Nat.add_le_add_left hpos _⟩

theorem copyName_of_holds {text : List Char} {e : Char} (hne : name ≠ []) (hname : '/' ∉ name)
    (hnul : nul ∉ name) (he : ¬ (e ≠ '/' ∧ e ≠ nul)) (hholds : Holds sCwd text)
    (hlt : (text ++ name).length ≤ pathMax) :
    ∃ sCwd', copyName sCwd text.length (name ++ e :: rest) =
        .ok (sCwd', (text ++ name).length, e :: rest) ∧
      Holds sCwd' (text ++ name) := by
  induction name generalizing text sCwd with
  | nil => exact absurd rfl hne
  | cons c name ih =>
    have happend : text ++ c :: name = text ++ [c] ++ name := by rw [append_assoc, singleton_append]
    rw [happend] at hlt ⊢
    have hlength : (text ++ [c]).length = text.length + 1 := length_append
    have hc : text.length < pathMax := by
      rw [length_append] at hlt
      omega
    cases name with
    | nil =>
      rw [append_nil, hlength]
      refine ⟨_, ?_, hholds.write c⟩
      rw [cons_append, copyName, writeAt_of_lt hc]
      exact if_neg he
    | cons d name =>
      have hd : d ≠ '/' ∧ d ≠ nul :=
        ⟨fun heq => hname (heq ▸ mem_cons_of_mem c mem_cons_self),
          fun heq => hnul (heq ▸ mem_cons_of_mem c mem_cons_self)⟩
      obtain ⟨sCwd', hcopy, hholds'⟩ := ih (cons_ne_nil d name)
        (fun h => hname (mem_cons_of_mem c h))
        (fun h => hnul (mem_cons_of_mem c h)) (hholds.write c) hlt
      refine ⟨sCwd', ?_, hholds'⟩
      rw [hlength] at hcopy
      rw [cons_append, copyName, writeAt_of_lt hc]
      exact (if_pos hd).trans hcopy

end GoBack

/-! ## Following a path -/

abbrev Name := List Char

/-- The string for the names of directories, the innermost one first. -/
def written (names : List Name) : List Char := rooted '/' names.reverse

theorem written_cons (name : Name) (names : List Name) :
    written (name :: names) = written names ++ (name ++ ['/']) := by
  unfold written
  rw [reverse_cons, rooted_append_singleton]

theorem written_eq_append (names : List Name) : ∃ base, written names = base ++ ['/'] := by
  cases names with
  | nil => exact ⟨[], rfl⟩
  | cons name names =>
    refine ⟨written names ++ name, ?_⟩
    rw [written_cons, append_assoc]

def enter (names : List Name) (component : Name) : List Name :=
  if component = ['.'] then names
  else if component = ['.', '.'] then names.tail
  else component :: names

/-- The components of a path that `AddStringPath` can follow: none but `.` and
`..` starts with a dot, there is a component behind each `.`, no `..` leads above
the root, and the string never gets too long. -/
def Follows : List Name → List Name → Prop
  | _, [] => True
  | names, component :: path =>
    (component.head? = some '.' → component = ['.'] ∨ component = ['.', '.']) ∧
    (component = ['.'] → path ≠ []) ∧
    (component = ['.', '.'] → names ≠ []) ∧
    (written (enter names component)).length < pathMax ∧
    Follows (enter names component) path

theorem dropWhile_append_nul (path behind : List Char) :
    (path ++ nul :: behind).dropWhile (· = '/') = path.dropWhile (· = '/') ++ nul :: behind := by
  rw [dropWhile_append]
  split
  · next hempty =>
    rw [isEmpty_iff.mp hempty]
    rfl
  · rfl

/-- A path for which there is nothing behind the last component. -/
def EndsInName (path : List Char) : Prop := ∀ c ∈ path.getLast?, c ≠ '/'

theorem EndsInName.suffix {path path' : List Char} (h : EndsInName path)
    (hsuffix : path' <:+ path) : EndsInName path' := by
  intro c hc
  obtain ⟨front, rfl⟩ := hsuffix
  exact h c (mem_getLast?_append_of_mem_getLast? hc)

section Loop

variable {sCwd : Buffer} {names : List Name} {fuel : ℕ} {path behind : List Char}

section

variable (hpath : path ≠ [])
include hpath

section

variable (hnul : nul ∉ path)
include hnul

theorem addStringLoop_round (hcut : path.dropWhile (· = '/') = name ++ rest) :
    addStringLoop (fuel + 1) (path ++ nul :: behind) sCwd j =
      if (name ++ (rest ++ nul :: behind)).take 2 = ['.', '.'] then do
        let (sCwd, j) ← goBack sCwd j
        let j ← skipForward sCwd (pathMax - j) j
        addStringLoop fuel (((name ++ (rest ++ nul :: behind)).drop 2).dropWhile (· = '/')) sCwd j
      else if (name ++ (rest ++ nul :: behind)).head? = some '.' then
        addStringLoop fuel ((name ++ (rest ++ nul :: behind)).drop 2) sCwd j
      else (do
        let (sCwd, j, dirName) ← copyName sCwd j (name ++ (rest ++ nul :: behind))
        let sCwd ← writeAt sCwd j '/'
        addStringLoop fuel (if dirName.head? = some '/' then dirName.tail else dirName)
          sCwd (j + 1)) := by
  have hhead : (path ++ nul :: behind).head? ≠ some nul := by
    obtain ⟨c, path, rfl⟩ := exists_cons_of_ne_nil hpath
    intro heq
    exact hnul (some.inj heq ▸ mem_cons_self)
  have hskip : (path ++ nul :: behind).dropWhile (· = '/') = name ++ (rest ++ nul :: behind) := by
    rw [dropWhile_append_nul, hcut, append_assoc]
  have hne : name ++ (rest ++ nul :: behind) ≠ [] := by simp
  rw [addStringLoop, if_neg (by simp), if_neg hhead]
  rw [hskip, if_neg hne]

theorem addStringLoop_parent (hcut : path.dropWhile (· = '/') = ['.', '.'] ++ rest)
    (hne : name ≠ []) (hname : '/' ∉ name) (hholds : Holds sCwd (written (name :: names)))
    (hlt : (written (name :: names)).length < pathMax) :
    ∃ sCwd', Holds sCwd' (written names) ∧ addStringLoop (fuel + 1) (path ++ nul :: behind) sCwd
        (written (name :: names)).length =
      addStringLoop fuel (rest.dropWhile (· = '/') ++ nul :: behind) sCwd'
        (written names).length := by
  obtain ⟨base, hbase⟩ := written_eq_append names
  have hlength : (base ++ ['/']).length = base.length + 1 := length_append
  rw [written_cons, hbase] at hholds hlt ⊢
  obtain ⟨sCwd', hback, hholds', hend⟩ := goBack_of_holds hne hname hholds hlt
  have hshort : base.length + 2 ≤ pathMax := by
    rw [length_append] at hlt
    omega
  have hskip : skipForward sCwd' (pathMax - base.length) base.length = .ok (base.length + 1) := by
    apply skipForward_of_eq (hholds'.right (i := 0) rfl)
    · rw [hend]
      decide
    · omega
  have htake : (['.', '.'] ++ (rest ++ nul :: behind)).take 2 = ['.', '.'] := rfl
  refine ⟨sCwd', hholds', ?_⟩
  rw [addStringLoop_round hpath hnul hcut, hback, hlength]
  show (do
    let j ← skipForward sCwd' (pathMax - base.length) base.length
    addStringLoop fuel ((rest ++ nul :: behind).dropWhile (· = '/')) sCwd' j) = _
  rw [hskip, dropWhile_append_nul]
  rfl

theorem addStringLoop_self (hcut : path.dropWhile (· = '/') = ['.'] ++ '/' :: rest) :
    addStringLoop (fuel + 1) (path ++ nul :: behind) sCwd j =
      addStringLoop fuel (rest ++ nul :: behind) sCwd j := by
  have htake : (['.'] ++ ('/' :: rest ++ nul :: behind)).take 2 ≠ ['.', '.'] := by simp
  have hhead : (['.'] ++ ('/' :: rest ++ nul :: behind)).head? = some '.' := rfl
  rw [addStringLoop_round hpath hnul hcut]
  rfl

section

variable (hcut : path.dropWhile (· = '/') = name ++ rest) (hne : name ≠ []) (hname : '/' ∉ name)
include hcut hne hname

theorem addStringLoop_name (hdot : name.head? ≠ some '.')
    (hrest : rest = [] ∨ ∃ rest', rest = '/' :: rest') (hholds : Holds sCwd (written names))
    (hlt : (written (name :: names)).length < pathMax) :
    ∃ sCwd', Holds sCwd' (written (name :: names)) ∧
      addStringLoop (fuel + 1) (path ++ nul :: behind) sCwd (written names).length =
        addStringLoop fuel (rest.drop 1 ++ nul :: behind) sCwd'
          (written (name :: names)).length := by
  have hnul' : nul ∉ name := by
    intro hmem
    apply hnul
    apply (dropWhile_suffix (· = '/')).mem
    rw [hcut]
    exact mem_append_left rest hmem
  have hhead : (name ++ (rest ++ nul :: behind)).head? ≠ some '.' := by
    rwa [head?_append_of_ne_nil _ hne]
  have htake : (name ++ (rest ++ nul :: behind)).take 2 ≠ ['.', '.'] := by
    intro htake
    have htwo := congrArg head? htake
    rw [head?_take] at htwo
    exact hhead htwo
  have hwritten : written (name :: names) = written names ++ name ++ ['/'] := by
    rw [written_cons, append_assoc]
  rw [hwritten] at hlt ⊢
  have hlength : (written names ++ name ++ ['/']).length =
      (written names ++ name).length + 1 := length_append
  rw [hlength] at hlt ⊢
  -- Behind the name there is a slash or the null character.
  obtain ⟨e, rest', he, hmemory, hnext⟩ : ∃ e rest', ¬ (e ≠ '/' ∧ e ≠ nul) ∧
      rest ++ nul :: behind = e :: rest' ∧
      (if (e :: rest').head? = some '/' then (e :: rest').tail else e :: rest') =
        rest.drop 1 ++ nul :: behind := by
    rcases hrest with rfl | ⟨rest', rfl⟩
    · exact ⟨nul, behind, fun h => h.2 rfl, rfl, rfl⟩
    · exact ⟨'/', rest' ++ nul :: behind, fun h => h.1 rfl, rfl, rfl⟩
  obtain ⟨sCwd', hcopy, hholds'⟩ := @copyName_of_holds rest' name sCwd _ e hne
    hname hnul' he hholds (le_of_lt (lt_of_succ_lt hlt))
  refine ⟨_, hholds'.write '/', ?_⟩
  rw [addStringLoop_round hpath hnul hcut, if_neg htake, if_neg hhead, hmemory, hcopy]
  show (do
    let sCwd ← writeAt sCwd' (written names ++ name).length '/'
    addStringLoop fuel (if (e :: rest').head? = some '/' then (e :: rest').tail else e :: rest')
      sCwd ((written names ++ name).length + 1)) = _
  rw [writeAt_of_lt (lt_of_succ_lt hlt), hnext]
  rfl

theorem addStringLoop_component (hrest : rest = [] ∨ ∃ rest', rest = '/' :: rest')
    (hvalid : ∀ n ∈ names, n ≠ [] ∧ '/' ∉ n)
    (hfollows : Follows names (name :: components '/' rest)) (hholds : Holds sCwd (written names))
    (hlt : (written names).length < pathMax) :
    ∃ path' sCwd', path' <:+ rest ∧ components '/' path' = components '/' rest ∧
      Holds sCwd' (written (enter names name)) ∧
      addStringLoop (fuel + 1) (path ++ nul :: behind) sCwd (written names).length =
        addStringLoop fuel (path' ++ nul :: behind) sCwd' (written (enter names name)).length := by
  obtain ⟨hdots, hself, hparent, hfits, -⟩ := hfollows
  by_cases hdot : name = ['.']
  · have hmore := hself hdot
    rw [enter, if_pos hdot]
    rcases hrest with rfl | ⟨rest', rfl⟩
    · exact absurd (components_nil '/') hmore
    · rw [hdot] at hcut
      exact ⟨rest', sCwd, suffix_cons _ _, (components_cons_sep _ _).symm,
        hholds, addStringLoop_self hpath hnul hcut⟩
  by_cases hdotdot : name = ['.', '.']
  · obtain ⟨n, names, rfl⟩ := exists_cons_of_ne_nil (hparent hdotdot)
    obtain ⟨hn, hslash⟩ := hvalid n mem_cons_self
    rw [hdotdot] at hcut
    obtain ⟨sCwd', hholds', hround⟩ := addStringLoop_parent hpath hnul hcut hn hslash hholds hlt
    rw [enter, if_neg hdot, if_pos hdotdot]
    exact ⟨_, sCwd', dropWhile_suffix _, components_dropWhile _ _, hholds', hround⟩
  · have hhead : name.head? ≠ some '.' := fun h => (hdots h).elim hdot hdotdot
    rw [enter, if_neg hdot, if_neg hdotdot] at hfits ⊢
    obtain ⟨sCwd', hholds', hround⟩ := addStringLoop_name
      hpath hnul hcut hne hname hhead hrest hholds hfits
    refine ⟨_, sCwd', drop_suffix 1 rest, ?_, hholds', hround⟩
    rcases hrest with rfl | ⟨rest', rfl⟩
    · rfl
    · exact (components_cons_sep _ _).symm

end

end

end

theorem enter_valid (hvalid : ∀ n ∈ names, n ≠ [] ∧ '/' ∉ n) (hne : name ≠ [])
    (hname : '/' ∉ name) : ∀ n ∈ enter names name, n ≠ [] ∧ '/' ∉ n := by
  unfold enter
  split_ifs
  · exact hvalid
  · exact fun n hn => hvalid n (mem_of_mem_tail hn)
  · exact forall_mem_cons.mpr ⟨⟨hne, hname⟩, hvalid⟩

theorem addStringLoop_follows (hnul : nul ∉ path) (hends : EndsInName path)
    (hvalid : ∀ n ∈ names, n ≠ [] ∧ '/' ∉ n) (hfollows : Follows names (components '/' path))
    (hholds : Holds sCwd (written names)) (hlt : (written names).length < pathMax)
    (hfuel : path.length < fuel) :
    ∃ sCwd' names', names' = (components '/' path).foldl enter names ∧
      addStringLoop fuel (path ++ nul :: behind) sCwd (written names).length =
        .ok (sCwd', (written names').length) ∧
      Holds sCwd' (written names') ∧ (written names').length < pathMax := by
  induction fuel generalizing path names sCwd with
  | zero => exact absurd hfuel (not_lt_zero _)
  | succ fuel ih =>
    by_cases hpath : path = []
    · subst hpath
      refine ⟨sCwd, names, by rw [components_nil]; rfl, ?_, hholds, hlt⟩
      rw [nil_append, addStringLoop, if_neg (cons_ne_nil _ _), if_pos head?_cons]
    obtain ⟨name, rest, hcut, hne, hname, hrest, hcomponents⟩ :=
      exists_first_component (dropWhile_ne_nil hpath hends)
    rw [hcomponents] at hfollows ⊢
    obtain ⟨path', sCwd', hsuffix, hsame, hholds', hround⟩ :=
      @addStringLoop_component rest name sCwd names fuel path behind hpath hnul
        hcut hne hname hrest hvalid hfollows hholds hlt
    obtain ⟨-, -, -, hfits, hfollows⟩ := hfollows
    rw [hround, ← hsame]
    rw [← hsame] at hfollows
    -- The rest of the path is a shorter suffix.
    have hdrop := dropWhile_suffix (l := path) (· = '/')
    rw [hcut] at hdrop
    have hpath' := (hsuffix.trans (suffix_append name rest)).trans hdrop
    have hshort : path'.length < fuel := by
      have hpos := length_pos_iff.mpr hne
      have hle := hsuffix.length_le
      have hle' := hdrop.length_le
      rw [length_append] at hle'
      omega
    exact ih (fun hmem => hnul (hpath'.mem hmem)) (hends.suffix hpath')
      (enter_valid hvalid hne hname) hfollows hholds' hfits hshort

end Loop

def startNames (names : List Name) (path : List Char) : List Name :=
  if path.head? = some '/' then [] else names

theorem holds_slashString (sCwd : Buffer) : Holds (slashString sCwd) (written []) := by
  intro i c hc
  cases i with
  | zero => exact some.inj hc
  | succ i => cases hc

section AddStringPath

variable {sCwd : Buffer} {names : List Name} {path behind : List Char}

theorem addStringPath_start (hcontains : Contains sCwd (written names)) (hpath : path ≠ []) :
    ∃ path' sCwd', path' <:+ path ∧ components '/' path' = components '/' path ∧
      Holds sCwd' (written (startNames names path)) ∧
      (written (startNames names path)).length < pathMax ∧
      addStringPath sCwd (path ++ nul :: behind) = (do
        let (sCwd, j) ← addStringLoop ((path ++ nul :: behind).length + 1)
          (path' ++ nul :: behind) sCwd' (written (startNames names path)).length
        writeAt sCwd j nul) := by
  have hhead : (path ++ nul :: behind).head? = path.head? :=
    head?_append_of_ne_nil _ hpath
  unfold addStringPath startNames
  rw [hhead]
  by_cases habsolute : path.head? = some '/'
  · obtain ⟨rest, rfl⟩ := head?_eq_some_iff.mp habsolute
    rw [if_pos habsolute]
    exact ⟨rest, _, suffix_cons _ _, (components_cons_sep _ _).symm,
      holds_slashString sCwd, by decide, rfl⟩
  · rw [if_neg habsolute, if_neg habsolute, hcontains.strlen]
    exact ⟨path, sCwd, suffix_refl _, rfl, hcontains.holds, hcontains.short, rfl⟩

theorem addStringPath_follows (hcontains : Contains sCwd (written names))
    (hvalid : ∀ n ∈ names, n ≠ [] ∧ '/' ∉ n) (hpath : path ≠ []) (hnul : nul ∉ path)
    (hends : EndsInName path) (hfollows : Follows (startNames names path) (components '/' path)) :
    ∃ sCwd' names', names' = (components '/' path).foldl enter (startNames names path) ∧
      addStringPath sCwd (path ++ nul :: behind) = .ok sCwd' ∧
      Holds sCwd' (written names') ∧ sCwd' (written names').length = nul ∧
      (written names').length < pathMax := by
  obtain ⟨path', sCwd', hsuffix, hsame, hholds, hlt, hstart⟩ :=
    @addStringPath_start sCwd names path behind hcontains hpath
  have hvalid' : ∀ n ∈ startNames names path, n ≠ [] ∧ '/' ∉ n := by
    unfold startNames
    split_ifs
    · exact nofun
    · exact hvalid
  have hfuel : path'.length < (path ++ nul :: behind).length + 1 := by
    have hle := hsuffix.length_le
    rw [length_append]
    omega
  rw [← hsame] at hfollows ⊢
  obtain ⟨sCwd'', names', hnames', hloop, hholds', hlt'⟩ :=
    @addStringLoop_follows sCwd' _ _ path' behind
      (fun hmem => hnul (hsuffix.mem hmem)) (hends.suffix hsuffix) hvalid' hfollows
      hholds hlt hfuel
  refine ⟨update sCwd'' (written names').length nul, names', hnames', ?_,
    hholds'.ended nul, update_self _ _ _, hlt'⟩
  rw [hstart, hloop]
  exact writeAt_of_lt hlt' nul

end AddStringPath

end Whitix.WorkingDir
