import Whitix.Video.Console

/-!
# Writing to a console in the background

A console that is not the current one should look, when it is changed to, as if
it had been the current one while it was written to.  The functions treat the
screen and the buffers alike except in three places: a buffer does not scroll,
a backspace stores the color in the wrong cell, and the erasure to the end of a
line starts in the wrong cell.  A tab near the end of the last line is stored
behind the buffer.
-/

namespace Whitix.Video

open Function Nat Option

/-! ## Consoles that look alike -/

variable (cons : Console)

structure OnScreen : Prop where
  left : 0 ≤ cons.currX
  right : cons.currX < 80
  top : 0 ≤ cons.currY
  bottom : cons.currY < 25

instance : Decidable (OnScreen cons) :=
  decidable_of_iff ((0 ≤ cons.currX ∧ cons.currX < 80) ∧ 0 ≤ cons.currY ∧ cons.currY < 25)
    ⟨fun h => ⟨h.1.1, h.1.2, h.2.1, h.2.2⟩, fun h => ⟨⟨h.left, h.right⟩, h.top, h.bottom⟩⟩

def CursorStays (s : System) (index : ℕ) : List UInt8 → Prop
  | [] => OnScreen (s.consoles index)
  | c :: str => OnScreen (s.consoles index) ∧
      ∀ s', writeByte s index c = some s' → CursorStays s' index str

instance decidableCursorStays (index : ℕ) :
    ∀ (str : List UInt8) (s : System), Decidable (CursorStays s index str)
  | [], s => inferInstanceAs (Decidable (OnScreen (s.consoles index)))
  | c :: str, s =>
    have := decidableCursorStays index str
    inferInstanceAs (Decidable (OnScreen (s.consoles index) ∧
      ∀ s' ∈ writeByte s index c, CursorStays s' index str))

/-- Writing in the background and then changing to the console gives the same as
changing to it and writing then, and the other buffers keep their contents. -/
def WritesAlike (s : System) (index : ℕ) (str : List UInt8) : Prop :=
  ∃ b f, consoleWriteString s index str = some b ∧
    consoleWriteString (changeConsole s index) index str = some f ∧
    (∀ k, 0 ≤ k → k < consoleSize → (changeConsole b index).screen k = f.screen k) ∧
    (changeConsole b index).consoles index = f.consoles index ∧
    (changeConsole b index).position = f.position ∧
    ∀ other < maxConsoles, other ≠ index → ∀ k, 0 ≤ k → k < consoleSize →
      b.scrBuf (consoleSize * other + k) = s.scrBuf (consoleSize * other + k)

/-- A character after which the screen does not scroll, and which is stored in the
same cells of the buffer as of the screen. -/
def SafePrint (c : UInt8) : Prop :=
  if c = 0x0D then True
  else if c = 0x0A then cons.currY ≠ 24
  else if c = 0x08 then cons.currX = 0 ∨ cons.currX - 1 = cons.currY
  else if c = 0x09 then cons.currY < 24 ∨ cons.currX ≤ 65
  else ¬ (cons.currY = 24 ∧ cons.currX = 79)
  deriving Decidable

/-- A command that does not erase to the end of a line from its middle. -/
def SafeCommand (c : UInt8) : Prop :=
  c = 0x4B → cons.params 0 = 0 → cons.currX = 0
  deriving Decidable

def Safe (c : UInt8) : Prop :=
  if c = 0x1B then True
  else if cons.inCtrl then
    if c = 0x5B then True
    else if cons.ctrlParams then
      if c = 0x3B then True
      else if c < 0x30 ∨ 0x39 < c then SafeCommand cons c
      else cons.paramIndex < 16
    else if cons.cmdLetter then SafeCommand cons c
    else SafePrint cons c
  else SafePrint cons c
  deriving Decidable

def SafeBytes (s : System) (index : ℕ) : List UInt8 → Prop
  | [] => True
  | c :: str => Safe (s.consoles index) c ∧
      ∀ s', writeByte s index c = some s' → SafeBytes s' index str

instance decidableSafeBytes (index : ℕ) :
    ∀ (str : List UInt8) (s : System), Decidable (SafeBytes s index str)
  | [], _ => isTrue trivial
  | c :: str, s =>
    have := decidableSafeBytes index str
    inferInstanceAs (Decidable (Safe (s.consoles index) c ∧
      ∀ s' ∈ writeByte s index c, SafeBytes s' index str))

/-! ## Simulation -/

/-- The console `index` in the foreground of `f` and in the background of `b`. -/
structure Mirror (index : ℕ) (f b : System) : Prop where
  front : f.currConsole = index
  back : b.currConsole ≠ index
  console : f.consoles index = b.consoles index
  cells : ∀ k, 0 ≤ k → k < consoleSize → f.screen k = b.scrBuf (consoleSize * index + k)

/-- Nothing but the buffer and the state of the console has changed. -/
structure Frame (index : ℕ) (b b' : System) : Prop where
  scrBuf : ∀ k, (k < consoleSize * index ∨ consoleSize * index + consoleSize ≤ k) →
    b'.scrBuf k = b.scrBuf k
  screen : b'.screen = b.screen
  currConsole : b'.currConsole = b.currConsole
  graphics : (b'.consoles index).graphics = (b.consoles index).graphics

theorem Frame.refl (index : ℕ) (b : System) : Frame index b b :=
  ⟨fun _ _ => rfl, rfl, rfl, rfl⟩

variable {i k : ℤ} {str : List UInt8} {c : UInt8}

variable {b₁ b b₂ s : System} {index : ℕ}

theorem Frame.trans (h₁ : Frame index b b₁) (h₂ : Frame index b₁ b₂) : Frame index b b₂ :=
  ⟨fun k hk => (h₂.scrBuf k hk).trans (h₁.scrBuf k hk),
    h₂.screen.trans h₁.screen, h₂.currConsole.trans h₁.currConsole,
    h₂.graphics.trans h₁.graphics⟩

/-- A step in the foreground and in the background. -/
structure Alike (index : ℕ) (b f' b' : System) : Prop where
  mirror : Mirror index f' b'
  frame : Frame index b b'

theorem Alike.trans {f₁ f₂ : System} (h₁ : Alike index b f₁ b₁) (h₂ : Alike index b₁ f₂ b₂) :
    Alike index b f₂ b₂ :=
  ⟨h₂.mirror, h₁.frame.trans h₂.frame⟩

section Steps

variable {f : System} (h : Mirror index f b)

@[simp]
theorem setConsole_self (s : System) (cons : Console) :
    (s.setConsole index cons).consoles index = cons :=
  update_self _ _ _

theorem store_consoles (s : System) (i j : ℤ) (value : UInt8) :
    (store s index i j value).consoles = s.consoles := by
  unfold store
  split <;> rfl

theorem setGraphics_graphics (param : UInt32) :
    (setGraphics cons param).graphics = cons.graphics := by
  unfold setGraphics
  split_ifs <;> rfl

theorem storeCell_consoles (s : System) (cell : ℤ) (c color : UInt8) :
    (storeCell s index cell c color).consoles = s.consoles :=
  (store_consoles _ _ _ _).trans (store_consoles _ _ _ _)

include h

theorem Mirror.alike : Alike index b f b := ⟨h, Frame.refl index b⟩

theorem Mirror.setConsole (cons : Console)
    (hgraphics : cons.graphics = (b.consoles index).graphics) :
    Alike index b (f.setConsole index cons) (b.setConsole index cons) where
  mirror :=
    { h with
      console := by rw [setConsole_self, setConsole_self] }
  frame := ⟨fun _ _ => rfl, rfl, rfl, by rw [setConsole_self, hgraphics]⟩

theorem Mirror.store (hlow : 0 ≤ i) (hhigh : i < consoleSize) (value : UInt8) :
    Alike index b (store f index i i value) (store b index i i value) := by
  unfold Video.store
  rw [if_pos h.front, if_neg h.back]
  refine ⟨⟨h.front, h.back, h.console, fun k hk hk' => ?_⟩,
    ⟨fun k hk => update_of_ne (by omega) _ _, rfl, rfl, rfl⟩⟩
  by_cases heq : k = i
  · dsimp only
    rw [heq, update_self, update_self]
  · dsimp only
    rw [update_of_ne heq, update_of_ne (by omega)]
    exact h.cells k hk hk'

theorem Mirror.storeCell (hlow : 0 ≤ k) (hhigh : k + 1 < consoleSize) (c color : UInt8) :
    Alike index b (storeCell f index k c color) (storeCell b index k c color) := by
  have hfirst := h.store hlow (by omega) c
  exact hfirst.trans (hfirst.mirror.store (by omega) hhigh color)

theorem Mirror.consoleUpdateCursorPos :
    Alike index b (consoleUpdateCursorPos f index) (consoleUpdateCursorPos b index) := by
  have hback : Video.consoleUpdateCursorPos b index = b := if_pos h.back.symm
  have hfront : Video.consoleUpdateCursorPos f index =
      { f with position := ((f.consoles f.currConsole).currY * 80 +
        (f.consoles f.currConsole).currX) % 0x10000 } :=
    if_neg fun hne => hne h.front.symm
  rw [hback, hfront]
  exact ⟨{ h with }, Frame.refl index b⟩

theorem Mirror.memsetw (hlow : 0 ≤ i) {size : ℕ}
    (hhigh : i + 2 * size ≤ consoleSize) (color : UInt8) :
    Alike index b (memsetw f index i i color size) (memsetw b index i i color size) := by
  induction size generalizing f b i with
  | zero => exact h.alike
  | succ size ih =>
    have hfirst := h.store hlow (by omega) 0x20
    have hsecond := hfirst.mirror.store (i := i + 1) (by omega) (by omega) color
    have hrest := ih hsecond.mirror (i := i + 2) (by omega) (by omega)
    exact (hfirst.trans hsecond).trans hrest

theorem Mirror.consoleNewLine (hline : (b.consoles index).currY + 1 ≠ 25) :
    Alike index b (consoleNewLine f index) (consoleNewLine b index) := by
  unfold Video.consoleNewLine
  rw [h.console]
  dsimp only
  rw [if_neg hline, if_neg hline]
  have hset := h.setConsole { b.consoles index with
    currX := 0, currY := (b.consoles index).currY + 1 } rfl
  exact hset.trans hset.mirror.consoleUpdateCursorPos

theorem Mirror.advance
    (hline : 80 ≤ (b.consoles index).currX + 1 → (b.consoles index).currY + 1 ≠ 25) :
    Alike index b (advance f index) (advance b index) := by
  unfold Video.advance
  rw [h.console]
  have hset := h.setConsole { b.consoles index with
    currX := (b.consoles index).currX + 1 } rfl
  by_cases hwrap : 80 ≤ (b.consoles index).currX + 1
  · rw [if_pos hwrap, if_pos hwrap]
    refine hset.trans (hset.mirror.consoleNewLine ?_)
    rw [setConsole_self]
    exact hline hwrap
  · rw [if_neg hwrap, if_neg hwrap]
    exact hset

omit h in
theorem consoleUpdateCursorPos_consoles (s : System) (console : ℕ) :
    (consoleUpdateCursorPos s console).consoles = s.consoles := by
  unfold Video.consoleUpdateCursorPos
  split <;> rfl

omit h in
theorem advance_consoles
    (hline : 80 ≤ (s.consoles index).currX + 1 → (s.consoles index).currY + 1 ≠ 25) :
    (advance s index).consoles index = if 80 ≤ (s.consoles index).currX + 1 then
      { s.consoles index with
        currX := 0, currY := (s.consoles index).currY + 1 }
      else
        { s.consoles index with currX := (s.consoles index).currX + 1 } := by
  unfold Video.advance
  dsimp only
  split
  · next hwrap =>
    unfold Video.consoleNewLine
    rw [setConsole_self]
    dsimp only
    rw [if_neg (hline hwrap), consoleUpdateCursorPos_consoles, setConsole_self]
  · rw [setConsole_self]

/-- The cells of a tab, which are not next to each other. -/
theorem Mirror.writeTab {n : ℕ} (hi : 0 ≤ i) (hin : i + 2 * n = 16)
    (hscreen : OnScreen (b.consoles index))
    (hroom : (b.consoles index).currY < 24 ∨ (b.consoles index).currX + n ≤ 73) :
    Alike index b (writeTab f index i n) (writeTab b index i n) := by
  induction n generalizing f b i with
  | zero => exact h.alike
  | succ n ih =>
    obtain ⟨hleft, hright, htop, hbottom⟩ := hscreen
    have hsize : consoleSize = 4000 := rfl
    rw [Video.writeTab, Video.writeTab, h.console]
    have hstored := h.storeCell
      (k := (b.consoles index).currY * 160 + (b.consoles index).currX * 2 + i)
      (by omega) (by omega) 0x20 (b.consoles index).currColor.toUInt8
    have hline : 80 ≤ (b.consoles index).currX + 1 → (b.consoles index).currY + 1 ≠ 25 := by omega
    rw [← storeCell_consoles b _ 0x20 (b.consoles index).currColor.toUInt8] at hline
    have hadvance := hstored.mirror.advance hline
    refine (hstored.trans hadvance).trans (ih hadvance.mirror (by omega) (by omega) ?_ ?_)
    all_goals
      rw [advance_consoles hline, storeCell_consoles]
    · split <;> constructor <;> dsimp only <;> omega
    · split <;> dsimp only <;> omega

theorem Mirror.backspace (hscreen : OnScreen (b.consoles index))
    (hsafe : (b.consoles index).currX = 0 ∨
      (b.consoles index).currX - 1 = (b.consoles index).currY) :
    Alike index b (consoleWrite f index 0x08) (consoleWrite b index 0x08) := by
  obtain ⟨hleft, hright, htop, hbottom⟩ := hscreen
  have hsize : consoleSize = 4000 := rfl
  unfold Video.consoleWrite
  rw [h.console]
  by_cases hgraphics : (b.consoles index).graphics = true
  · rw [if_pos hgraphics, if_pos hgraphics]
    exact h.alike
  rw [if_neg hgraphics, if_neg hgraphics]
  by_cases hpositive : 0 < (b.consoles index).currX
  · have hdiagonal : (b.consoles index).currX - 1 = (b.consoles index).currY := by omega
    have hset := h.setConsole { b.consoles index with
      currX := (b.consoles index).currX - 1 } rfl
    have hcell := hset.mirror.storeCell
      (k := (b.consoles index).currY * 160 + (b.consoles index).currY * 2)
      (by omega) (by omega) 0x20 (b.consoles index).currColor.toUInt8
    simp only [if_pos hpositive, hdiagonal]
    rw [hdiagonal] at hset hcell
    exact hset.trans hcell
  · simp only [if_neg hpositive]
    exact h.alike

theorem Mirror.consoleWrite (hscreen : OnScreen (b.consoles index))
    (hsafe : SafePrint (b.consoles index) c) :
    Alike index b (consoleWrite f index c) (consoleWrite b index c) := by
  unfold SafePrint at hsafe
  by_cases hback : c = 0x08
  · subst hback
    exact h.backspace hscreen hsafe
  obtain ⟨hleft, hright, htop, hbottom⟩ := id hscreen
  have hsize : consoleSize = 4000 := rfl
  unfold Video.consoleWrite
  rw [h.console]
  by_cases hgraphics : (b.consoles index).graphics = true
  · rw [if_pos hgraphics, if_pos hgraphics]
    exact h.alike
  rw [if_neg hgraphics, if_neg hgraphics]
  by_cases hreturn : c = 0x0D
  · rw [if_pos hreturn, if_pos hreturn]
    exact h.alike
  rw [if_neg hreturn] at hsafe ⊢
  rw [if_neg hreturn]
  by_cases hnewline : c = 0x0A
  · rw [if_pos hnewline] at hsafe ⊢
    rw [if_pos hnewline]
    exact h.consoleNewLine (by omega)
  rw [if_neg hnewline, if_neg hback] at hsafe ⊢
  rw [if_neg hnewline, if_neg hback]
  by_cases htab : c = 0x09
  · rw [if_pos htab] at hsafe ⊢
    rw [if_pos htab]
    refine h.writeTab (by decide) (by decide) hscreen ?_
    omega
  rw [if_neg htab] at hsafe ⊢
  rw [if_neg htab]
  have hcell := h.storeCell (k := (b.consoles index).currY * 160 + (b.consoles index).currX * 2)
    (by omega) (by omega) c (b.consoles index).currColor.toUInt8
  refine hcell.trans (hcell.mirror.advance ?_)
  rw [storeCell_consoles]
  omega

/-! ## Control sequences -/

theorem Mirror.moveTo (x y : ℤ) : Alike index b (moveTo f index x y) (moveTo b index x y) := by
  unfold Video.moveTo
  rw [h.console]
  have hset := h.setConsole { b.consoles index with currX := x, currY := y } rfl
  exact hset.trans hset.mirror.consoleUpdateCursorPos

theorem Mirror.consoleClearScreen :
    Alike index b (consoleClearScreen f index) (consoleClearScreen b index) := by
  unfold Video.consoleClearScreen
  rw [h.console]
  dsimp only
  split
  · exact h.alike
  · have hcleared : Alike index b (Video.memsetw f index 0 0 7 2000)
        (Video.memsetw b index 0 0 7 2000) :=
      h.memsetw (by decide) (by decide) 7
    have hset := hcleared.mirror.setConsole { b.consoles index with
      currX := 0, currY := 0 } hcleared.frame.graphics.symm
    exact (hcleared.trans hset).trans hset.mirror.consoleUpdateCursorPos

theorem Mirror.eraseLine (hscreen : OnScreen (b.consoles index))
    {param : UInt32} (hsafe : param = 0 → (b.consoles index).currX = 0) :
    Alike index b (eraseLine f index param) (eraseLine b index param) := by
  obtain ⟨hleft, hright, htop, hbottom⟩ := hscreen
  have hsize : consoleSize = 4000 := rfl
  have hline : 0 ≤ (b.consoles index).currY * 160 := by omega
  unfold Video.eraseLine
  rw [h.console]
  dsimp only
  split_ifs with hzero hone htwo
  · rw [hsafe hzero]
    have hsame : (b.consoles index).currY * 160 + 0 * 2 =
        (b.consoles index).currY * 160 + 0 := by omega
    rw [hsame]
    exact h.memsetw (by omega) (by omega) _
  · exact h.memsetw hline (by omega) _
  · exact h.memsetw hline (by omega) _
  · exact h.alike

theorem Mirror.setPosition : Alike index b (setPosition f index) (setPosition b index) := by
  unfold Video.setPosition
  rw [h.console]
  have hset := h.setConsole { b.consoles index with
    params := update (update (b.consoles index).params 0
      (if 25 ≤ (b.consoles index).params 0 then 25
        else (b.consoles index).params 0)) 1
      (if 80 ≤ (b.consoles index).params 1 then 80
        else (b.consoles index).params 1) } rfl
  exact hset.trans (hset.mirror.moveTo _ _)

section

variable (hscreen : OnScreen (b.consoles index))
include hscreen

theorem Mirror.command (hsafe : SafeCommand (b.consoles index) c) :
    Alike index b (command f index c) (command b index c) := by
  unfold Video.command
  rw [h.console]
  split_ifs with hright hleft hclear hmove herase hgraphics
  · exact h.moveTo _ _
  · exact h.moveTo _ _
  · exact h.consoleClearScreen
  · exact h.setPosition
  · exact h.eraseLine hscreen (hsafe herase)
  · exact h.setConsole _ (setGraphics_graphics _ _)
  · exact h.alike

theorem Mirror.endSequence (hsafe : SafeCommand (b.consoles index) c) :
    Alike index b (endSequence f index c) (endSequence b index c) := by
  have hcommand := h.command hscreen hsafe
  unfold Video.endSequence
  dsimp only
  rw [hcommand.mirror.console]
  exact hcommand.trans (hcommand.mirror.setConsole _ rfl)

/-! ## Strings -/

theorem Mirror.writeByte (hsafe : Safe (b.consoles index) c) :
    ∃ f' b', writeByte f index c = some f' ∧ writeByte b index c = some b' ∧
      Alike index b f' b' := by
  unfold Safe at hsafe
  unfold Video.writeByte
  rw [h.console]
  dsimp only
  -- The cases of `hsafe` decide those of the two calls.
  split_ifs at hsafe
  all_goals split_ifs
  · exact ⟨_, _, rfl, rfl, h.setConsole _ rfl⟩
  · exact ⟨_, _, rfl, rfl, h.setConsole _ rfl⟩
  · exact ⟨_, _, rfl, rfl, h.setConsole _ rfl⟩
  · have hset := h.setConsole { b.consoles index with
      cmdLetter := true, ctrlParams := false } rfl
    refine ⟨_, _, rfl, rfl, hset.trans (hset.mirror.endSequence ?_ ?_)⟩
    · rw [setConsole_self]
      exact { hscreen with }
    · rw [setConsole_self]
      exact hsafe
  · exact ⟨_, _, rfl, rfl, h.setConsole _ rfl⟩
  · exact ⟨_, _, rfl, rfl, h.endSequence hscreen hsafe⟩
  · exact ⟨_, _, rfl, rfl, h.consoleWrite hscreen hsafe⟩
  · exact ⟨_, _, rfl, rfl, h.consoleWrite hscreen hsafe⟩

end

theorem Mirror.writeBytes (hstays : CursorStays b index str) (hsafe : SafeBytes b index str) :
    ∃ f' b', writeBytes f index str = some f' ∧
      writeBytes b index str = some b' ∧ Alike index b f' b' := by
  induction str generalizing f b with
  | nil => exact ⟨f, b, rfl, rfl, h.alike⟩
  | cons c str ih =>
    obtain ⟨f₁, b₁, hf₁, hb₁, halike₁⟩ := h.writeByte hstays.1 hsafe.1
    obtain ⟨f', b', hf', hb', halike'⟩ := ih halike₁.mirror (hstays.2 b₁ hb₁) (hsafe.2 b₁ hb₁)
    refine ⟨f', b', ?_, ?_, halike₁.trans halike'⟩
    · rw [Video.writeBytes, hf₁, bind_some, hf']
    · rw [Video.writeBytes, hb₁, bind_some, hb']

end Steps

/-- A text console that is not the current one. -/
structure InBackground (s : System) (index : ℕ) : Prop where
  text : (s.consoles index).graphics = false
  index_lt : index < maxConsoles
  other : s.currConsole ≠ index

section Change

variable (h : InBackground s index)

include h

theorem InBackground.not_skipped :
    ¬ ((s.consoles index).graphics = true ∨ s.currConsole = index) := by
  simp [h.text, h.other]

theorem InBackground.changeConsole_screen (hk : 0 ≤ k) (hk' : k < consoleSize) :
    (changeConsole s index).screen k = s.scrBuf (consoleSize * index + k) := by
  have hother := h.other
  have hcells : ¬ (consoleSize * s.currConsole ≤ consoleSize * index + k ∧
      consoleSize * index + k < consoleSize * s.currConsole + consoleSize) := by
    unfold consoleSize at hk' ⊢
    omega
  unfold changeConsole
  rw [if_neg h.not_skipped, if_neg (Nat.not_le.mpr h.index_lt)]
  unfold consoleUpdateCursorPos
  rw [if_neg (fun hne => hne rfl)]
  dsimp only
  rw [if_pos ⟨hk, hk'⟩, if_neg hcells]

theorem InBackground.changeConsole_eq :
    (changeConsole s index).currConsole = index ∧ (changeConsole s index).consoles = s.consoles ∧
      (changeConsole s index).position = ((s.consoles index).currY * 80 +
        (s.consoles index).currX) % 0x10000 := by
  unfold changeConsole
  rw [if_neg h.not_skipped, if_neg (Nat.not_le.mpr h.index_lt)]
  unfold consoleUpdateCursorPos
  rw [if_neg (fun hne => hne rfl)]
  exact ⟨rfl, rfl, rfl⟩

theorem InBackground.mirror : Mirror index (changeConsole s index) s where
  front := h.changeConsole_eq.1
  back := h.other
  console := by rw [h.changeConsole_eq.2.1]
  cells _ hk hk' := h.changeConsole_screen hk hk'

end Change

/-- A string that is written in the background looks the same as in the
foreground, if the screen does not scroll and every byte is safe. -/
theorem background_alike (s : System) (index : ℕ) (str : List UInt8)
    (hback : InBackground s index) (hstays : CursorStays s index str)
    (hsafe : SafeBytes s index str) : WritesAlike s index str := by
  obtain ⟨f, b, hf, hb, hmirror, hframe⟩ :=
    hback.mirror.writeBytes hstays hsafe
  have hback' : InBackground b index :=
    ⟨hframe.graphics.trans hback.text, hback.index_lt, hmirror.back⟩
  have hcursor : consoleUpdateCursorPos b index = b :=
    if_pos hmirror.back.symm
  have hcursor' : consoleUpdateCursorPos f index =
      { f with position := ((f.consoles f.currConsole).currY * 80 +
        (f.consoles f.currConsole).currX) % 0x10000 } :=
    if_neg fun hne => hne hmirror.front.symm
  refine ⟨b, consoleUpdateCursorPos f index, ?_, ?_, ?_, ?_, ?_, ?_⟩
  · rw [consoleWriteString, hb, map_some, hcursor]
  · rw [consoleWriteString, hf, map_some]
  · intro k hk hk'
    rw [hback'.changeConsole_screen hk hk', hcursor']
    exact (hmirror.cells k hk hk').symm
  · rw [hback'.changeConsole_eq.2.1, hcursor']
    exact hmirror.console.symm
  · rw [hback'.changeConsole_eq.2.2, hcursor', hmirror.front, hmirror.console]
  · intro other _ hne k hk hk'
    apply hframe.scrBuf
    unfold consoleSize at hk' ⊢
    omega

/-! ## Strings that are written differently -/

/-- The console 1 in the background, with its cursor at `x` and `y`.  Its first
character is the letter 'b', all others are the letter 'a', in the color 1. -/
def behind (x y : ℤ) : System where
  screen _ := 0
  scrBuf k := if k = 4000 then 0x62 else if k % 2 = 0 then 0x61 else 1
  currConsole := 0
  consoles _ :=
    { currX := x, currY := y, currColor := 7, foreColor := 7, backColor := 0,
      params := fun _ => 0, inCtrl := false, ctrlParams := false,
      cmdLetter := false, paramIndex := 0, graphics := false }
  position := 0

theorem inBackground_behind (x y : ℤ) : InBackground (behind x y) 1 :=
  ⟨rfl, by decide, Nat.zero_ne_one⟩

/-- The letters 'H' and 'i', and a new line. -/
theorem background_alike_line : WritesAlike (behind 0 0) 1 [0x48, 0x69, 0x0A] := by
  exact background_alike _ _ _ (inBackground_behind 0 0) (by decide) (by decide)

theorem not_writesAlike_of_screen (hk : 0 ≤ k) (hk' : k < consoleSize)
    (hdiff : (consoleWriteString s index str).map (fun b => (changeConsole b index).screen k) ≠
      (consoleWriteString (changeConsole s index) index str).map
        (fun f => f.screen k)) : ¬ WritesAlike s index str := by
  rintro ⟨b, f, hb, hf, hcells, -⟩
  rw [hb, hf] at hdiff
  exact hdiff (congrArg some (hcells k hk hk'))

/-- The buffer does not scroll at the end of the last line, a backspace colors
another cell, an erasure starts in the wrong cell, and a tab in the last line is
written to the buffer of the next console. -/
theorem background_not_alike :
    (CursorStays (behind 0 24) 1 [0x0A] ∧ ¬ WritesAlike (behind 0 24) 1 [0x0A]) ∧
    (CursorStays (behind 5 0) 1 [0x08] ∧ ¬ WritesAlike (behind 5 0) 1 [0x08]) ∧
    (CursorStays (behind 6 0) 1 [0x1B, 0x5B, 0x4B] ∧
      ¬ WritesAlike (behind 6 0) 1 [0x1B, 0x5B, 0x4B]) ∧
    (CursorStays (behind 70 24) 1 [0x09] ∧ ¬ WritesAlike (behind 70 24) 1 [0x09]) := by
  refine ⟨⟨by decide +kernel, ?_⟩, ⟨by decide, ?_⟩, ⟨by decide +kernel, ?_⟩,
    by decide, ?_⟩
  · exact not_writesAlike_of_screen (k := 0) (by decide) (by decide) (by decide +kernel)
  · exact not_writesAlike_of_screen (k := 1) (by decide) (by decide) (by decide)
  · exact not_writesAlike_of_screen (k := 6) (by decide) (by decide) (by decide +kernel)
  · rintro ⟨b, f, hb, -, -, -, -, hothers⟩
    have hdiff : (consoleWriteString (behind 70 24) 1 [0x09]).map
        (fun b => b.scrBuf 8000) ≠ some ((behind 70 24).scrBuf 8000) := by decide
    rw [hb] at hdiff
    exact hdiff (congrArg some (hothers 2 (by decide) (by decide) 0 (by decide) (by decide)))

end Whitix.Video
