import Mathlib.Data.Int.Notation
import Mathlib.Data.List.Basic

/-!
# Text consoles

The current console is shown in the memory of the VGA adapter, the others are in
`scrBuf`.  A cell of a screen has two bytes, a character and its color, and a
screen has 25 lines of 80 cells.

Memory is modelled by its bytes at all offsets, so that what is written behind a
screen can be seen.  `scrBuf` has been allocated.
-/

namespace Whitix.Video

open Function

def consoleSize : ℤ := 4000

structure Console where
  currX : ℤ
  currY : ℤ
  currColor : UInt32
  foreColor : UInt32
  backColor : UInt32
  params : ℕ → UInt32
  inCtrl : Bool
  ctrlParams : Bool
  cmdLetter : Bool
  paramIndex : ℕ
  /-- The flag `CONSOLE_GRAPHICS`. -/
  graphics : Bool

structure System where
  screen : ℤ → UInt8
  scrBuf : ℤ → UInt8
  currConsole : ℕ
  consoles : ℕ → Console
  position : ℤ

variable (s : System) (index : ℕ)

def System.setConsole (cons : Console) : System :=
  { s with consoles := update s.consoles index cons }

/-! ## Writing to a screen -/

/-- Store a byte at the offset `i` of the screen, or at the offset `j` of the
buffer of a console that is not the current one. -/
def store (i j : ℤ) (value : UInt8) : System :=
  if s.currConsole = index then
    { s with screen := update s.screen i value }
  else
    { s with
      scrBuf := update s.scrBuf (consoleSize * index + j) value }

/-- Store a character and its color at the same offset of the screen or of the
buffer. -/
def storeCell (cell : ℤ) (c color : UInt8) : System :=
  store (store s index cell cell c) index (cell + 1) (cell + 1) color

def memsetw (s : System) (index : ℕ) (i j : ℤ) (color : UInt8) : ℕ → System
  | 0 => s
  | size + 1 =>
    memsetw (store (store s index i j 0x20) index (i + 1) (j + 1) color)
      index (i + 2) (j + 2) color size

def memcpy (memory : ℤ → UInt8) (dest src size : ℤ) : ℤ → UInt8 := fun k =>
  if dest ≤ k ∧ k < dest + size then memory (src + (k - dest)) else memory k

def consoleUpdateCursorPos (console : ℕ) : System :=
  let cons := s.consoles s.currConsole
  if console ≠ s.currConsole then s
  else { s with position := (cons.currY * 80 + cons.currX) % 0x10000 }

def consoleScrollScreen : System :=
  if s.currConsole = index then
    let s := { s with
      screen := (List.range 24).foldl
        (fun screen i => memcpy screen (i * 160) ((i + 1) * 160) 160) s.screen }
    memsetw s index (24 * 160) (24 * 160) 7 80
  else
    let base := consoleSize * index
    let s := { s with
      scrBuf := (List.range 24).foldl
        (fun scrBuf i => memcpy scrBuf (base + i * 160) (base + i * 160) 160)
        s.scrBuf }
    memsetw s index (24 * 160) (24 * 160) 7 80

def consoleNewLine : System :=
  let console := s.consoles index
  let s :=
    if console.currY + 1 = 25 then
      consoleScrollScreen (s.setConsole index { console with currX := 0, currY := 24 }) index
    else
      s.setConsole index { console with currX := 0, currY := console.currY + 1 }
  consoleUpdateCursorPos s index

/-- The end of the writing of a cell: the cursor moves on. -/
def advance : System :=
  let cons := s.consoles index
  let s := s.setConsole index { cons with currX := cons.currX + 1 }
  if 80 ≤ cons.currX + 1 then consoleNewLine s index else s

/-- The loop over the cells of a tab, from `i` on. -/
def writeTab (s : System) (index : ℕ) (i : ℤ) : ℕ → System
  | 0 => s
  | n + 1 =>
    let cons := s.consoles index
    let cell := cons.currY * 160 + cons.currX * 2 + i
    let s := storeCell s index cell 0x20 cons.currColor.toUInt8
    writeTab (advance s index) index (i + 2) n

def consoleWrite (c : UInt8) : System :=
  let cons := s.consoles index
  if cons.graphics then s
  else if c = 0x0D then s
  else if c = 0x0A then consoleNewLine s index
  else if c = 0x08 then
    if 0 < cons.currX then
      let x := cons.currX - 1
      let s := s.setConsole index { cons with currX := x }
      let cell := cons.currY * 160 + x * 2
      let s := store s index cell cell 0x20
      -- In the buffer the row takes the place of the column.
      store s index (cell + 1) (cons.currY * 160 + cons.currY * 2 + 1) cons.currColor.toUInt8
    else s
  else if c = 0x09 then writeTab s index 0 8
  else
    let cell := cons.currY * 160 + cons.currX * 2
    advance (storeCell s index cell c cons.currColor.toUInt8) index

def consoleClearScreen : System :=
  let cons := s.consoles index
  if cons.graphics then s
  else
    let s := memsetw s index 0 0 7 2000
    let s := s.setConsole index { cons with currX := 0, currY := 0 }
    consoleUpdateCursorPos s index

/-! ## Control sequences -/

/-- The value of an `int` after an unsigned operation. -/
def toInt (n : ℤ) : ℤ := Int.bmod n 0x100000000

def moveTo (x y : ℤ) : System :=
  consoleUpdateCursorPos (s.setConsole index { s.consoles index with currX := x, currY := y }) index

/-- 'H': the first parameter is the row, the second one the column. -/
def setPosition : System :=
  let cons := s.consoles index
  let row := if 25 ≤ cons.params 0 then 25 else cons.params 0
  let column := if 80 ≤ cons.params 1 then 80 else cons.params 1
  let s := s.setConsole index { cons with
    params := update (update cons.params 0 row) 1 column }
  moveTo s index column.toNat row.toNat

/-- 'K', with the first parameter. -/
def eraseLine (param : UInt32) : System :=
  let cons := s.consoles index
  let line := cons.currY * 160
  let color := cons.currColor.toUInt8
  if param = 0 then
    -- In the buffer the column is not doubled.
    memsetw s index (line + cons.currX * 2) (line + cons.currX) color (80 - cons.currX).toNat
  else if param = 1 then memsetw s index line line color cons.currX.toNat
  else if param = 2 then memsetw s index line line color 80
  else s

def colorTable : List UInt32 := [0, 4, 2, 6, 1, 5, 3, 7]

/-- 'm', with the first parameter. -/
def setGraphics (cons : Console) (param : UInt32) : Console :=
  if param = 0 then { cons with currColor := 7 }
  else if param = 1 ∨ param = 2 then
    { cons with currColor := cons.currColor ^^^ 8 }
  else if param = 7 then
    { cons with
      currColor := (cons.currColor &&& (0x88 : UInt32)) |||
        (((cons.currColor >>> 4) ||| (cons.currColor <<< 4)) &&& (0x77 : UInt32)) }
  else if 30 ≤ param ∧ param ≤ 37 then
    let color := colorTable.getD (param % 10).toNat 0
    { cons with
      foreColor := color
      currColor := color ||| (cons.backColor <<< 4) }
  else if 40 ≤ param ∧ param ≤ 47 then
    let color := colorTable.getD (param % 10).toNat 0
    { cons with
      backColor := color
      currColor := cons.foreColor ||| (color <<< 4) }
  else cons

/-- The commands, each with the letter that ends its sequence. -/
def command (c : UInt8) : System :=
  let cons := s.consoles index
  if c = 0x43 then
    moveTo s index (toInt (cons.currX + (cons.params 0).toNat)) cons.currY
  else if c = 0x44 then
    moveTo s index (toInt (cons.currX - (cons.params 0).toNat)) cons.currY
  else if c = 0x4A then consoleClearScreen s index
  else if c = 0x48 then setPosition s index
  else if c = 0x4B then eraseLine s index (cons.params 0)
  else if c = 0x6D then
    s.setConsole index (setGraphics cons (cons.params 0))
  else s

def endSequence (c : UInt8) : System :=
  let s := command s index c
  s.setConsole index { s.consoles index with
    inCtrl := false
    paramIndex := 0
    cmdLetter := false }

/-- The body of the loop of `ConsoleWriteString`.  There is room for 16
parameters; a digit of another one overwrites what is behind them. -/
def writeByte (c : UInt8) : Option System :=
  let cons := s.consoles index
  if c = 0x1B then some (s.setConsole index { cons with inCtrl := true })
  else if cons.inCtrl then
    if c = 0x5B then
      some (s.setConsole index { cons with
        ctrlParams := true
        params := fun _ => 0
        paramIndex := 0 })
    else if cons.ctrlParams then
      if c = 0x3B then
        some (s.setConsole index { cons with paramIndex := cons.paramIndex + 1 })
      else if c < 0x30 ∨ 0x39 < c then
        some (endSequence (s.setConsole index { cons with
          cmdLetter := true
          ctrlParams := false }) index c)
      else if cons.paramIndex < 16 then
        some (s.setConsole index { cons with
          params := update cons.params cons.paramIndex
            (cons.params cons.paramIndex * 10 + (c - 0x30).toUInt32) })
      else none
    else if cons.cmdLetter then some (endSequence s index c)
    else some (consoleWrite s index c)
  else some (consoleWrite s index c)

def writeBytes (s : System) (index : ℕ) : List UInt8 → Option System
  | [] => some s
  | c :: str => (writeByte s index c).bind fun s => writeBytes s index str

def consoleWriteString (str : List UInt8) : Option System :=
  (writeBytes s index str).map fun s => consoleUpdateCursorPos s index

/-! ## Changing consoles -/

def maxConsoles : ℕ := 7

def changeConsole : System :=
  if (s.consoles index).graphics ∨ s.currConsole = index then s
  else if maxConsoles ≤ index then s
  else
    let scrBuf : ℤ → UInt8 := fun k =>
      if consoleSize * s.currConsole ≤ k ∧ k < consoleSize * s.currConsole + consoleSize then
        s.screen (k - consoleSize * s.currConsole)
      else s.scrBuf k
    let screen : ℤ → UInt8 := fun k =>
      if 0 ≤ k ∧ k < consoleSize then scrBuf (consoleSize * index + k)
      else s.screen k
    consoleUpdateCursorPos { s with scrBuf := scrBuf, screen := screen, currConsole := index } index

end Whitix.Video
