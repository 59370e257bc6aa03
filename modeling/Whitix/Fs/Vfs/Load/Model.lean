import Whitix.Include.Page

/-!
# The arguments of a new process

The loader copies the arguments of a process and its name to pages of their own, the
last argument first and the name last, maps the pages into the new process, and finds
the strings again by their terminators when it sets up the stack.
-/

namespace Whitix.Load

open Support

/-! ## Strings -/

structure CString where
  bytes : List UInt8
  noNul : 0 ∉ bytes

def CString.stored (s : CString) : List UInt8 := s.bytes ++ [0]

def CString.size (s : CString) : ℕ := s.bytes.length + 1

/-! ## Copying the strings -/

/-- The part of `struct ExecArgs` that has to do with the arguments.  A page of
`argPages` is given by its contents. -/
structure ExecArgs where
  argc : ℕ
  stackPos : ℕ
  argPages : ℕ → Option (ℕ → UInt8)

/-- `ExecSetupContext` -/
def ExecArgs.initial : ExecArgs := ⟨0, 0, fun _ => none⟩

def copyTo (page : ℕ → UInt8) (offset : ℕ) (bytes : List UInt8) : ℕ → UInt8 := fun i =>
  if offset ≤ i ∧ i < offset + bytes.length then bytes.getD (i - offset) 0 else page i

/-- The pages when a page is needed; a new page is filled with zeros. -/
def withPage (argPages : ℕ → Option (ℕ → UInt8)) (index : ℕ) : ℕ → Option (ℕ → UInt8) :=
  match argPages index with
  | none => Function.update argPages index (some fun _ => 0)
  | some _ => argPages

/-- The page that is mapped then: a new page, or one that has been unmapped at the end
of a call, is mapped first. -/
def mappedPage (argPages : ℕ → Option (ℕ → UInt8)) (index : ℕ) : Option ℕ → ℕ
  | none => index
  | some page => if (argPages index).isNone then index else page

/-- `bytesToCopy`, with `len` bytes of the string to go. -/
def bytesToCopy (len stackPos : ℕ) : ℕ :=
  if len < pageSize - stackPos % pageSize then len
  else pageSize - stackPos % pageSize

/-- A part of `n` bytes is copied; `currVirtPage` is the index of the page that is
mapped.  The source of the copy is the beginning of the string, also for the second
part. -/
def copyPart (s : CString) (n : ℕ) (args : ExecArgs) (currVirtPage : Option ℕ) :
    ExecArgs × Option ℕ :=
  let index := args.stackPos / pageSize
  let argPages := withPage args.argPages index
  let mapped := mappedPage args.argPages index currVirtPage
  ({ args with
      stackPos := args.stackPos + n
      argPages := Function.update argPages mapped ((argPages mapped).map fun page =>
        copyTo page (args.stackPos % pageSize) (s.stored.take n)) },
    some mapped)

def copyLoop (s : CString) : ℕ → ℕ → ExecArgs → Option ℕ → ExecArgs × Option ℕ
  | 0, _, args, currVirtPage => (args, currVirtPage)
  | fuel + 1, len, args, currVirtPage =>
    if len = 0 then (args, currVirtPage)
    else
      let n := bytesToCopy len args.stackPos
      let copied := copyPart s n args currVirtPage
      copyLoop s fuel (len - n) copied.1 copied.2

/-- The loop of `ExecCopyStrings`, which begins with the last string. -/
def copyStrings : List CString → ExecArgs → Option ℕ → ExecArgs
  | [], args, _ => args
  | s :: strings, args, currVirtPage =>
    let copied := copyLoop s s.size s.size args currVirtPage
    copyStrings strings copied.1 copied.2

def execCopyStrings (args : ExecArgs) (strings : List CString) : ExecArgs :=
  copyStrings strings.reverse { args with argc := args.argc + strings.length } none

/-! ## The new process -/

/-- The mapping of the pages; there is a fault outside of it. -/
structure ArgArea where
  argsStart : ℕ
  argsEnd : ℕ
  memory : ℕ → Option UInt8

/-- `ExecSetupArgs`, where `MMapDo` has found room at `argAddr`. -/
def execSetupArgs (args : ExecArgs) (argAddr : ℕ) : ArgArea where
  argsStart := argAddr
  argsEnd := argAddr + pageAlignUp args.stackPos
  memory address :=
    if argAddr ≤ address ∧ address < argAddr + pageAlignUp args.stackPos then
      (args.argPages ((address - argAddr) / pageSize)).map fun page =>
        page ((address - argAddr) % pageSize)
    else none

def numArgPages : ℕ := 32

/-- There is no result if there are too many arguments. -/
def execCopyArgs (name : CString) (argv : List CString) (argAddr : ℕ) :
    Option (ExecArgs × ArgArea) :=
  if pageSize * numArgPages ≤ argv.length then none
  else
    let args := execCopyStrings (execCopyStrings .initial argv) [name]
    some (args, execSetupArgs args argAddr)

def strlen (memory : ℕ → Option UInt8) : ℕ → ℕ → Option ℕ
  | 0, _ => none
  | fuel + 1, address =>
    match memory address with
    | none => none
    | some c => if c = 0 then some 0 else (strlen memory fuel (address + 1)).map (· + 1)

structure Stack where
  stackP : ℕ
  words : ℕ → ℕ

def Stack.push (s : Stack) (item : ℕ) : Stack :=
  ⟨s.stackP - 4, Function.update s.words (s.stackP - 4) item⟩

def archStackTop : ℕ := 0xC0000000

/-- The stack when `ElfLoad` has pushed the eight auxiliary entries and the zero that
separates them from the arguments. -/
def elfStack (words : ℕ → ℕ) : Stack := ⟨archStackTop - 4 * 17, words⟩

/-- The loop of `ExecSetupStack` with `argCount` strings to go. -/
def pushLoop (area : ArgArea) : ℕ → ℕ → Stack → Option Stack
  | 0, _, stack => some stack
  | argCount + 1, addr, stack =>
    (strlen area.memory (area.argsEnd - addr + 1) addr).bind fun len =>
      pushLoop area argCount (addr + (len + 1)) (stack.push addr)

def execSetupStack (area : ArgArea) (argc : ℕ) (stack : Stack) : Option Stack :=
  (pushLoop area argc area.argsStart stack).map fun stack =>
    (stack.push stack.stackP).push argc

def execArguments (name : CString) (argv : List CString) (argAddr : ℕ)
    (stack : Stack) : Option (ArgArea × Stack) :=
  (execCopyArgs name argv argAddr).bind fun (args, area) =>
    (execSetupStack area args.argc stack).map fun stack => (area, stack)

end Whitix.Load
