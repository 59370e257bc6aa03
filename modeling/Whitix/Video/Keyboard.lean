import Whitix.Support.RingBuffer
import Whitix.Support.Run

/-!
# Keyboard input

Each console of `video/console.c` has a ring of keys.  `ConsoleDevRead` waits for a key
in the ring of its console, but `ConsoleGetCharacter` takes one from the ring of the
current console.  Interrupts are disabled but while `ConsoleDevRead` waits, so what
follows is one step.  The echo of a key, which changes no ring, is left out.
-/

namespace Whitix.Keyboard

open Support Function List

structure Console where
  keyboardBuf : ℕ → UInt8
  head : ℕ
  tail : ℕ
  /-- The flag `CONSOLE_GRAPHICS`. -/
  graphics : Bool
  /-- The keys accepted while the console was the current one. -/
  accepted : List UInt8
  /-- The bytes returned by the reads on the console. -/
  returned : List UInt8

structure System where
  consoles : ℕ → Console
  currConsole : ℕ

variable (s : System) (index : ℕ)

def System.set (c : Console) : System := { s with consoles := update s.consoles index c }

def consoleAddToQueue (n : UInt8) : System :=
  let currCons := s.consoles s.currConsole
  let head := (currCons.head + 1) % 100
  if head ≠ currCons.tail then
    s.set s.currConsole
      { currCons with
        keyboardBuf := overwrite currCons.keyboardBuf currCons.head [n]
        head := head
        accepted := currCons.accepted ++ [n] }
  else s

def changeConsole : System :=
  if (s.consoles index).graphics ∨ s.currConsole = index then s
  else if 7 ≤ index then s
  else { s with currConsole := index }

def consoleGetCharacter : UInt8 × System :=
  let currCons := s.consoles s.currConsole
  if currCons.head ≠ currCons.tail then
    (currCons.keyboardBuf currCons.tail,
      s.set s.currConsole { currCons with tail := (currCons.tail + 1) % 100 })
  else (0, s)

/-- The loop of `ConsoleDevRead` reads a byte, unless it waits. -/
def consoleDevRead : Option System :=
  let currCons := s.consoles index
  if currCons.head ≠ currCons.tail then
    let r := consoleGetCharacter s
    some (r.2.set index
      { r.2.consoles index with returned := (r.2.consoles index).returned ++ [r.1] })
  else none

inductive Op
  | addToQueue (n : UInt8)
  | change (index : ℕ)
  | read (index : ℕ)

def step : Op → Option System
  | .addToQueue n => some (consoleAddToQueue s n)
  | .change index => some (changeConsole s index)
  | .read index => consoleDevRead s index

def Console.queue (c : Console) : List UInt8 :=
  ringContents 100 c.keyboardBuf c.tail ((c.head + 100 - c.tail) % 100)

/-- The reads on a console have returned, in order, the keys it got and that are no
longer in its ring. -/
def Console.Delivered (c : Console) : Prop := c.returned ++ c.queue = c.accepted

/-- A byte is read while its console is the current one. -/
def Current : Op → Prop
  | .read index => index = s.currConsole
  | _ => True

instance : ∀ op, Decidable (Current s op)
  | .read _ => inferInstanceAs (Decidable (_ = _))
  | .addToQueue _ | .change _ => isTrue trivial

structure Console.Inv (c : Console) : Prop where
  head_lt : c.head < 100
  tail_lt : c.tail < 100
  delivered : c.Delivered

variable {s s' : System} {c : Console} {index : ℕ}

theorem Console.Inv.push (h : c.Inv) (hroom : (c.head + 1) % 100 ≠ c.tail) (n : UInt8) :
    Console.Inv { c with
      keyboardBuf := overwrite c.keyboardBuf c.head [n]
      head := (c.head + 1) % 100
      accepted := c.accepted ++ [n] } := by
  obtain ⟨hhead, htail, hdelivered⟩ := h
  refine ⟨Nat.mod_lt _ (by decide), htail, ?_⟩
  have hpos : (c.tail + (c.head + 100 - c.tail) % 100) % 100 = c.head := by omega
  have hsize : ((c.head + 1) % 100 + 100 - c.tail) % 100 =
      (c.head + 100 - c.tail) % 100 + 1 := by omega
  have hpush := @ringContents_push _ c.keyboardBuf 100 c.tail ((c.head + 100 - c.tail) % 100) [n]
    (by simp; omega) (by simp; omega)
  rw [hpos, length_singleton, ← hsize] at hpush
  rw [Console.Delivered, Console.queue, hpush, ← append_assoc]
  exact congrArg (· ++ [n]) hdelivered

theorem Console.Inv.pop (h : c.Inv) (hne : c.head ≠ c.tail) :
    c.keyboardBuf c.tail :: Console.queue { c with tail := (c.tail + 1) % 100 } = c.queue := by
  obtain ⟨hhead, htail, -⟩ := h
  have hsize : (c.head + 100 - (c.tail + 1) % 100) % 100 =
      (c.head + 100 - c.tail) % 100 - 1 := by omega
  rw [Console.queue, Console.queue, hsize]
  exact @ringContents_pop _ 100 c.tail _ 1 c.keyboardBuf (by omega) htail

section

variable (h : ∀ i, (s.consoles i).Inv)
include h

theorem inv_set (hc : c.Inv) (i : ℕ) : ((s.set index c).consoles i).Inv := by
  simp only [System.set, update_apply]
  split
  · exact hc
  · exact h i

theorem consoleDevRead_current (hs : consoleDevRead s s.currConsole = some s') :
    (∀ i, (s'.consoles i).Inv) ∧ ∀ j, j ≠ s.currConsole → s'.consoles j = s.consoles j := by
  obtain ⟨hne, hs⟩ := Option.ite_none_right_eq_some.mp hs
  rw [consoleGetCharacter, if_pos hne] at hs
  simp only [System.set, update_self, update_idem, Option.some.injEq] at hs
  subst hs
  obtain ⟨hhead, htail, hdelivered⟩ := h s.currConsole
  refine ⟨inv_set h ⟨hhead, Nat.mod_lt _ (by decide), ?_⟩, fun j hj => update_of_ne hj _ _⟩
  rw [Console.Delivered, append_assoc, singleton_append]
  exact ((h s.currConsole).pop hne).symm ▸ hdelivered

/-- A byte that is read while another console is current is missing there, or is no key
at all. -/
theorem not_delivered_of_ne (hindex : index ≠ s.currConsole)
    (hs : consoleDevRead s index = some s') : ∃ i, ¬ (s'.consoles i).Delivered := by
  obtain ⟨-, hs⟩ := Option.ite_none_right_eq_some.mp hs
  by_cases hne : (s.consoles s.currConsole).head ≠ (s.consoles s.currConsole).tail
  · rw [consoleGetCharacter, if_pos hne] at hs
    cases hs
    refine ⟨s.currConsole, fun hafter => ?_⟩
    have hbefore := congrArg length (h s.currConsole).delivered
    have hpop := congrArg length ((h s.currConsole).pop hne)
    have hafter := congrArg length hafter
    simp only [System.set, update_self, update_of_ne hindex.symm, length_append, length_cons] at *
    omega
  · rw [consoleGetCharacter, if_neg hne] at hs
    cases hs
    refine ⟨index, fun hafter => ?_⟩
    have hbefore := congrArg length (h index).delivered
    have hafter := congrArg length hafter
    simp only [System.set, update_self, length_append, length_singleton, Console.queue] at *
    omega

theorem inv_step {op : Op} (hcurrent : Current s op) (hs : step s op = some s') :
    ∀ i, (s'.consoles i).Inv := by
  cases op with
  | addToQueue n =>
    cases hs
    unfold consoleAddToQueue
    dsimp only
    split
    · next hroom => exact inv_set h ((h s.currConsole).push hroom n)
    · exact h
  | change index =>
    cases hs
    unfold changeConsole
    split_ifs <;> exact h
  | read index =>
    obtain rfl : index = s.currConsole := hcurrent
    exact (consoleDevRead_current h hs).1

end

/-- No key has been pressed yet. -/
def System.Initial (s : System) : Prop := ∀ i, (s.consoles i).head = 0 ∧
  (s.consoles i).tail = 0 ∧ (s.consoles i).accepted = [] ∧ (s.consoles i).returned = []

/-- Keys reach their console as long as bytes are read on the current one, and no
longer. -/
theorem delivered_iff_current {s₀ : System} (hinit : s₀.Initial) (h : Reach step Current s₀ s) :
    (∀ i, (s.consoles i).Delivered) ∧ ∀ index s', step s (.read index) = some s' →
      ((∀ i, (s'.consoles i).Delivered) ∧ (∀ j, j ≠ index → s'.consoles j = s.consoles j) ↔
        index = s.currConsole) := by
  have hinv : ∀ i, (s.consoles i).Inv := by
    refine h.invariant (fun i => ?_) fun _ _ _ h => inv_step h
    obtain ⟨hhead, htail, haccepted, hreturned⟩ := hinit i
    constructor <;> simp [Console.Delivered, Console.queue, ringContents, *]
  refine ⟨fun i => (hinv i).delivered, fun index s' hs => ⟨fun hread => ?_, ?_⟩⟩
  · by_contra hindex
    obtain ⟨i, hi⟩ := not_delivered_of_ne hinv hindex hs
    exact hi (hread.1 i)
  · rintro rfl
    obtain ⟨hinv', hothers⟩ := consoleDevRead_current hinv hs
    exact ⟨fun i => (hinv' i).delivered, hothers⟩

def initSystem : System := ⟨fun _ => ⟨fun _ => 0, 0, 0, false, [], []⟩, 0⟩

/-- Keys are typed on two consoles and read on the one they were typed on. -/
theorem delivered_iff_current_two : ∃ s, Reach step Current initSystem s ∧
    (s.consoles 0).returned = [97] ∧ (s.consoles 0).Delivered := by
  obtain ⟨s, hs, hend⟩ := exists_reach step Current initSystem
    [.addToQueue 97, .change 1, .addToQueue 98, .read 1, .change 0, .read 0]
    (fun s => (s.consoles 0).returned = [97]) (by decide +kernel)
  exact ⟨s, hs, hend, (delivered_iff_current (fun _ => ⟨rfl, rfl, rfl, rfl⟩) hs).1 0⟩

/-- A read on the first console returns the key that was typed on the second one. -/
theorem not_delivered_other : ∃ s, Reach step (fun _ _ => True) initSystem s ∧
    (s.consoles 0).returned = [98] ∧ ¬ (s.consoles 0).Delivered := by
  obtain ⟨s, hs, hreturned, haccepted⟩ := exists_reach step (fun _ _ => True) initSystem
    [.addToQueue 97, .change 1, .addToQueue 98, .read 0]
    (fun s => (s.consoles 0).returned = [98] ∧ (s.consoles 0).accepted = [97]) (by decide +kernel)
  refine ⟨s, hs, hreturned, fun h => ?_⟩
  rw [Console.Delivered, hreturned, haccepted] at h
  cases h

end Whitix.Keyboard
