import Mathlib.Data.Nat.Notation

/-!
# Loops with fuel

A loop whose end is in question is modelled by a function of the number of turns it may
take.  What it does is what it does with enough fuel: it ends in a result, it
faults, or it is still running however much fuel there is.
-/

namespace Whitix.Support

variable {α β : Type*}

/-- What a loop has come to when its fuel is used up. -/
inductive Outcome (α : Type*)
  | running
  | fault
  | done (result : α)

def Outcome.bind (x : Outcome α) (f : α → Outcome β) : Outcome β :=
  match x with
  | running => running
  | fault => fault
  | done result => f result

@[simp] theorem Outcome.done_bind (a : α) (f : α → Outcome β) : (Outcome.done a).bind f = f a := rfl

/-- With enough fuel, a loop comes to `b`. -/
def Eventually (f : ℕ → β) (b : β) : Prop :=
  ∃ least, ∀ fuel, least ≤ fuel → f fuel = b

theorem Eventually.unique {f : ℕ → β} {b b' : β} (h : Eventually f b)
    (h' : Eventually f b') : b = b' := by
  obtain ⟨n, hn⟩ := h
  obtain ⟨m, hm⟩ := h'
  have hfirst := hn (max n m) (Nat.le_max_left n m)
  have hsecond := hm (max n m) (Nat.le_max_right n m)
  exact hfirst.symm.trans hsecond

theorem Eventually.of_forall {f : ℕ → β} {b : β} (h : ∀ fuel, f fuel = b) : Eventually f b :=
  ⟨0, fun fuel _ => h fuel⟩

theorem Eventually.bind {f : ℕ → Outcome α} {x : Outcome α} (h : Eventually f x)
    (g : α → Outcome β) : Eventually (fun fuel => (f fuel).bind g) (x.bind g) := by
  obtain ⟨least, hleast⟩ := h
  exact ⟨least, fun fuel hfuel => congrArg (·.bind g) (hleast fuel hfuel)⟩

end Whitix.Support
