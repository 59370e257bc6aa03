import Mathlib.Data.List.Nodup

/-!
# Chains in a table of successors

A table gives every node a successor, and some values of the table are no nodes
but mark the end of a chain.  A list of nodes is linked when every node is
followed by its successor and the successor of the last node is an end marker.
-/

namespace Whitix.Support

open List

variable {α : Type*}

/-- The nodes of the list follow each other in the table `next`, and the last
one has an end marker. -/
def Linked (next : α → α) (isEnd : α → Prop) : List α → Prop
  | [] => True
  | [c] => isEnd (next c)
  | c :: d :: rest =>
    next c = d ∧ ¬isEnd d ∧ Linked next isEnd (d :: rest)

variable {next next' : α → α} {isEnd : α → Prop}

variable {cs : List α} {c : α}

theorem Linked.congr (h : Linked next isEnd cs)
    (heq : ∀ c ∈ cs, next' c = next c) : Linked next' isEnd cs := by
  induction cs with
  | nil => trivial
  | cons c cs ih =>
    cases cs with
    | nil =>
      change isEnd (next' c)
      rw [heq c mem_cons_self]
      exact h
    | cons d rest =>
      obtain ⟨hnext, hnode, hrest⟩ := h
      refine ⟨?_, hnode, ?_⟩
      · rw [heq c mem_cons_self, hnext]
      · exact ih hrest (forall_mem_cons.mp heq).2

theorem Linked.tail (h : Linked next isEnd (c :: cs)) : Linked next isEnd cs := by
  cases cs with
  | nil => trivial
  | cons d rest => exact h.2.2

theorem Linked.drop (h : Linked next isEnd cs) (n : ℕ) : Linked next isEnd (cs.drop n) := by
  induction n generalizing cs with
  | zero => exact h
  | succ n ih =>
    cases cs with
    | nil => trivial
    | cons c cs => exact ih h.tail

/-- A chain is extended by a new node: the old last node points to it, and it
has an end marker. -/
theorem Linked.snoc {l x : α} (h : Linked next isEnd (cs ++ [l])) (hcs : ∀ c ∈ cs, next' c = next c)
    (hlast : next' l = x) (hnode : ¬isEnd x) (hend : isEnd (next' x)) :
    Linked next' isEnd (cs ++ [l, x]) := by
  induction cs with
  | nil => exact ⟨hlast, hnode, hend⟩
  | cons c cs ih =>
    have hrest := ih h.tail (forall_mem_cons.mp hcs).2
    cases cs with
    | nil =>
      obtain ⟨hnext, hl, -⟩ := h
      exact ⟨(hcs c mem_cons_self).trans hnext, hl, hrest⟩
    | cons d rest =>
      obtain ⟨hnext, hd, -⟩ := h
      exact ⟨(hcs c mem_cons_self).trans hnext, hd, hrest⟩

/-- No entry of a chain has a value that is neither a node of the chain nor an
end marker. -/
theorem Linked.next_cases (h : Linked next isEnd cs)
    (hc : c ∈ cs) : next c ∈ cs ∨ isEnd (next c) := by
  induction cs with
  | nil => cases hc
  | cons d cs ih =>
    rcases mem_cons.mp hc with rfl | hc
    · cases cs with
      | nil => exact .inr h
      | cons e rest =>
        obtain ⟨hnext, -, -⟩ := h
        left
        rw [hnext]
        exact mem_cons_of_mem _ mem_cons_self
    · exact (ih h.tail hc).imp (mem_cons_of_mem d) id

end Whitix.Support
