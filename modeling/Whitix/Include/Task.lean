/-!
# Thread states

The states of a thread in `include/task.h`.
-/

namespace Whitix

/-- `THR_RUNNING`, `THR_PAUSED` and `THR_DYING` -/
inductive ThreadState
  | running
  | paused
  | dying
  deriving DecidableEq, Repr

end Whitix
