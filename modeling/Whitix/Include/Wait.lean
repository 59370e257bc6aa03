import Whitix.Support.CircularList

/-!
# Wait queue entries

The functions of `include/wait.h` that put the entry of a thread on a wait queue and
take it off again.  A queue is a circular list.
-/

namespace Whitix

open Support

variable {Node : Type*} [DecidableEq Node] (links : Links Node)

def waitPrepareWait (waitQueue waitEntry : Node) : Links Node :=
  if links.next waitEntry = waitEntry then links.addTail waitEntry waitQueue else links

def waitFinishWait (waitEntry : Node) : Links Node :=
  if links.next waitEntry ≠ waitEntry then links.removeInit waitEntry else links

end Whitix
