import ChunkHeap.Log.Logger
import ChunkHeap.Machine

/-!
# Starting a runtime

A runtime is a heap made from the settings, with logging set up first.
-/

namespace ChunkHeap
set_option autoImplicit false

open HeapM

/-- Make the heap of a runtime, on a blank heap, and report that it is there. -/
def startRuntime : HeapM Unit := do
  boot
  let h ← heap
  emit (.runtimeReady h.config.arenaBytes h.arena.liveCount)

/-- A runtime from its settings: its logger, and its machine with the events so far. -/
def Settings.start (s : Settings) (directives : Option String) :
    Log.Logger × Except Error Unit × Machine :=
  (Log.Logger.ofConfig directives (.ofSettings s.logging),
    startRuntime.run { heap := Heap.blank s.heap })

end ChunkHeap
