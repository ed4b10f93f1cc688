import SignalFlow.Diagram.Basic

/-!
# Run order

A diagram is ordered so that blocks come after the blocks that feed them.  Blocks without
open inputs are released first; each released block releases those whose last open input it
fed.  What is never released lies on a cycle or behind one.
-/

namespace SignalFlow

/-- Released blocks in order, and the others in the order of the diagram. -/
structure RunOrder where
  sorted : List BlockId
  residual : List BlockId
  deriving Repr, DecidableEq

namespace RunOrder

/-- Released blocks followed by the others. -/
def all (o : RunOrder) : List BlockId :=
  o.sorted ++ o.residual

end RunOrder

/-- Numbers of open inputs by block. -/
abbrev OpenInputs := List (BlockId × Nat)

namespace OpenInputs

/-- Count one open input more at a block that is listed. -/
def raise (counts : OpenInputs) (id : BlockId) : OpenInputs :=
  counts.map fun e => if e.1 == id then (e.1, e.2 + 1) else e

/-- Count one open input less at a block. -/
def lower (counts : OpenInputs) (id : BlockId) : OpenInputs :=
  counts.map fun e => if e.1 == id then (e.1, e.2 - 1) else e

end OpenInputs

/-- State while blocks are released. -/
structure Sorting where
  counts : OpenInputs
  queue : List BlockId
  sorted : List BlockId
  deriving Repr, DecidableEq

namespace Sorting

/-- One input of `id` is fed; the block is queued when it was the last one. -/
def feed (o : Sorting) (id : BlockId) : Sorting :=
  let counts := o.counts.lower id
  if counts.lookup id == some 0 then { o with counts := counts, queue := o.queue ++ [id] }
  else { o with counts := counts }

/-- Release the block at the head of the queue, unless it has been released before. -/
def step (successors : BlockId → List BlockId) (o : Sorting) : Sorting :=
  match o.queue with
  | [] => o
  | id :: queue =>
      if o.sorted.contains id then { o with queue := queue }
      else (successors id).foldl feed { o with queue := queue, sorted := o.sorted ++ [id] }

/-- Release blocks for `fuel` steps. -/
def run (successors : BlockId → List BlockId) : Nat → Sorting → Sorting
  | 0, o => o
  | fuel + 1, o => run successors fuel (o.step successors)

end Sorting

namespace Diagram

/-- Whether a block with this identifier exists. -/
def hasBlock (d : Diagram) (id : BlockId) : Bool :=
  d.blocks.any fun b => b.id == id

/-- The signals between existing blocks. -/
def attached (d : Diagram) : List Signal :=
  d.signals.filter fun s => d.hasBlock s.source.block && d.hasBlock s.target.block

/-- The blocks fed by a block, once for every signal. -/
def successors (d : Diagram) (id : BlockId) : List BlockId :=
  (d.attached.filter fun s => s.source.block == id).map fun s => s.target.block

/-- The number of open inputs of every block. -/
def openInputs (d : Diagram) : OpenInputs :=
  d.attached.foldl (fun counts s => counts.raise s.target.block)
    (d.blocks.map fun b => (b.id, 0))

/-- The state before any block is released. -/
def sorting (d : Diagram) : Sorting :=
  let counts := d.openInputs
  { counts := counts
    queue := (d.blocks.map Block.id).filter fun id => counts.lookup id == some 0
    sorted := [] }

/-- The run order.  A block is queued at most once for itself and once for every signal. -/
def runOrder (d : Diagram) : RunOrder :=
  let sorted := (d.sorting.run d.successors (d.blocks.length + d.signals.length)).sorted
  { sorted := sorted
    residual := (d.blocks.map Block.id).filter fun id => !sorted.contains id }

end Diagram
end SignalFlow
