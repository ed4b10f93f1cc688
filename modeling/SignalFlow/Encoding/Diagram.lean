import SignalFlow.Diagnostic
import SignalFlow.Diagram.Order
import SignalFlow.Encoding.Block

/-!
# Encodings of diagrams

The encodings of all blocks in run order.  Blocks of unknown type contribute nothing and
are reported.
-/

namespace SignalFlow
namespace Encoding

variable {R : Type} [Scalar R]

/-- The blocks of a diagram in run order. -/
def orderedBlocks (d : Diagram) (order : RunOrder) : List Block :=
  order.all.filterMap d.block?

/-- What a block contributes. -/
def contribution (c : Catalogue) (d : Diagram) (b : Block) : Encoding R :=
  match c b.type with
  | some k => ofBlock d b k
  | none => {}

/-- The encoding of a diagram. -/
def ofDiagram (c : Catalogue) (d : Diagram) (order : RunOrder) : Encoding R :=
  ((orderedBlocks d order).map (contribution c d)).foldl append {}

/-- The first block of every unknown type. -/
def unknownBlocks (c : Catalogue) : List String → List Block → List Block
  | _, [] => []
  | warned, b :: bs =>
      if (c b.type).isSome || warned.contains b.type then unknownBlocks c warned bs
      else b :: unknownBlocks c (b.type :: warned) bs

/-- Reports of blocks of unknown type. -/
def diagnostics (c : Catalogue) (d : Diagram) (order : RunOrder) : List Diagnostic :=
  (unknownBlocks c [] (orderedBlocks d order)).map fun b =>
    ((Diagnostic.warning .notEncodable
      ("no encoder for block type '" ++ b.type ++ "'")).atBlock
      b.id).withHint "outputs of this block are left unconstrained"

end Encoding
end SignalFlow
