import StreamStack.Metadata.State

/-!
# Index entries

Every data block of an object has an entry in the index of the object: the stream and the offsets
it holds, and where its bytes are.
-/

namespace Object

/-- The offset standing for "no bound". -/
def noopOffset : UInt64 := 18446744073709551615

/-- The entry of one data block. The block id is its place in the index it was read from. -/
structure DataBlockIndex where
  blockId : Int32
  streamId : UInt64
  startOffset : UInt64
  endOffsetDelta : UInt32
  recordCount : UInt32
  startPosition : UInt64
  size : UInt32
deriving DecidableEq, Repr

namespace DataBlockIndex

def endOffset (index : DataBlockIndex) : UInt64 :=
  index.startOffset + index.endOffsetDelta.toUInt64

def endPosition (index : DataBlockIndex) : UInt64 :=
  index.startPosition + index.size.toUInt64

end DataBlockIndex

/-- The number of bytes of an entry. -/
def blockIndexSize : Nat := 36

def footerSize : Nat := 48

end Object
