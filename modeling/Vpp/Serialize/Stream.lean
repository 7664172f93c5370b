import Mathlib.Data.List.Basic
import Mathlib.Algebra.GroupWithZero.Nat

namespace Vpp.Serialize

/-- A stream, with the state of its data function as the opaque word. Vectors are shorter than
2 ^ 32 bytes, so the indices are whole numbers. -/
structure Stream (σ : Type) where
  buffer : List UInt8
  nBufferBytes : Nat
  currentBufferIndex : Nat
  overflowBuffer : List UInt8
  currentOverflowIndex : Nat
  endOfStream : Bool
  dataFunctionOpaque : σ

abbrev DataFunction (σ : Type) := Stream σ → Stream σ

/-- Where the bytes of a call are: the pointer that it returns. -/
inductive Slot where
  | buffer (i : Nat)
  | overflow (i : Nat)

/-- Copy bytes into a vector at index `i`. -/
def copyAt (v : List UInt8) (i : Nat) (bytes : List UInt8) : List UInt8 :=
  v.take i ++ bytes ++ v.drop (i + bytes.length)

def Slot.fill (bytes : List UInt8) (s : Stream σ) : Slot → Stream σ
  | .buffer i => { s with buffer := copyAt s.buffer i bytes }
  | .overflow i => { s with overflowBuffer := copyAt s.overflowBuffer i bytes }

def Slot.read (n : Nat) (s : Stream σ) : Slot → List UInt8
  | .buffer i => (s.buffer.drop i).take n
  | .overflow i => (s.overflowBuffer.drop i).take n

/-- The loop that prepends the overflow buffer, over `curBi`, `nLeftB` and `nLeftO`. Each pass but the
first moves a byte, which bounds the number of passes. -/
def prependOverflow (dataFunction : DataFunction σ) : (fuel : Nat) → Stream σ → (curBi nLeftB nLeftO : Nat) →
    Stream σ × Nat × Nat × Nat
  | 0, s, curBi, nLeftB, nLeftO => (s, curBi, nLeftB, nLeftO)
  | fuel + 1, s, curBi, nLeftB, nLeftO =>
    let n := if nLeftO > 0 ∧ nLeftB > 0 then min nLeftB nLeftO else 0
    let s := { s with
      buffer := copyAt s.buffer curBi (s.overflowBuffer.take n)
      overflowBuffer := s.overflowBuffer.drop n }
    let curBi := curBi + n
    let nLeftO := nLeftO - n
    let (s, curBi, nLeftB) :=
      if nLeftB - n = 0 then
        let s := dataFunction { s with currentBufferIndex := curBi }
        (s, s.currentBufferIndex, s.nBufferBytes - s.currentBufferIndex)
      else (s, curBi, nLeftB - n)
    if nLeftO > 0 then prependOverflow dataFunction fuel s curBi nLeftB nLeftO
    else (s, curBi, nLeftB, nLeftO)

def serializeWriteNotInline (dataFunction : DataFunction σ) (s : Stream σ) (nBytesToWrite : Nat) :
    Stream σ × Slot :=
  let curBi := s.currentBufferIndex
  let (s, curBi, nLeftB, nLeftO) := prependOverflow dataFunction (s.overflowBuffer.length + 1) s curBi
    (s.nBufferBytes - curBi) s.overflowBuffer.length
  if nLeftO > 0 ∨ nLeftB < nBytesToWrite then
    ({ s with overflowBuffer := s.overflowBuffer ++ List.replicate nBytesToWrite 0 },
      .overflow s.overflowBuffer.length)
  else ({ s with currentBufferIndex := curBi + nBytesToWrite }, .buffer curBi)

/-- The part of a read or write that needs neither the overflow buffer nor the data function. -/
def serializeStreamReadWrite (notInline : Stream σ → Nat → α) (inBuffer : Stream σ → Slot → α)
    (s : Stream σ) (nBytes : Nat) : α :=
  let i := s.currentBufferIndex
  if s.overflowBuffer.length = 0 ∧ i + nBytes ≤ s.nBufferBytes then
    inBuffer { s with currentBufferIndex := i + nBytes } (.buffer i)
  else notInline s nBytes

def serializeGet (dataFunction : DataFunction σ) : Stream σ → Nat → Stream σ × Slot :=
  serializeStreamReadWrite (serializeWriteNotInline dataFunction) Prod.mk

def serializeClose (dataFunction : DataFunction σ) (s : Stream σ) : Stream σ :=
  if s.endOfStream then s
  else
    let s := (serializeWriteNotInline dataFunction s 0).1
    { dataFunction { s with endOfStream := true } with overflowBuffer := [] }

def serializeVectorWrite (s : Stream Unit) : Stream Unit :=
  if s.endOfStream then s
  else
    let l := s.buffer.length
    let buffer := s.buffer ++ List.replicate (if l > 0 then l else 64) 0
    { s with buffer, nBufferBytes := buffer.length }

def serializeOpenVector (vector : List UInt8) : Stream Unit :=
  ⟨vector, vector.length, 0, [], 0, false, ()⟩

def serializeCloseVector (s : Stream Unit) : List UInt8 :=
  let s := serializeClose serializeVectorWrite s
  s.buffer.take s.currentBufferIndex

def Stream.overflowLeft (s : Stream σ) : Nat :=
  if s.currentOverflowIndex ≤ s.overflowBuffer.length
  then s.overflowBuffer.length - s.currentOverflowIndex
  else 2 ^ 64 - (s.currentOverflowIndex - s.overflowBuffer.length)

/-- The loop of a read that goes on until `nLeftToRead` bytes are there. It has no result where the data
function gives nothing `fuel` times without ending the stream. -/
def readLoop (dataFunction : Option (DataFunction σ)) (nBytesToRead curOi : Nat) :
    (fuel : Nat) → Stream σ → (curBi nLeftB nLeftO nLeftToRead : Nat) → Option (Stream σ × Slot)
  | 0, _, _, _, _, _ => none
  | fuel + 1, s, curBi, nLeftB, nLeftO, nLeftToRead =>
    if nLeftToRead = 0 then
      some ({ s with
        currentBufferIndex := curBi
        currentOverflowIndex := curOi + nBytesToRead }, .overflow curOi)
    else
      let (s, curBi, nLeftB, nLeftO, nLeftToRead) :=
        if nLeftO + nLeftB < nBytesToRead then
          let s := { s with overflowBuffer := s.overflowBuffer ++ (s.buffer.drop curBi).take nLeftB }
          let curBi := if nLeftB > 0 then s.nBufferBytes else curBi
          match dataFunction with
          | some f =>
            let s := f s
            (s, s.currentBufferIndex, s.nBufferBytes - s.currentBufferIndex, nLeftO + nLeftB,
              nLeftToRead - nLeftB)
          | none => (s, curBi, 0, nLeftO + nLeftB, nLeftToRead - nLeftB)
        else (s, curBi, nLeftB, nLeftO, nLeftToRead)
      if nLeftO = 0 ∧ nLeftToRead = nBytesToRead ∧ nLeftB ≥ nLeftToRead then
        some ({ s with currentBufferIndex := curBi + nBytesToRead }, .buffer curBi)
      else if dataFunction.isNone ∨ s.endOfStream then
        let s := { s with overflowBuffer := s.overflowBuffer ++ List.replicate nLeftToRead 0 }
        readLoop dataFunction nBytesToRead curOi fuel s curBi nLeftB (nLeftO + nLeftToRead) 0
      else
        let n := min nLeftToRead nLeftB
        let s := { s with overflowBuffer := s.overflowBuffer ++ (s.buffer.drop curBi).take n }
        readLoop dataFunction nBytesToRead curOi fuel s (curBi + n) (nLeftB - n) (nLeftO + n)
          (nLeftToRead - n)

def serializeReadNotInline (dataFunction : Option (DataFunction σ)) (s : Stream σ) (nBytesToRead : Nat) :
    Option (Stream σ × Slot) :=
  let curBi := s.currentBufferIndex
  let curOi := s.currentOverflowIndex
  let nLeftB := s.nBufferBytes - curBi
  let nLeftO := s.overflowLeft
  if nLeftO ≥ nBytesToRead then
    some ({ s with currentOverflowIndex := curOi + nBytesToRead }, .overflow curOi)
  else
    let s := if nLeftO = 0 then { s with currentOverflowIndex := 0, overflowBuffer := [] } else s
    readLoop dataFunction nBytesToRead curOi (nBytesToRead + 1) s curBi nLeftB nLeftO nBytesToRead

def unserializeGet (dataFunction : Option (DataFunction σ)) : Stream σ → Nat → Option (Stream σ × Slot) :=
  serializeStreamReadWrite (serializeReadNotInline dataFunction) fun s slot => some (s, slot)

def unserializeOpenData (data : List UInt8) : Stream Unit :=
  ⟨data, data.length, 0, [], 0, false, ()⟩

/-- The chunks are what the calls of `read` give, before the empty one at the end of the file. -/
def unixFileRead (s : Stream (List (List UInt8))) : Stream (List (List UInt8)) :=
  match s.dataFunctionOpaque with
  | [] => { s with endOfStream := true, buffer := [], currentBufferIndex := 0, nBufferBytes := 0 }
  | chunk :: chunks => { s with
      buffer := chunk
      currentBufferIndex := 0
      nBufferBytes := chunk.length
      dataFunctionOpaque := chunks }

def unserializeOpenUnixFile (chunks : List (List UInt8)) : Stream (List (List UInt8)) :=
  ⟨[], 0, 0, [], 0, false, chunks⟩

end Vpp.Serialize
