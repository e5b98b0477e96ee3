import TurtleCode.Pcode

/-!
# Linked programs as bytes

A number is written seven bits to a byte, the lowest first, and every byte but the last has its high
bit set.  A signed number is first folded to an unsigned one, with small numbers of either sign
staying small.  A list is written as its length and then its elements.

* `Pcode.toBytes` writes a program.
* `Pcode.ofBytes` reads one and leaves what follows it unread.
-/

namespace TurtleCode

/-- Why bytes could not be read: they end too soon, or a number does not end within its ten
bytes. -/
inductive BytesFault
  | endOfBytes
  | endlessNumber
deriving DecidableEq

def BytesFault.message : BytesFault → String
  | .endOfBytes => "pcode encoding failed: Hit the end of buffer, expected more data"
  | .endlessNumber =>
    "pcode encoding failed: Found a varint that didn't terminate. "
      ++ "Is the usize too big for this platform?"

namespace Bytes

def writeNat (n : Nat) : List UInt8 :=
  if n < 128 then [n.toUInt8] else (n % 128 + 128).toUInt8 :: writeNat (n / 128)

/-- Reads a number of which `place` bytes have been read before.  A number has at most ten bytes,
and the tenth adds one bit only. -/
def readNatFrom : Nat → List UInt8 → Except BytesFault (Nat × List UInt8)
  | place, [] => .error (if place < 10 then .endOfBytes else .endlessNumber)
  | place, byte :: rest =>
    if 10 ≤ place then .error .endlessNumber
    else if byte < 128 then
      if place = 9 ∧ 1 < byte then .error .endlessNumber else .ok (byte.toNat, rest)
    else do
      let (high, after) ← readNatFrom (place + 1) rest
      return (byte.toNat - 128 + 128 * high, after)

def readNat (bytes : List UInt8) : Except BytesFault (Nat × List UInt8) := readNatFrom 0 bytes

/-- A signed number as an unsigned one: 0, -1, 1, -2, 2, … become 0, 1, 2, 3, 4, …. -/
def fold (n : Int64) : Nat :=
  match n.toInt with
  | .ofNat k => 2 * k
  | .negSucc k => 2 * k + 1

def unfold (n : Nat) : Int64 :=
  if n % 2 = 0 then Int64.ofInt (n / 2 : Nat) else Int64.ofInt (Int.negSucc (n / 2))

def readInt (bytes : List UInt8) : Except BytesFault (Int64 × List UInt8) := do
  let (n, rest) ← readNat bytes
  return (unfold n, rest)

/-- A list: its length, then its elements. -/
def writeList {α : Type} (write : α → List UInt8) (items : List α) : List UInt8 :=
  writeNat items.length ++ items.flatMap write

def readMany {α : Type} (read : List UInt8 → Except BytesFault (α × List UInt8)) :
    Nat → List UInt8 → Except BytesFault (List α × List UInt8)
  | 0, bytes => .ok ([], bytes)
  | count + 1, bytes => do
    let (item, rest) ← read bytes
    let (items, after) ← readMany read count rest
    return (item :: items, after)

def readList {α : Type} (read : List UInt8 → Except BytesFault (α × List UInt8))
    (bytes : List UInt8) : Except BytesFault (List α × List UInt8) := do
  let (count, rest) ← readNat bytes
  readMany read count rest

end Bytes

namespace Pcode

def toBytes (p : Pcode) : List UInt8 :=
  Bytes.writeList (Bytes.writeList fun n => Bytes.writeNat (Bytes.fold n)) p.lines

/-- The program at the start of a list of bytes. -/
def ofBytes (bytes : List UInt8) : Except BytesFault Pcode := do
  let (lines, _) ← Bytes.readList (Bytes.readList Bytes.readInt) bytes
  return ⟨lines⟩

end Pcode

end TurtleCode
