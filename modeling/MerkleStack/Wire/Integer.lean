/-
Integers on the wire.  A number below 251 is one byte; any other is a tag and two,
four or eight bytes, most significant first.  Writing takes the shortest form,
reading takes every form that the field is wide enough for.
-/
import MerkleStack.Wire.Reader

namespace MerkleStack.Wire

/-- The shortest form of a number that eight bytes can hold. -/
def putInteger (n : Nat) : Bytes :=
  if n < 251 then [UInt8.ofNat n]
  else if n < 0x10000 then 0xfb :: bigEndian 2 n
  else if n < 0x100000000 then 0xfc :: bigEndian 4 n
  else 0xfd :: bigEndian 8 n

/-- What the first byte of an integer announces. -/
inductive Lead
  | value (n : Nat)
  | width (count : Nat)
  | tooWide (found : IntegerType)
deriving DecidableEq, Repr

/-- First byte of an integer in a field of four bytes, or of eight if `wide`. -/
def Lead.ofByte (wide : Bool) (b : UInt8) : Lead :=
  if b < 0xfb then .value b.toNat
  else if b = 0xfb then .width 2
  else if b = 0xfc then .width 4
  else if b = 0xfd then (if wide then .width 8 else .tooWide .u64)
  else if b = 0xfe then .tooWide .u128
  else .tooWide .reserved

/-- Width named as the expected one when a tag does not fit.  A wide field names
the narrow width where nine bytes or more are left, its tag included. -/
def expectedType (wide : Bool) (rest : Bytes) : IntegerType :=
  if wide && (rest.drop 8).isEmpty then .u64 else .u32

/-- Read an integer in any form that fits. -/
def getInteger (wide : Bool) : Reader Nat := do
  let cursor ← get
  let lead ← getByte
  match Lead.ofByte wide lead with
  | .value n => return n
  | .width count => return ofBigEndian (← getBytes count)
  | .tooWide found => throw (.invalidInteger (expectedType wide cursor.rest) found)

def getU32 : Reader UInt32 := do
  claim 4
  return UInt32.ofNat (← getInteger false)

def getU64 : Reader UInt64 := do
  claim 8
  return UInt64.ofNat (← getInteger true)

end MerkleStack.Wire
