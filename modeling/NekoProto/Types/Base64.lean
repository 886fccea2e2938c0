import NekoProto.Binary.Format
import Mathlib.Tactic.Common
import Mathlib.Algebra.Order.Ring.Int

/-!
# The Base64 decoder

`Base64Covert::Decode` of `types/binary_data.hpp`, over an input of any bytes. An access outside a
buffer and a length that is no valid `int` or negative are outcomes of their own (`Stop`).

The decoder takes every `'='` off the end, reads groups of four digits while there are more than
three bytes left, and then a tail. It asks `strchr` for a digit and does not look whether there is
one: what it gets for any other byte is `null`, the low byte of the difference between the null
pointer and `Table`. Where the length is no multiple of four, a build that logs reads the input as
a C string before it is refused.
-/

namespace NekoProto.Base64Covert

open Binary (Bytes)

/-! ## Accesses -/

/-- Why a decoder does not return. -/
inductive Stop
  | outOfInput
  | outOfOutput
  /-- A length that does not fit `int`, or a negative one. -/
  | badLength
  /-- A condition of `NEKO_ASSERT` does not hold, in a build that checks it. -/
  | aborted
  /-- The exception of the format library, for a precision that does not fit `int`. -/
  | formatError
  deriving DecidableEq, Repr

/-- A read of the input. -/
def readAt (data : Bytes) (index : ℕ) : Except Stop UInt8 :=
  match data[index]? with
  | some byte => .ok byte
  | none => .error .outOfInput

/-- A write to the output. -/
def writeAt (buf : Bytes) (index : ℕ) (byte : UInt8) : Except Stop Bytes :=
  if index < buf.length then .ok (buf.set index byte) else .error .outOfOutput

/-- `'='`. -/
def equalsSign : UInt8 := 0x3D

/-- `vector::resize`, with the filler `'='`. -/
def resize (buf : Bytes) (size : ℕ) : Bytes :=
  buf.take size ++ List.replicate (size - buf.length) equalsSign

/-- A value of type `int`. -/
def toInt (value : ℤ) : Except Stop ℤ :=
  if -2 ^ 31 ≤ value ∧ value < 2 ^ 31 then .ok value else .error .badLength

/-- `Table`, without its final zero. -/
def table : Bytes :=
  "ABCDEFGHIJKLMNOPQRSTUVWXYZabcdefghijklmnopqrstuvwxyz0123456789+/".toList.map Char.toUInt8

/-! ## The decoder -/

section

variable (null : UInt8)

/-- `QueryTable`. -/
def queryTable (ch : UInt8) : UInt8 :=
  match (table ++ [0]).idxOf? ch with
  | some index => UInt8.ofNat index
  | none => null

/-- The loop that takes `'='` off the end of `datalen` bytes, with the length of the output. -/
def removePadding (data : Bytes) : ℕ → ℤ → Except Stop (ℕ × ℤ)
  | 0, _ => .error .outOfInput
  | datalen + 1, len => do
    let byte ← readAt data datalen
    if byte = equalsSign then do
      let len ← toInt (len - 1)
      removePadding data datalen len
    else .ok (datalen + 1, len)

/-- The locals of the loop: what is left, with the offsets of `cptr` and `bufptr`. -/
structure Cursor where
  datalen : ℕ
  cptr : ℕ
  bufptr : ℕ
  buf : Bytes

/-- The digit at an offset of `cptr`. -/
def digit (data : Bytes) (cptr : ℕ) : Except Stop UInt8 := do
  let ch ← readAt data cptr
  pure (queryTable null ch)

/-- The loop over the groups of four digits. -/
def decodeGroups (data : Bytes) : ℕ → ℕ → ℕ → Bytes → Except Stop Cursor
  | datalen + 4, cptr, bufptr, buf => do
    let a ← digit null data cptr
    let b ← digit null data (cptr + 1)
    let c ← digit null data (cptr + 2)
    let d ← digit null data (cptr + 3)
    let buf ← writeAt buf bufptr (a <<< 2 ||| b >>> 4)
    let buf ← writeAt buf (bufptr + 1) (b <<< 4 ||| c >>> 2)
    let buf ← writeAt buf (bufptr + 2) (c <<< 6 ||| d)
    decodeGroups data datalen (cptr + 4) (bufptr + 3) buf
  | datalen, cptr, bufptr, buf => .ok ⟨datalen, cptr, bufptr, buf⟩

/-- The tail: the output and the offset behind it. -/
def decodeTail (data : Bytes) (cursor : Cursor) : Except Stop (Bytes × ℕ) :=
  if cursor.datalen = 2 then do
    let a ← digit null data cursor.cptr
    let b ← digit null data (cursor.cptr + 1)
    let buf ← writeAt cursor.buf cursor.bufptr (a <<< 2 ||| b >>> 4)
    pure (buf, cursor.bufptr + 1)
  else if cursor.datalen = 3 then do
    let a ← digit null data cursor.cptr
    let b ← digit null data (cursor.cptr + 1)
    let c ← digit null data (cursor.cptr + 2)
    let buf ← writeAt cursor.buf cursor.bufptr (a <<< 2 ||| b >>> 4)
    let buf ← writeAt buf (cursor.bufptr + 1) (b <<< 4 ||| c >>> 2)
    pure (buf, cursor.bufptr + 2)
  else pure (cursor.buf, cursor.bufptr)

/-- `NEKO_ASSERT`, which is checked in debug builds only. -/
def assert (checked : Bool) (cond : Prop) [Decidable cond] : Except Stop Unit :=
  if checked ∧ ¬cond then .error .aborted else .ok ()

/-- What `Decode` does behind the loop over the padding. -/
def decodeBody (checked : Bool) (data buf : Bytes) (datalen : ℕ) (len : ℤ) :
    Except Stop (Bool × Bytes) := do
  if len < 0 then throw .badLength
  let cursor ← decodeGroups null data datalen 0 0 (resize buf len.toNat)
  let _ ← assert checked (cursor.datalen ≠ 1)
  let (buf, bufptr) ← decodeTail null data cursor
  let _ ← assert checked (bufptr = buf.length)
  pure (true, buf)

/-- `NEKO_LOG_ERROR` of `Decode`, in a build that logs. The format library looks for the end of
the C string in the input and in what stands `behind` it in the caller's object, as the final zero
does behind the characters of a `std::string`. -/
def logError (logged : Bool) (behind data : Bytes) : Except Stop Unit :=
  if ¬logged then .ok ()
  else if 2 ^ 31 ≤ data.length then .error .formatError
  else if 0 ∈ data ++ behind then .ok ()
  else .error .outOfInput

/-- `Decode`, with the output buffer that it is given. -/
def decode (checked logged : Bool) (behind data buf : Bytes) : Except Stop (Bool × Bytes) :=
  if data.length % 4 ≠ 0 then do
    let _ ← logError logged behind data
    pure (false, buf)
  else if data.length = 0 then .ok (true, [])
  else do
    let quarter ← toInt (data.length / 4 : ℕ)
    let len ← toInt (quarter * 3)
    let (datalen, len) ← removePadding data data.length len
    decodeBody null checked data buf datalen len

end

end NekoProto.Base64Covert
