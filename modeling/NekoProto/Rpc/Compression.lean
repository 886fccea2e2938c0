import NekoProto.Rpc.Error
import Mathlib.Data.List.Basic

/-!
# The payload compression codec

`NekoRpcCompressionCodec` of `src/rpc.cpp`. The compressor walks over the payload and emits runs
of 3 to 130 equal bytes (control byte `0x80 | (run - 3)`, then the byte) and literal blocks
(control byte `size - 1`, then the bytes). It is written over the bytes from its `offset` on.
The decompressor reads untrusted input, so it keeps its offset: a read outside the payload is
the outcome `outOfBounds`, told apart from the errors it returns.

The loops carry a fuel of the payload's size; each turn consumes a byte.
-/

namespace NekoProto.Rpc

/-- `NekoRpcCompressionAlgorithm`, with the values outside the enumeration. -/
inductive CompressionAlgorithm
  | none | runLength | unknown (value : UInt8)
  deriving DecidableEq, Repr

/-! ## The compressor -/

/-- The loop that lengthens a run of `byte` while the next byte repeats it, up to 130. -/
def runFrom (byte : UInt8) (run : ℕ) : MessageType → ℕ
  | [] => run
  | next :: rest => if run < 130 ∧ next = byte then runFrom byte (run + 1) rest else run

/-- The length of the run at the front. -/
def headRun : MessageType → ℕ
  | [] => 0
  | byte :: rest => runFrom byte 1 rest

/-- The loop that lengthens a literal block: runs shorter than three are taken whole, until the
block holds 128 bytes. Returns the block and the bytes after it. -/
def literalLoop : ℕ → MessageType → MessageType → MessageType × MessageType
  | 0, literal, rest => (literal, rest)
  | fuel + 1, literal, rest =>
    if rest = [] then (literal, rest)
    else
      let run := headRun rest
      if 3 ≤ run ∨ 128 ≤ literal.length then (literal, rest)
      else literalLoop fuel (literal ++ rest.take run) (rest.drop run)

/-- The main loop of `_compressRunLength`. -/
def compressLoop : ℕ → MessageType → MessageType → MessageType
  | 0, out, _ => out
  | _ + 1, out, [] => out
  | fuel + 1, out, byte :: tail =>
    let rest := byte :: tail
    let run := headRun rest
    if 3 ≤ run then
      compressLoop fuel (out ++ [0x80 ||| UInt8.ofNat (run - 3), byte]) (rest.drop run)
    else
      let (literal, rest) := literalLoop rest.length (rest.take run) (rest.drop run)
      compressLoop fuel (out ++ UInt8.ofNat (literal.length - 1) :: literal) rest

/-- `_compressRunLength`. -/
def compressRunLength (payload : MessageType) : MessageType :=
  compressLoop payload.length [] payload

/-! ## The decompressor -/

/-- Why the decompressor stops early. -/
inductive DecompressStop
  | error (error : CodecError)
  | outOfBounds
  deriving DecidableEq, Repr

/-- The locals of `_decompressRunLength`. -/
structure DecompressState where
  out : MessageType
  offset : ℕ
  deriving DecidableEq, Repr

/-- A read of `payload` at `offset`. -/
def byteAt (payload : MessageType) (offset : ℕ) : Except DecompressStop UInt8 :=
  match payload[offset]? with
  | some byte => .ok byte
  | none => .error .outOfBounds

/-- One turn of the loop of `_decompressRunLength`. -/
def decompressStep (payload : MessageType) (maxOutputBytes : ℕ) (s : DecompressState) :
    Except DecompressStop DecompressState := do
  let control ← byteAt payload s.offset
  let offset := s.offset + 1
  if control &&& 0x80 ≠ 0 then
    if payload.length ≤ offset then throw (.error (.rpc .invalidRequest))
    let count := (control &&& 0x7F).toNat + 3
    if maxOutputBytes - min maxOutputBytes s.out.length < count then
      throw (.error (.io .messageTooLarge))
    let value ← byteAt payload offset
    return { out := s.out ++ List.replicate count value, offset := offset + 1 }
  else
    let count := control.toNat + 1
    if payload.length - offset < count then throw (.error (.rpc .invalidRequest))
    if maxOutputBytes - min maxOutputBytes s.out.length < count then
      throw (.error (.io .messageTooLarge))
    return { out := s.out ++ (payload.drop offset).take count, offset := offset + count }

/-- The loop of `_decompressRunLength`. -/
def decompressLoop (payload : MessageType) (maxOutputBytes : ℕ) :
    ℕ → DecompressState → Except DecompressStop DecompressState
  | 0, s => .ok s
  | fuel + 1, s =>
    if s.offset < payload.length then do
      let s ← decompressStep payload maxOutputBytes s
      decompressLoop payload maxOutputBytes fuel s
    else .ok s

/-- `_decompressRunLength`. -/
def decompressRunLength (payload : MessageType) (maxOutputBytes : ℕ) :
    Except DecompressStop MessageType := do
  let s ← decompressLoop payload maxOutputBytes payload.length { out := [], offset := 0 }
  return s.out

/-! ## The codec -/

/-- `NekoRpcCompressionCodec::compress`. -/
def compress (payload : MessageType) : CompressionAlgorithm → Except CodecError MessageType
  | .none => .ok payload
  | .runLength => .ok (compressRunLength payload)
  | .unknown _ => .error (.rpc .invalidRequest)

/-- `NekoRpcCompressionCodec::decompress`. -/
def decompress (payload : MessageType) (algorithm : CompressionAlgorithm) (maxOutputBytes : ℕ) :
    Except DecompressStop MessageType :=
  match algorithm with
  | .none =>
    if maxOutputBytes < payload.length then .error (.error (.io .messageTooLarge))
    else .ok payload
  | .runLength => decompressRunLength payload maxOutputBytes
  | .unknown _ => .error (.error (.rpc .invalidRequest))

end NekoProto.Rpc
