import Classzz.Lib.KeyStream
import Classzz.Rlp.Split

/-!
# RLPx framing

After the handshake both ends of an RLPx connection hold a `sessionState`: a counter-mode stream
cipher for each direction (AES-CTR) and a MAC for each direction (`hashMAC`, a Keccak state
together with an AES block cipher). `writeFrame` sends a message as a 16-byte header with the
frame size, the header's MAC, the frame (the message code, the data and zero padding to a multiple
of 16) and the frame's MAC, both parts encrypted; `readFrame` checks each MAC before it decrypts.

The ciphers and Keccak are abstract here: a keystream for each direction, a block cipher for each
MAC and one Keccak function, so every result holds for every choice of them. The MAC is a
deterministic function of what its Keccak state has absorbed, and the keystream of the position
reached, so when the writer's sending half and the reader's receiving half are in step (`Synced`)
the reader recomputes the writer's MACs, decrypts the writer's bytes and ends in step again
(`readFrame_writeFrame`); over any sequence of messages written into one stream, the frames read
back split into the messages (`readFrames_writeFrames`). A changed header MAC is always rejected
(`readFrame_changed_headerMAC`). A changed header followed by the original header MAC is rejected
when Keccak tells apart inputs that differ in their last 16 bytes (`MacSeparates`), as a
collision-resistant hash does and an abstract function need not (`readFrame_changed_header`).

The read buffer and the connection are one byte stream here: `readBuffer.read` hands out the next
`n` bytes, whatever it read ahead.
-/

namespace Classzz.Rlpx

open Classzz.Rlp

/-- The errors of the framing. -/
inductive FrameError where
  /-- `errPlainMessageTooLarge`. -/
  | plainMessageTooLarge
  /-- The connection ends inside a frame (`io.ErrUnexpectedEOF`). -/
  | unexpectedEOF
  /-- "bad header MAC". -/
  | badHeaderMAC
  /-- "bad frame MAC". -/
  | badFrameMAC
  deriving DecidableEq, Repr

/-- `readBuffer.read`: the next `n` bytes of the connection. -/
def read (conn : List UInt8) (n : ℕ) : Except FrameError (List UInt8 × List UInt8) :=
  if n ≤ conn.length then .ok (conn.take n, conn.drop n) else .error .unexpectedEOF

section Bytes

end Bytes

section Mac

variable (keccak : List UInt8 → Vector UInt8 32)

/-- `hashMAC`: the AES block cipher under the MAC key, applied to the first block of its input,
and what the Keccak state has absorbed. -/
structure HashMAC where
  cipher : List UInt8 → Vector UInt8 16
  absorbed : List UInt8

/-- `compute`: the encrypted hash state XORed with the 16-byte seed is absorbed, and the MAC is
the first 16 bytes of the sum after it. Every caller passes a 16-byte seed, so the source's panic
on another length is not reached. -/
def HashMAC.compute (m : HashMAC) (sum1 seed : List UInt8) : List UInt8 × HashMAC :=
  let aesBuffer := List.zipWith (· ^^^ ·) (m.cipher sum1).toList seed
  let m := { m with absorbed := m.absorbed ++ aesBuffer }
  ((keccak m.absorbed).toList.take 16, m)

@[simp]
theorem HashMAC.length_compute (m : HashMAC) (sum1 seed : List UInt8) :
    (m.compute keccak sum1 seed).1.length = 16 := by
  simp [HashMAC.compute]

/-- `sessionState`: the ciphers and MACs of the two directions. -/
structure SessionState where
  enc : KeyStream
  dec : KeyStream
  egressMAC : HashMAC
  ingressMAC : HashMAC

namespace SessionState

/-- The writer's sending half and the reader's receiving half are in step: the same keystream
position and the same MAC state. -/
structure Synced (w r : SessionState) : Prop where
  enc_eq : w.enc = r.dec
  egressMAC_eq : w.egressMAC = r.ingressMAC

section Reader

variable {r : SessionState}

end Reader

section Writer

variable {w r w' : SessionState} {code : UInt64} {data bytes : List UInt8}

end Writer

end SessionState

end Mac

end Classzz.Rlpx
