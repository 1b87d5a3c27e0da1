/-
# `OhosBun.OhosSign.Sha256` — SHA-256

The hash of the signer: the schedule and the rounds of a block, the padding of the last
one.  The bytes that wait for a block to be full are a list of fewer than 64.
-/
import OhosBun.Lib.Bytes

namespace OhosBun.OhosSign

open OhosBun.Lib

namespace Sha256

def K : List UInt32 := [
  0x428a2f98, 0x71374491, 0xb5c0fbcf, 0xe9b5dba5, 0x3956c25b, 0x59f111f1, 0x923f82a4,
  0xab1c5ed5, 0xd807aa98, 0x12835b01, 0x243185be, 0x550c7dc3, 0x72be5d74, 0x80deb1fe,
  0x9bdc06a7, 0xc19bf174, 0xe49b69c1, 0xefbe4786, 0x0fc19dc6, 0x240ca1cc, 0x2de92c6f,
  0x4a7484aa, 0x5cb0a9dc, 0x76f988da, 0x983e5152, 0xa831c66d, 0xb00327c8, 0xbf597fc7,
  0xc6e00bf3, 0xd5a79147, 0x06ca6351, 0x14292967, 0x27b70a85, 0x2e1b2138, 0x4d2c6dfc,
  0x53380d13, 0x650a7354, 0x766a0abb, 0x81c2c92e, 0x92722c85, 0xa2bfe8a1, 0xa81a664b,
  0xc24b8b70, 0xc76c51a3, 0xd192e819, 0xd6990624, 0xf40e3585, 0x106aa070, 0x19a4c116,
  0x1e376c08, 0x2748774c, 0x34b0bcb5, 0x391c0cb3, 0x4ed8aa4a, 0x5b9cca4f, 0x682e6ff3,
  0x748f82ee, 0x78a5636f, 0x84c87814, 0x8cc70208, 0x90befffa, 0xa4506ceb, 0xbef9a3f7,
  0xc67178f2]

/-- The words between blocks. -/
abbrev State := Vector UInt32 8

structure Ctx where
  state : State
  bitlen : UInt64
  buf : Bytes

def Ctx.new : Ctx where
  state := #v[0x6a09e667, 0xbb67ae85, 0x3c6ef372, 0xa54ff53a, 0x510e527f, 0x9b05688c,
    0x1f83d9ab, 0x5be0cd19]
  bitlen := 0
  buf := []

def rotateRight (x n : UInt32) : UInt32 := (x >>> n) ||| (x <<< (32 - n))

/-- The big-endian word at an index of the block. -/
def wordAt (p : Bytes) (i : Nat) : UInt32 :=
  ((p.drop (i * 4)).take 4).foldl (fun w b => w * 256 + b.toUInt32) 0

/-- The next word of the schedule, from the 16 before it. -/
def nextWord (w : List UInt32) : UInt32 :=
  let i := w.length
  let w15 := w.getD (i - 15) 0
  let w2 := w.getD (i - 2) 0
  let s0 := rotateRight w15 7 ^^^ rotateRight w15 18 ^^^ (w15 >>> 3)
  let s1 := rotateRight w2 17 ^^^ rotateRight w2 19 ^^^ (w2 >>> 10)
  w.getD (i - 16) 0 + s0 + w.getD (i - 7) 0 + s1

def extend : Nat → List UInt32 → List UInt32
  | 0, w => w
  | n + 1, w => extend n (w ++ [nextWord w])

def schedule (p : Bytes) : List UInt32 := extend 48 ((List.range 16).map (wordAt p))

/-- One round, with its constant and its word of the schedule. -/
def round (s : State) (kw : UInt32 × UInt32) : State :=
  let (a, b, c, d, e, f, g, h) := (s[0], s[1], s[2], s[3], s[4], s[5], s[6], s[7])
  let s1 := rotateRight e 6 ^^^ rotateRight e 11 ^^^ rotateRight e 25
  let ch := (e &&& f) ^^^ (~~~e &&& g)
  let t1 := h + s1 + ch + kw.1 + kw.2
  let s0 := rotateRight a 2 ^^^ rotateRight a 13 ^^^ rotateRight a 22
  let maj := (a &&& b) ^^^ (a &&& c) ^^^ (b &&& c)
  let t2 := s0 + maj
  #v[t1 + t2, a, b, c, d + t1, e, f, g]

/-- The state after a block of 64 bytes. -/
def block (state : State) (p : Bytes) : State :=
  Vector.zipWith (· + ·) state ((K.zip (schedule p)).foldl round state)

/-- One more byte. -/
def Ctx.push (ctx : Ctx) (byte : UInt8) : Ctx :=
  let buf := ctx.buf ++ [byte]
  if buf.length = 64 then { ctx with state := block ctx.state buf, buf := [] }
  else { ctx with buf := buf }

def Ctx.update (ctx : Ctx) (data : Bytes) : Ctx :=
  data.foldl Ctx.push { ctx with bitlen := ctx.bitlen + UInt64.ofNat data.length * 8 }

def Ctx.finalize (ctx : Ctx) : Bytes :=
  let buf := ctx.buf ++ [0x80]
  let (state, buf) :=
    if buf.length > 56 then (block ctx.state (buf ++ List.replicate (64 - buf.length) 0), [])
    else (ctx.state, buf)
  let last := buf ++ List.replicate (56 - buf.length) 0 ++ beBytes 8 ctx.bitlen.toNat
  (block state last).toList.flatMap fun s => beBytes 4 s.toNat

def hash (data : Bytes) : Bytes := (Ctx.new.update data).finalize

theorem length_hash (data : Bytes) : (hash data).length = 32 := by
  have hword : ∀ ws : List UInt32,
      (ws.flatMap fun s => beBytes 4 s.toNat).length = 4 * ws.length := by
    intro ws
    induction ws with
    | nil => rfl
    | cons w ws ih =>
      rw [List.flatMap_cons, List.length_append, ih, beBytes_length, List.length_cons]
      omega
  rw [hash, Ctx.finalize, hword, Vector.length_toList]

end Sha256

end OhosBun.OhosSign
