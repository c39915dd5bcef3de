import StakeConsensus.Bytes.Fixed

/-!
# BLAKE3

The hash of a byte string, in its default mode. The input is cut into chunks of
1024 bytes, each chunk into blocks of 64 bytes that are compressed in sequence,
and the chunk values are joined by a binary tree whose left subtrees are the
largest complete ones. Only the last compression carries the root flag.
-/

namespace StakeConsensus.Blake3

/-- A message block, or the state of the compression function. -/
abbrev Block := Vector UInt32 16

/-- A chaining value. -/
abbrev Chain := Vector UInt32 8

def iv : Chain :=
  #v[0x6A09E667, 0xBB67AE85, 0x3C6EF372, 0xA54FF53A,
     0x510E527F, 0x9B05688C, 0x1F83D9AB, 0x5BE0CD19]

def chunkStart : UInt32 := 1
def chunkEnd : UInt32 := 2
def parentFlag : UInt32 := 4
def rootFlag : UInt32 := 8

@[inline] def rotateRight (x : UInt32) (k : UInt32) : UInt32 :=
  (x >>> k) ||| (x <<< (32 - k))

/-- The quarter round: two message words go into one column or diagonal. -/
@[inline] def mix (v : Block) (a b c d : Fin 16) (x y : UInt32) : Block :=
  let va := v[a] + v[b] + x
  let vd := rotateRight (v[d] ^^^ va) 16
  let vc := v[c] + vd
  let vb := rotateRight (v[b] ^^^ vc) 12
  let va := va + vb + y
  let vd := rotateRight (vd ^^^ va) 8
  let vc := vc + vd
  let vb := rotateRight (vb ^^^ vc) 7
  (((v.set a va).set b vb).set c vc).set d vd

/-- Four columns, then four diagonals. -/
def round (v m : Block) : Block :=
  let v := mix v 0 4 8 12 m[0] m[1]
  let v := mix v 1 5 9 13 m[2] m[3]
  let v := mix v 2 6 10 14 m[4] m[5]
  let v := mix v 3 7 11 15 m[6] m[7]
  let v := mix v 0 5 10 15 m[8] m[9]
  let v := mix v 1 6 11 12 m[10] m[11]
  let v := mix v 2 7 8 13 m[12] m[13]
  mix v 3 4 9 14 m[14] m[15]

/-- The order in which the next round reads the message words. -/
def permute (m : Block) : Block :=
  #v[m[2], m[6], m[3], m[10], m[7], m[0], m[4], m[13],
     m[1], m[11], m[12], m[5], m[9], m[14], m[15], m[8]]

def rounds : Nat → Block → Block → Block
  | 0, v, _ => v
  | k + 1, v, m => rounds k (round v m) (permute m)

/-- The first half of the compression of one block: the next chaining value. -/
def compress (cv : Chain) (m : Block) (counter : UInt64) (len flags : UInt32) : Chain :=
  let v : Block :=
    #v[cv[0], cv[1], cv[2], cv[3], cv[4], cv[5], cv[6], cv[7],
       iv[0], iv[1], iv[2], iv[3],
       counter.toUInt32, (counter >>> 32).toUInt32, len, flags]
  let v := rounds 7 v m
  #v[v[0] ^^^ v[8], v[1] ^^^ v[9], v[2] ^^^ v[10], v[3] ^^^ v[11],
     v[4] ^^^ v[12], v[5] ^^^ v[13], v[6] ^^^ v[14], v[7] ^^^ v[15]]

/-- Reading past the end gives zero, which pads the last block. -/
@[inline] def byteAt (input : ByteArray) (i : Nat) : UInt32 :=
  if h : i < input.size then input[i].toUInt32 else 0

@[inline] def wordAt (input : ByteArray) (i : Nat) : UInt32 :=
  byteAt input i ||| (byteAt input (i + 1) <<< 8) ||| (byteAt input (i + 2) <<< 16)
    ||| (byteAt input (i + 3) <<< 24)

def blockAt (input : ByteArray) (start : Nat) : Block :=
  Vector.ofFn fun i => wordAt input (start + 4 * i)

def joinChains (l r : Chain) : Block :=
  l ++ r

/-- The compressions of one chunk of `len` bytes at `start`; `extra` goes into
the flags of the last one. -/
def chunk (input : ByteArray) (index start len : Nat) (extra : UInt32) : Chain :=
  let blocks := max 1 ((len + 63) / 64)
  Nat.fold blocks (fun k _ cv =>
    let first := if k = 0 then chunkStart else 0
    let last := if k + 1 = blocks then chunkEnd ||| extra else 0
    let size := min 64 (len - 64 * k)
    compress cv (blockAt input (start + 64 * k)) index.toUInt64 size.toUInt32 (first ||| last))
    iv

/-- The largest power of two below `n`, for `n` above one. -/
def leftChunks (n : Nat) : Nat := 1 <<< (n - 1).log2

theorem leftChunks_lt {n : Nat} (h : 1 < n) : leftChunks n < n := by
  have : 2 ^ (n - 1).log2 ≤ n - 1 := Nat.log2_self_le (by omega)
  rw [leftChunks, Nat.one_shiftLeft]
  omega

theorem leftChunks_pos (n : Nat) : 0 < leftChunks n := by
  rw [leftChunks, Nat.one_shiftLeft]
  exact Nat.two_pow_pos _

/-- The value of the subtree over `n` chunks from chunk `first` on. -/
def subtree (input : ByteArray) (first n : Nat) (extra : UInt32) : Chain :=
  if h : 1 < n then
    let l := subtree input first (leftChunks n) 0
    let r := subtree input (first + leftChunks n) (n - leftChunks n) 0
    compress iv (joinChains l r) 0 64 (parentFlag ||| extra)
  else
    chunk input first (1024 * first) (min 1024 (input.size - 1024 * first)) extra
termination_by n
decreasing_by
  · exact leftChunks_lt h
  · exact Nat.sub_lt (Nat.zero_lt_of_lt h) (leftChunks_pos n)

def wordBytes (w : UInt32) : Bytes :=
  [w.toUInt8, (w >>> 8).toUInt8, (w >>> 16).toUInt8, (w >>> 24).toUInt8]

/-- The 32 bytes of a chaining value, low bytes first. -/
def digestOf (cv : Chain) : Digest :=
  ⟨wordBytes cv[0] ++ wordBytes cv[1] ++ wordBytes cv[2] ++ wordBytes cv[3]
    ++ wordBytes cv[4] ++ wordBytes cv[5] ++ wordBytes cv[6] ++ wordBytes cv[7], rfl⟩

end StakeConsensus.Blake3

namespace StakeConsensus

/-- The BLAKE3 digest of a byte string. -/
def blake3 (bs : Bytes) : Digest :=
  let input := ByteArray.mk bs.toArray
  Blake3.digestOf (Blake3.subtree input 0 (max 1 ((input.size + 1023) / 1024)) Blake3.rootFlag)

end StakeConsensus
