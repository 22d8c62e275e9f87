/-!
# The hash function BLAKE3

The unkeyed hash with a digest of 32 bytes. The input is cut into chunks of 1024 bytes, each hashed
block by block with a chaining value; the chunks are the leaves of a binary tree whose left subtrees
are full.

* `Blake3.compress`: the compression function;
* `Blake3.chunk`, `Blake3.tree`: chunks and the tree over them;
* `Blake3.hexDigest`: the digest of a text in hexadecimal.
-/

namespace LoopNest.Blake3

/-- The initial chaining value. -/
def initial : List UInt32 :=
  [0x6a09e667, 0xbb67ae85, 0x3c6ef372, 0xa54ff53a, 0x510e527f, 0x9b05688c, 0x1f83d9ab, 0x5be0cd19]

/-- The order in which a round finds the words of the message of the round before. -/
def permutation : List Nat := [2, 6, 3, 10, 7, 0, 4, 13, 1, 11, 12, 5, 9, 14, 15, 8]

/-- Rotation to the right. -/
def rotate (x : UInt32) (n : UInt32) : UInt32 := (x >>> n) ||| (x <<< (32 - n))

/-- Mix two words of the message into four words of the state. -/
def mix (s : Array UInt32) (a b c d : Nat) (x y : UInt32) : Array UInt32 :=
  let va := s[a]?.getD 0
  let vb := s[b]?.getD 0
  let vc := s[c]?.getD 0
  let vd := s[d]?.getD 0
  let va := va + vb + x
  let vd := rotate (vd ^^^ va) 16
  let vc := vc + vd
  let vb := rotate (vb ^^^ vc) 12
  let va := va + vb + y
  let vd := rotate (vd ^^^ va) 8
  let vc := vc + vd
  let vb := rotate (vb ^^^ vc) 7
  (((s.setIfInBounds a va).setIfInBounds b vb).setIfInBounds c vc).setIfInBounds d vd

/-- The places of the state that are mixed in a round: the columns, then the diagonals. -/
def quarters : List (Nat × Nat × Nat × Nat) :=
  [(0, 4, 8, 12), (1, 5, 9, 13), (2, 6, 10, 14), (3, 7, 11, 15),
    (0, 5, 10, 15), (1, 6, 11, 12), (2, 7, 8, 13), (3, 4, 9, 14)]

/-- One round: each quarter takes the next two words of the message. -/
def round (s : Array UInt32) (m : List UInt32) : Array UInt32 :=
  let words := m.toArray
  (List.range 8).foldl (fun s k =>
    let (a, b, c, d) := quarters[k]?.getD (0, 0, 0, 0)
    mix s a b c d (words[2 * k]?.getD 0) (words[2 * k + 1]?.getD 0)) s

/-- The message of the next round. -/
def permute (m : List UInt32) : List UInt32 :=
  let words := m.toArray
  permutation.map fun i => words[i]?.getD 0

/-- A number of rounds. -/
def rounds : Nat → Array UInt32 → List UInt32 → Array UInt32
  | 0, s, _ => s
  | n + 1, s, m => rounds n (round s m) (permute m)

/-- The compression function, cut to a chaining value of eight words. -/
def compress (cv block : List UInt32) (counter : UInt64) (size flags : UInt32) : List UInt32 :=
  let start := cv ++ initial.take 4 ++
    [counter.toUInt32, (counter >>> 32).toUInt32, size, flags]
  let s := (rounds 7 start.toArray block).toList
  List.zipWith (· ^^^ ·) (s.take 8) (s.drop 8)

/-- Marks the first block of a chunk. -/
def chunkStart : UInt32 := 1

/-- Marks the last block of a chunk. -/
def chunkEnd : UInt32 := 2

/-- Marks a node over two subtrees. -/
def parent : UInt32 := 4

/-- Marks the last compression of all. -/
def root : UInt32 := 8

/-- Four bytes as a word, the lowest first. -/
def word (bs : List UInt8) : UInt32 := bs.foldr (fun b w => (w <<< 8) ||| b.toUInt32) 0

/-- The words of a block, filled up with zeros to sixteen. -/
def words : Nat → List UInt8 → List UInt32
  | 0, _ => []
  | n + 1, bs => word (bs.take 4) :: words n (bs.drop 4)

/-- A compression that is still to be done. -/
structure Output where
  cv : List UInt32
  block : List UInt32
  counter : UInt64
  size : UInt32
  flags : UInt32

/-- The chaining value of an output. -/
def Output.chain (o : Output) : List UInt32 := compress o.cv o.block o.counter o.size o.flags

/-- The digest of an output. -/
def Output.digest (o : Output) : List UInt32 :=
  compress o.cv o.block o.counter o.size (o.flags ||| root)

/-- The last compression of a chunk, from a chaining value on. -/
def chunk (counter : UInt64) (cv : List UInt32) (start : UInt32) (bs : List UInt8) : Output :=
  if bs.length ≤ 64 then ⟨cv, words 16 bs, counter, bs.length.toUInt32, start ||| chunkEnd⟩
  else chunk counter (compress cv (words 16 (bs.take 64)) counter 64 start) 0 (bs.drop 64)
termination_by bs.length
decreasing_by simp only [List.length_drop]; omega

/-- The size of the left subtree: the greatest power of two chunks that leaves something for the
right one. -/
def leftSize (size : Nat) : Nat := 1 <<< (size - 1).log2

/-- The last compression of the subtree over some bytes, of which the first chunk has the given
number. -/
def tree (counter : Nat) (bs : List UInt8) : Output :=
  if bs.length ≤ 1024 then chunk counter.toUInt64 initial chunkStart bs
  else
    let n := leftSize bs.length
    if n = 0 ∨ bs.length ≤ n then chunk counter.toUInt64 initial chunkStart bs
    else
      let left := tree counter (bs.take n)
      let right := tree (counter + n / 1024) (bs.drop n)
      ⟨initial, left.chain ++ right.chain, 0, 64, parent⟩
termination_by bs.length
decreasing_by all_goals simp only [List.length_take, List.length_drop]; omega

/-- A byte as two hexadecimal digits. -/
def hexByte (n : Nat) : List Char := [Nat.digitChar (n / 16 % 16), Nat.digitChar (n % 16)]

/-- The bytes of a word, the lowest first, in hexadecimal. -/
def hexWord (w : UInt32) : List Char :=
  let n := w.toNat
  [n, n >>> 8, n >>> 16, n >>> 24].flatMap fun b => hexByte (b % 256)

/-- The digest of a text in hexadecimal. -/
def hexDigest (s : String) : String :=
  String.ofList ((tree 0 s.toUTF8.toList).digest.flatMap hexWord)

end LoopNest.Blake3
