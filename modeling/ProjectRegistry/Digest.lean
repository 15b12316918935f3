import ProjectRegistry.Text.Hex

/-!
# MD5 digests

A digest is sixteen bytes; it names the content of an uploaded file. The digest of a content is MD5:
four words are stirred once by each block of sixty-four bytes, after the content was padded to whole
blocks with its own length at the end.
-/

namespace ProjectRegistry

structure Digest where
  bytes : List UInt8
  size : bytes.length = 16
  deriving DecidableEq

namespace Digest

def ofBytes? (bytes : List UInt8) : Option Digest :=
  if h : bytes.length = 16 then some ⟨bytes, h⟩ else none

def hex (d : Digest) : String := Text.Hex.encode d.bytes

/-- The four words that the blocks stir. -/
structure Words where
  a : UInt32
  b : UInt32
  c : UInt32
  d : UInt32

def Words.start : Words := ⟨0x67452301, 0xefcdab89, 0x98badcfe, 0x10325476⟩

def Words.add (v w : Words) : Words := ⟨v.a + w.a, v.b + w.b, v.c + w.c, v.d + w.d⟩

/-- The constants are the fractions of the sines of 1 to 64, to thirty-two bits. -/
def sines : List UInt32 := [
  0xd76aa478, 0xe8c7b756, 0x242070db, 0xc1bdceee, 0xf57c0faf, 0x4787c62a, 0xa8304613, 0xfd469501,
  0x698098d8, 0x8b44f7af, 0xffff5bb1, 0x895cd7be, 0x6b901122, 0xfd987193, 0xa679438e, 0x49b40821,
  0xf61e2562, 0xc040b340, 0x265e5a51, 0xe9b6c7aa, 0xd62f105d, 0x02441453, 0xd8a1e681, 0xe7d3fbc8,
  0x21e1cde6, 0xc33707d6, 0xf4d50d87, 0x455a14ed, 0xa9e3e905, 0xfcefa3f8, 0x676f02d9, 0x8d2a4c8a,
  0xfffa3942, 0x8771f681, 0x6d9d6122, 0xfde5380c, 0xa4beea44, 0x4bdecfa9, 0xf6bb4b60, 0xbebfbc70,
  0x289b7ec6, 0xeaa127fa, 0xd4ef3085, 0x04881d05, 0xd9d4d039, 0xe6db99e5, 0x1fa27cf8, 0xc4ac5665,
  0xf4292244, 0x432aff97, 0xab9423a7, 0xfc93a039, 0x655b59c3, 0x8f0ccc92, 0xffeff47d, 0x85845dd1,
  0x6fa87e4f, 0xfe2ce6e0, 0xa3014314, 0x4e0811a1, 0xf7537e82, 0xbd3af235, 0x2ad7d2bb, 0xeb86d391]

/-- The rotations of a round, which come in turn. -/
def turn (round place : Nat) : UInt32 :=
  let turns : List UInt32 := match round with
    | 0 => [7, 12, 17, 22]
    | 1 => [5, 9, 14, 20]
    | 2 => [4, 11, 16, 23]
    | _ => [6, 10, 15, 21]
  turns.getD (place % 4) 0

def rotate (x n : UInt32) : UInt32 := (x <<< n) ||| (x >>> (32 - n))

/-- One step: the round decides how three words are mixed and which word of the block comes in. -/
def step (block : Array UInt32) (w : Words) (i : Nat) (constant : UInt32) : Words :=
  let (mixed, place) := match i / 16 with
    | 0 => ((w.b &&& w.c) ||| (~~~w.b &&& w.d), i)
    | 1 => ((w.d &&& w.b) ||| (~~~w.d &&& w.c), 5 * i + 1)
    | 2 => (w.b ^^^ w.c ^^^ w.d, 3 * i + 5)
    | _ => (w.c ^^^ (w.b ||| ~~~w.d), 7 * i)
  let sum := w.a + mixed + constant + block.getD (place % 16) 0
  ⟨w.d, w.b + rotate sum (turn (i / 16) i), w.b, w.c⟩

/-- The words of a block, their low bytes first. -/
def wordsOf : List UInt8 → List UInt32
  | p :: q :: r :: s :: rest =>
    (p.toUInt32 ||| (q.toUInt32 <<< 8) ||| (r.toUInt32 <<< 16) ||| (s.toUInt32 <<< 24)) ::
      wordsOf rest
  | _ => []

def stir (w : Words) (block : List UInt8) : Words :=
  let words := (wordsOf block).toArray
  w.add (sines.foldl (fun (v, i) k => (step words v i k, i + 1)) (w, 0)).1

def absorb : Nat → Words → List UInt8 → Words
  | 0, w, _ => w
  | n + 1, w, bytes => absorb n (stir w (bytes.take 64)) (bytes.drop 64)

/-- A number in eight bytes, the low ones first. -/
def eightBytes (n : Nat) : List UInt8 := (List.range 8).map fun i => UInt8.ofNat (n / Nat.pow 256 i)

/-- What follows a content of some length: a bit, zeros up to the last eight bytes of a block, and
the length in bits. -/
def padding (length : Nat) : List UInt8 :=
  0x80 :: List.replicate ((119 - length % 64) % 64) 0 ++ eightBytes (8 * length)

def fourBytes (x : UInt32) : List UInt8 :=
  [x.toUInt8, (x >>> 8).toUInt8, (x >>> 16).toUInt8, (x >>> 24).toUInt8]

def ofContent (content : List UInt8) : Digest :=
  let padded := content ++ padding content.length
  let w := absorb (padded.length / 64) Words.start padded
  ⟨fourBytes w.a ++ fourBytes w.b ++ fourBytes w.c ++ fourBytes w.d, rfl⟩

end Digest

end ProjectRegistry
