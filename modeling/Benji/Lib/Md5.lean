import Mathlib.Data.List.Basic
import Benji.Lib.ByteFile

/-! MD5 on byte strings. -/
namespace Lib

namespace Md5

def shifts : List ℕ := [7, 12, 17, 22, 5, 9, 14, 20, 4, 11, 16, 23, 6, 10, 15, 21]

/-- The integer parts of `2 ^ 32 * |sin (i + 1)|`. -/
def sines : List ℕ := [
  0xd76aa478, 0xe8c7b756, 0x242070db, 0xc1bdceee,
  0xf57c0faf, 0x4787c62a, 0xa8304613, 0xfd469501,
  0x698098d8, 0x8b44f7af, 0xffff5bb1, 0x895cd7be,
  0x6b901122, 0xfd987193, 0xa679438e, 0x49b40821,
  0xf61e2562, 0xc040b340, 0x265e5a51, 0xe9b6c7aa,
  0xd62f105d, 0x02441453, 0xd8a1e681, 0xe7d3fbc8,
  0x21e1cde6, 0xc33707d6, 0xf4d50d87, 0x455a14ed,
  0xa9e3e905, 0xfcefa3f8, 0x676f02d9, 0x8d2a4c8a,
  0xfffa3942, 0x8771f681, 0x6d9d6122, 0xfde5380c,
  0xa4beea44, 0x4bdecfa9, 0xf6bb4b60, 0xbebfbc70,
  0x289b7ec6, 0xeaa127fa, 0xd4ef3085, 0x04881d05,
  0xd9d4d039, 0xe6db99e5, 0x1fa27cf8, 0xc4ac5665,
  0xf4292244, 0x432aff97, 0xab9423a7, 0xfc93a039,
  0x655b59c3, 0x8f0ccc92, 0xffeff47d, 0x85845dd1,
  0x6fa87e4f, 0xfe2ce6e0, 0xa3014314, 0x4e0811a1,
  0xf7537e82, 0xbd3af235, 0x2ad7d2bb, 0xeb86d391]

def rotateLeft (x s : ℕ) : ℕ := (x <<< s ||| x >>> (32 - s)) % 2 ^ 32

structure State where
  a : ℕ
  b : ℕ
  c : ℕ
  d : ℕ

def initial : State := ⟨0x67452301, 0xefcdab89, 0x98badcfe, 0x10325476⟩

/-- One of the 64 operations on the words of a chunk. -/
def operation (words : List ℕ) (s : State) (i : ℕ) : State :=
  let not (x : ℕ) := (2 ^ 32 - 1) ^^^ x
  let (f, g) :=
    if i < 16 then (s.b &&& s.c ||| not s.b &&& s.d, i)
    else if i < 32 then (s.d &&& s.b ||| not s.d &&& s.c, (5 * i + 1) % 16)
    else if i < 48 then (s.b ^^^ s.c ^^^ s.d, (3 * i + 5) % 16)
    else (s.c ^^^ (s.b ||| not s.d), 7 * i % 16)
  let sum := (f + s.a + sines.getD i 0 + words.getD g 0) % 2 ^ 32
  ⟨s.d, (s.b + rotateLeft sum (shifts.getD (i / 16 * 4 + i % 4) 0)) % 2 ^ 32, s.b, s.c⟩

def littleEndian (bytes : Bytes) : ℕ := bytes.foldr (fun b n => b.toNat + 256 * n) 0

def chunk (s : State) (block : Bytes) : State :=
  let words := (List.range 16).map fun i => littleEndian (slice block (4 * i) 4)
  let t := (List.range 64).foldl (operation words) s
  ⟨(s.a + t.a) % 2 ^ 32, (s.b + t.b) % 2 ^ 32, (s.c + t.c) % 2 ^ 32, (s.d + t.d) % 2 ^ 32⟩

/-- `n` bytes of `x`, the lowest first. -/
def toLittleEndian (n x : ℕ) : Bytes :=
  (List.range n).map fun i => UInt8.ofNat (x >>> (8 * i))

def pad (message : Bytes) : Bytes :=
  message ++ 0x80 :: zeros ((119 - message.length % 64) % 64) ++
    toLittleEndian 8 (8 * message.length)

end Md5

/-- `hashlib.md5(message).digest()`. -/
def md5 (message : Bytes) : Bytes :=
  let padded := Md5.pad message
  let s := (List.range (padded.length / 64)).foldl
    (fun s i => Md5.chunk s (slice padded (64 * i) 64)) Md5.initial
  [s.a, s.b, s.c, s.d].flatMap (Md5.toLittleEndian 4)

theorem length_md5 (message : Bytes) : (md5 message).length = 16 := by
  simp [md5, Md5.toLittleEndian]

/-- The lower case hex digits of bytes. -/
def hexdigest (bytes : Bytes) : List Char :=
  bytes.flatMap fun b => [Nat.digitChar (b.toNat / 16), Nat.digitChar (b.toNat % 16)]

example : hexdigest (md5 [97]) = "0cc175b9c0f1b6a831c399e269772661".toList := by decide +kernel

end Lib
