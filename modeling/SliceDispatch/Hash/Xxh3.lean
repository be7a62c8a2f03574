namespace SliceDispatch.Xxh3

def secret : ByteArray := ⟨#[
  0xb8, 0xfe, 0x6c, 0x39, 0x23, 0xa4, 0x4b, 0xbe, 0x7c, 0x01, 0x81, 0x2c, 0xf7, 0x21, 0xad, 0x1c,
  0xde, 0xd4, 0x6d, 0xe9, 0x83, 0x90, 0x97, 0xdb, 0x72, 0x40, 0xa4, 0xa4, 0xb7, 0xb3, 0x67, 0x1f,
  0xcb, 0x79, 0xe6, 0x4e, 0xcc, 0xc0, 0xe5, 0x78, 0x82, 0x5a, 0xd0, 0x7d, 0xcc, 0xff, 0x72, 0x21,
  0xb8, 0x08, 0x46, 0x74, 0xf7, 0x43, 0x24, 0x8e, 0xe0, 0x35, 0x90, 0xe6, 0x81, 0x3a, 0x26, 0x4c,
  0x3c, 0x28, 0x52, 0xbb, 0x91, 0xc3, 0x00, 0xcb, 0x88, 0xd0, 0x65, 0x8b, 0x1b, 0x53, 0x2e, 0xa3,
  0x71, 0x64, 0x48, 0x97, 0xa2, 0x0d, 0xf9, 0x4e, 0x38, 0x19, 0xef, 0x46, 0xa9, 0xde, 0xac, 0xd8,
  0xa8, 0xfa, 0x76, 0x3f, 0xe3, 0x9c, 0x34, 0x3f, 0xf9, 0xdc, 0xbb, 0xc7, 0xc7, 0x0b, 0x4f, 0x1d,
  0x8a, 0x51, 0xe0, 0x4b, 0xcd, 0xb4, 0x59, 0x31, 0xc8, 0x9f, 0x7e, 0xc9, 0xd9, 0x78, 0x73, 0x64,
  0xea, 0xc5, 0xac, 0x83, 0x34, 0xd3, 0xeb, 0xc3, 0xc5, 0x81, 0xa0, 0xff, 0xfa, 0x13, 0x63, 0xeb,
  0x17, 0x0d, 0xdd, 0x51, 0xb7, 0xf0, 0xda, 0x49, 0xd3, 0x16, 0x55, 0x26, 0x29, 0xd4, 0x68, 0x9e,
  0x2b, 0x16, 0xbe, 0x58, 0x7d, 0x47, 0xa1, 0xfc, 0x8f, 0xf8, 0xb8, 0xd1, 0x7a, 0xd0, 0x31, 0xce,
  0x45, 0xcb, 0x3a, 0x8f, 0x95, 0x16, 0x04, 0x28, 0xaf, 0xd7, 0xfb, 0xca, 0xbb, 0x4b, 0x40, 0x7e]⟩

def prime32A : UInt64 := 0x9e3779b1
def prime32B : UInt64 := 0x85ebca77
def prime32C : UInt64 := 0xc2b2ae3d
def prime64A : UInt64 := 0x9e3779b185ebca87
def prime64B : UInt64 := 0xc2b2ae3d27d4eb4f
def prime64C : UInt64 := 0x165667b19e3779f9
def prime64D : UInt64 := 0x85ebca77c2b2ae63
def prime64E : UInt64 := 0x27d4eb2f165667c5

def byte (s : ByteArray) (i : Nat) : UInt64 := ((s[i]?).getD 0).toUInt64

/-- Four bytes from `i` on, least significant first. -/
def read32 (s : ByteArray) (i : Nat) : UInt64 :=
  byte s i ||| byte s (i + 1) <<< 8 ||| byte s (i + 2) <<< 16 ||| byte s (i + 3) <<< 24

def read64 (s : ByteArray) (i : Nat) : UInt64 := read32 s i ||| read32 s (i + 4) <<< 32

def rotateLeft (x n : UInt64) : UInt64 := x <<< n ||| x >>> (64 - n)

def swapBytes32 (x : UInt64) : UInt64 :=
  (x &&& 0xff) <<< 24 ||| (x >>> 8 &&& 0xff) <<< 16 ||| (x >>> 16 &&& 0xff) <<< 8 |||
    (x >>> 24 &&& 0xff)

def swapBytes64 (x : UInt64) : UInt64 := swapBytes32 x <<< 32 ||| swapBytes32 (x >>> 32)

/-- The two halves of the 128-bit product, exclusive-ored. -/
def foldedProduct (x y : UInt64) : UInt64 :=
  let product := x.toNat * y.toNat
  UInt64.ofNat product ^^^ UInt64.ofNat (product >>> 64)

def avalanche (h : UInt64) : UInt64 :=
  let h := (h ^^^ h >>> 37) * 0x165667919e3779f9
  h ^^^ h >>> 32

def avalanche64 (h : UInt64) : UInt64 :=
  let h := (h ^^^ h >>> 33) * prime64B
  let h := (h ^^^ h >>> 29) * prime64C
  h ^^^ h >>> 32

def hashEmpty (seed : UInt64) : UInt64 :=
  avalanche64 (seed ^^^ read64 secret 56 ^^^ read64 secret 64)

def hash1to3 (s : ByteArray) (seed : UInt64) : UInt64 :=
  let combined := byte s 0 <<< 16 ||| byte s (s.size / 2) <<< 24 ||| byte s (s.size - 1) |||
    UInt64.ofNat s.size <<< 8
  avalanche64 (combined ^^^ ((read32 secret 0 ^^^ read32 secret 4) + seed))

def hash4to8 (s : ByteArray) (seed : UInt64) : UInt64 :=
  let seed := seed ^^^ swapBytes32 seed <<< 32
  let input := read32 s (s.size - 4) + read32 s 0 <<< 32
  let h := input ^^^ ((read64 secret 8 ^^^ read64 secret 16) - seed)
  let h := (h ^^^ rotateLeft h 49 ^^^ rotateLeft h 24) * 0x9fb21c651e98df25
  let h := (h ^^^ ((h >>> 35) + UInt64.ofNat s.size)) * 0x9fb21c651e98df25
  h ^^^ h >>> 28

def hash9to16 (s : ByteArray) (seed : UInt64) : UInt64 :=
  let low := read64 s 0 ^^^ ((read64 secret 24 ^^^ read64 secret 32) + seed)
  let high := read64 s (s.size - 8) ^^^ ((read64 secret 40 ^^^ read64 secret 48) - seed)
  avalanche (UInt64.ofNat s.size + swapBytes64 low + high + foldedProduct low high)

/-- Sixteen bytes from `i` on, mixed with the secret from `k` on. -/
def mix16 (s : ByteArray) (seed : UInt64) (i k : Nat) : UInt64 :=
  foldedProduct (read64 s i ^^^ (read64 secret k + seed))
    (read64 s (i + 8) ^^^ (read64 secret (k + 8) - seed))

/-- Pairs of sixteen-byte lanes from both ends towards the middle. -/
def hash17to128 (s : ByteArray) (seed : UInt64) : UInt64 :=
  let pairs := (s.size - 1) / 32 + 1
  avalanche <| (List.range pairs).foldl
    (fun acc i => acc + mix16 s seed (16 * i) (32 * i) +
      mix16 s seed (s.size - 16 * (i + 1)) (32 * i + 16))
    (UInt64.ofNat s.size * prime64A)

def hash129to240 (s : ByteArray) (seed : UInt64) : UInt64 :=
  let head := avalanche <| (List.range 8).foldl
    (fun acc i => acc + mix16 s seed (16 * i) (16 * i)) (UInt64.ofNat s.size * prime64A)
  let body := (List.range (s.size / 16 - 8)).foldl
    (fun acc i => acc + mix16 s seed (16 * (i + 8)) (16 * i + 3)) head
  avalanche (body + mix16 s seed (s.size - 16) 119)

/-- The 24 words of the secret, seeded: even ones plus the seed, odd ones minus it. -/
def seededSecret (seed : UInt64) : ByteArray :=
  (List.range 24).foldl
    (fun bytes i =>
      let word := if i % 2 = 0 then read64 secret (8 * i) + seed else read64 secret (8 * i) - seed
      (List.range 8).foldl (fun bytes b => bytes.push (word >>> (8 * UInt64.ofNat b)).toUInt8) bytes)
    (ByteArray.emptyWithCapacity 192)

structure Lanes where
  lane0 : UInt64 := prime32C
  lane1 : UInt64 := prime64A
  lane2 : UInt64 := prime64B
  lane3 : UInt64 := prime64C
  lane4 : UInt64 := prime64D
  lane5 : UInt64 := prime32B
  lane6 : UInt64 := prime64E
  lane7 : UInt64 := prime32A

def halvesProduct (x : UInt64) : UInt64 :=
  let low : UInt64 := x &&& 0xffffffff
  low * (x >>> 32)

/-- Adds the 64 bytes from `i` on, keyed by the secret from `k` on: each word's product of halves to
its own lane, the word itself to the neighbour's. -/
def Lanes.addStripe (a : Lanes) (s key : ByteArray) (i k : Nat) : Lanes :=
  let word (n : Nat) := read64 s (i + 8 * n)
  let keyed (n : Nat) := halvesProduct (word n ^^^ read64 key (k + 8 * n))
  { lane0 := a.lane0 + word 1 + keyed 0
    lane1 := a.lane1 + word 0 + keyed 1
    lane2 := a.lane2 + word 3 + keyed 2
    lane3 := a.lane3 + word 2 + keyed 3
    lane4 := a.lane4 + word 5 + keyed 4
    lane5 := a.lane5 + word 4 + keyed 5
    lane6 := a.lane6 + word 7 + keyed 6
    lane7 := a.lane7 + word 6 + keyed 7 }

def scrambleLane (x key : UInt64) : UInt64 := (x ^^^ x >>> 47 ^^^ key) * prime32A

def Lanes.scramble (a : Lanes) (key : ByteArray) : Lanes where
  lane0 := scrambleLane a.lane0 (read64 key 128)
  lane1 := scrambleLane a.lane1 (read64 key 136)
  lane2 := scrambleLane a.lane2 (read64 key 144)
  lane3 := scrambleLane a.lane3 (read64 key 152)
  lane4 := scrambleLane a.lane4 (read64 key 160)
  lane5 := scrambleLane a.lane5 (read64 key 168)
  lane6 := scrambleLane a.lane6 (read64 key 176)
  lane7 := scrambleLane a.lane7 (read64 key 184)

def Lanes.merge (a : Lanes) (key : ByteArray) (start : UInt64) : UInt64 :=
  let mixed (x y : UInt64) (k : Nat) :=
    foldedProduct (x ^^^ read64 key k) (y ^^^ read64 key (k + 8))
  avalanche (start + mixed a.lane0 a.lane1 11 + mixed a.lane2 a.lane3 27 +
    mixed a.lane4 a.lane5 43 + mixed a.lane6 a.lane7 59)

def Lanes.addStripes (a : Lanes) (s key : ByteArray) (i count : Nat) : Lanes :=
  (List.range count).foldl (fun a n => a.addStripe s key (i + 64 * n) (8 * n)) a

/-- Blocks of sixteen stripes, then the stripes of the rest, then the last 64 bytes once more. -/
def hashLong (s : ByteArray) (seed : UInt64) : UInt64 :=
  let key := seededSecret seed
  let blocks := (s.size - 1) / 1024
  let whole := (List.range blocks).foldl
    (fun a n => (a.addStripes s key (1024 * n) 16).scramble key) ({} : Lanes)
  let rest := whole.addStripes s key (1024 * blocks) ((s.size - 1 - 1024 * blocks) / 64)
  let last := rest.addStripe s key (s.size - 64) 121
  last.merge key (UInt64.ofNat s.size * prime64A)

def hash (s : ByteArray) (seed : UInt64) : UInt64 :=
  if s.size = 0 then hashEmpty seed
  else if s.size ≤ 3 then hash1to3 s seed
  else if s.size ≤ 8 then hash4to8 s seed
  else if s.size ≤ 16 then hash9to16 s seed
  else if s.size ≤ 128 then hash17to128 s seed
  else if s.size ≤ 240 then hash129to240 s seed
  else hashLong s seed

end SliceDispatch.Xxh3
