import LSystem.Random.Source

/-! # The key stream

The standard source: the key stream of ChaCha with twelve rounds. The key is spread from a 64-bit
seed by a permuted congruential generator. Blocks of sixteen 32-bit words are numbered from zero;
each 64-bit word is two successive words of the stream, the low half first.
-/

namespace LSystem

abbrev Block := Vector UInt32 16

namespace Block

@[inline] def rotate (x : UInt32) (n : UInt32) : UInt32 := (x <<< n) ||| (x >>> (32 - n))

def quarterRound (a b c d : Fin 16) (v : Block) : Block :=
  let v := v.set a (v[a] + v[b])
  let v := v.set d (rotate (v[d] ^^^ v[a]) 16)
  let v := v.set c (v[c] + v[d])
  let v := v.set b (rotate (v[b] ^^^ v[c]) 12)
  let v := v.set a (v[a] + v[b])
  let v := v.set d (rotate (v[d] ^^^ v[a]) 8)
  let v := v.set c (v[c] + v[d])
  v.set b (rotate (v[b] ^^^ v[c]) 7)

def doubleRound (v : Block) : Block :=
  let v := quarterRound 0 4 8 12 v
  let v := quarterRound 1 5 9 13 v
  let v := quarterRound 2 6 10 14 v
  let v := quarterRound 3 7 11 15 v
  let v := quarterRound 0 5 10 15 v
  let v := quarterRound 1 6 11 12 v
  let v := quarterRound 2 7 8 13 v
  quarterRound 3 4 9 14 v

def initial (key : Vector UInt32 8) (number : UInt64) : Block :=
  #v[0x61707865, 0x3320646e, 0x79622d32, 0x6b206574,
    key[0], key[1], key[2], key[3], key[4], key[5], key[6], key[7],
    number.toUInt32, (number >>> 32).toUInt32, 0, 0]

def mixed (key : Vector UInt32 8) (number : UInt64) : Block :=
  let v := initial key number
  Vector.zipWith (· + ·) v (Nat.repeat doubleRound 6 v)

def pair (low high : UInt32) : UInt64 := low.toUInt64 ||| (high.toUInt64 <<< 32)

def firstWord (v : Block) : UInt64 := pair v[0] v[1]

def laterWords (v : Block) : List UInt64 :=
  [pair v[2] v[3], pair v[4] v[5], pair v[6] v[7], pair v[8] v[9], pair v[10] v[11],
    pair v[12] v[13], pair v[14] v[15]]

end Block

/-- A key stream: the number of the next block, and the words left of the last one. -/
structure KeyStream where
  key : Vector UInt32 8
  number : UInt64
  pending : List UInt64

namespace KeyStream

def spread (state : UInt64) : UInt64 := state * 6364136223846793005 + 11634580027462260723

def permuted (state : UInt64) : UInt32 :=
  let x := (((state >>> 18) ^^^ state) >>> 27).toUInt32
  let n := (state >>> 59).toUInt32
  (x >>> n) ||| (x <<< ((32 - n) % 32))

def ofSeed (seed : UInt64) : KeyStream where
  key := Vector.ofFn fun i => permuted (Nat.repeat spread (i.val + 1) seed)
  number := 0
  pending := []

def next (s : KeyStream) : UInt64 × KeyStream :=
  match s.pending with
  | u :: rest => (u, { s with pending := rest })
  | [] =>
    let block := Block.mixed s.key s.number
    (block.firstWord, { s with number := s.number + 1, pending := block.laterWords })

instance : Source KeyStream := ⟨next⟩

end KeyStream

end LSystem
