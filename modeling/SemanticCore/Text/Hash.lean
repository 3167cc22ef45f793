import SemanticCore.Number.Word
import SemanticCore.Text.Units

/-!
# Hashes in 32 bits

Texts are hashed byte by byte (`fnv1a`); composite things are hashed by mixing the hashes of their
parts into a seed, in order (`mixAll`).
-/

namespace SemanticCore.Hash

/-- The hash of no bytes. -/
def fnvOffset : UInt32 := 0x811c9dc5

/-- The factor of each step. -/
def fnvPrime : UInt32 := 0x01000193

/-- The FNV-1a hash of a list of bytes. -/
def fnv1a (bytes : List UInt8) : UInt32 :=
  bytes.foldl (fun h b => (h ^^^ b.toUInt32) * fnvPrime) fnvOffset

/-- The hash of a text by its bytes. -/
def ofText (s : String) : UInt32 := fnv1a (Text.bytes s)

/-- The constant part of what a mixing step adds. -/
def goldenRatio : Number := .ofNat 0x9e3779b9

/-- Mixes a number into a seed. The sum is one of numbers, so a large or fractional value is
rounded at each addition; only then are its lowest 32 bits taken. -/
def mix (seed : UInt32) (value : Number) : UInt32 :=
  let sum := value + goldenRatio + Number.ofWord (seed <<< 6) + Number.ofUnsigned (seed >>> 2)
  seed ^^^ sum.toWord

/-- Mixes numbers into a seed, the first one first. Without any the seed stays as it is. -/
def mixAll (seed : Number) (values : List Number) : Number :=
  values.foldl (fun h v => Number.ofUnsigned (mix h.toWord v)) seed

/-- Mixes a word into a seed: for a word the sum is exact, so it can be taken in 32 bits. -/
def mixWord (seed value : UInt32) : UInt32 :=
  seed ^^^ (value + (0x9e3779b9 : UInt32) + (seed <<< 6) + (seed >>> 2))

/-- Mixes words into a seed, the first one first. -/
def mixWords (seed : UInt32) (values : List UInt32) : UInt32 := values.foldl mixWord seed

end SemanticCore.Hash
