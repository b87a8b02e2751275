import Bgmchain.Common.Types

/-! # Hashes, signatures and the pseudo-random source

What the repository takes from its cryptographic packages and from `math/rand`:
functions about which nothing is assumed but the type of their results. -/
namespace Bgmchain.Common

/-- `crypto.Keccak256`, `crypto.Keccak512` and `crypto.Ecrecover`. The last gives
the uncompressed public key, or nothing for a signature that is no signature. -/
class Crypto where
  keccak256 : Bytes → Hash
  keccak512 : Bytes → FixedBytes 64
  ecrecover : Hash → Bytes → Option Bytes

/-- Keccak256 has no collisions among these inputs. -/
def NoCollision [Crypto] (inputs : Set Bytes) : Prop :=
  ∀ a ∈ inputs, ∀ b ∈ inputs, Crypto.keccak256 a = Crypto.keccak256 b → a = b

/-- `math/rand`: a source made from a seed. `int31n s n` is `r.Int31n(n + 1)`, whose
result is below its argument. -/
class Rand where
  Source : Type
  newSource : Int → Source
  int31n : Source → (n : Nat) → Fin (n + 1) × Source

/-- `binary.LittleEndian.Uint32` of at least four bytes. -/
def littleEndianUint32 (b : Bytes) : Nat := Lib.BigEndian.decode (b.take 4).reverse

/-! ## Addresses as text -/

/-- A hexadecimal digit in lower case. -/
def hexDigit (n : Nat) : UInt8 := UInt8.ofNat (if n < 10 then 48 + n else 87 + n)

/-- `hex.EncodeToString` -/
def encodeHex (b : Bytes) : Bytes := b.flatMap fun x => [hexDigit (x.toNat / 16), hexDigit (x.toNat % 16)]

/-- One digit of a checksummed address: a letter is a capital when the digit of
the hash at its place is above 7. -/
def checksumDigit (hashDigit : Nat) (c : UInt8) : UInt8 :=
  if 57 < c.toNat ∧ 7 < hashDigit then c - 32 else c

/-- The digits of a byte string, high nibble first. -/
def hexDigits (b : Bytes) : List Nat := b.flatMap fun x => [x.toNat / 16, x.toNat % 16]

/-- `Address.Hex`, also `String`. -/
def FixedBytes.hex [Crypto] (a : Address) : Bytes :=
  let unchecksummed := encodeHex a.bytes
  ascii "0x" ++
    List.zipWith checksumDigit (hexDigits (Crypto.keccak256 unchecksummed).bytes) unchecksummed

end Bgmchain.Common
