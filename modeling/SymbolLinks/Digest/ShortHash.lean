import SymbolLinks.Digest.Sha256

/-! Short hashes of identifiers: at most five base-36 digits that depend on the
identifier alone, written after a dash to tell symbols of one name apart. -/

namespace SymbolLinks.ShortHash

/-- Digit `n` of base 36. -/
def digit (n : Nat) : Char := if n < 10 then Char.ofNat (48 + n) else Char.ofNat (87 + n)

/-- Base-36 numeral of `n`, most significant digit first. -/
def numeral (n : Nat) : List Char :=
  if n < 36 then [digit n] else numeral (n / 36) ++ [digit (n % 36)]

/-- Number of distinct hashes, 36⁵. -/
def space : Nat := 60466176

/-- The first four bytes of a digest, big-endian, reduced to `space`. -/
def residue (digest : List UInt8) : Nat :=
  (digest.take 4).foldl (fun n b => 256 * n + b.toNat) 0 % space

def ofDigest (digest : List UInt8) : String := String.ofList (numeral (residue digest))

/-- Hash of an identifier. -/
def ofIdentifier (id : String) : String := ofDigest (Sha256.digest id.toUTF8.data)

def isDigit (c : Char) : Bool := ('0' ≤ c && c ≤ '9') || ('a' ≤ c && c ≤ 'z')

/-- Whether a text reads as a hash: one to six digits. -/
def isHash (cs : List Char) : Bool := !cs.isEmpty && cs.length ≤ 6 && cs.all isDigit

end SymbolLinks.ShortHash
