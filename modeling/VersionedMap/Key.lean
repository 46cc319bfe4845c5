/-!
# Keys and how they are hashed

A key is turned into 64 bits in two steps. Its **digest** is a fixed function of the
key: a number is its own digest, a text is digested byte by byte. A **hasher** then maps
digests to hashes; the hashers here are simple enough to steer a key into any bucket,
and bad enough to make all keys collide.

A key also has a **folded** form. A folded query asks for any key with the same folded
form, and hashes as that form: a query that may match several keys, whose own hashes
need not agree with it.
-/

namespace VersionedMap

/-- What a key must offer besides equality. -/
class Key (κ : Type) where
  /-- The 64 bits that a hasher starts from. -/
  digest : κ → UInt64
  /-- The form in which folded queries compare keys. -/
  fold : κ → κ

/-- One round of FNV-1a. -/
def mixByte (digest : UInt64) (byte : UInt8) : UInt64 :=
  (digest ^^^ byte.toUInt64) * 0x100000001b3

/--
The FNV-1a digest of a text: its UTF-8 bytes and a final `0xff`, which no text contains, so that
no text's bytes are the beginning of another's.
-/
def digestText (s : String) : UInt64 :=
  mixByte (s.toUTF8.foldl mixByte 0xcbf29ce484222325) 0xff

/-- Numbers fold by dropping their lowest bit. -/
instance : Key UInt64 where
  digest n := n
  fold n := n &&& 0xfffffffffffffffe

/-- Texts fold by writing the ASCII letters small. -/
instance : Key String where
  digest := digestText
  fold s := s.map Char.toLower

/-- The functions from digests to hashes that a map can be given. -/
inductive Hasher
  /-- The digest itself. -/
  | identity
  /-- The same hash for every key. -/
  | constant (n : UInt64)
  /-- The digest under a mask. -/
  | mask (n : UInt64)
  /-- The digest times a number, modulo `2^64`. -/
  | multiply (n : UInt64)

/-- The hash of a digest. -/
def Hasher.apply : Hasher → UInt64 → UInt64
  | .identity, d => d
  | .constant n, _ => n
  | .mask n, d => d &&& n
  | .multiply n, d => d * n

/-- The hash function on keys that a hasher gives. -/
def Hasher.ofKey {κ : Type} [Key κ] (h : Hasher) (k : κ) : UInt64 := h.apply (Key.digest k)

end VersionedMap
