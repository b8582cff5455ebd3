import HeaderForge.Bytes
/-!
# Content hashing

The 64-bit Fowler–Noll–Vo hash in its 1a form: each byte is mixed in by exclusive or and then the
state is multiplied by the prime, modulo 2^64.
-/

namespace HeaderForge

namespace Hash

def offsetBasis : UInt64 := 14695981039346656037
def prime : UInt64 := 1099511628211

/-- One byte mixed into the state. -/
def mix (state : UInt64) (b : UInt8) : UInt64 := (state ^^^ b.toUInt64) * prime

def fnv1a (t : Bytes) : UInt64 := t.foldl mix offsetBasis

/-- Sixteen lowercase hexadecimal digits. -/
def text (h : UInt64) : Bytes := hexText 16 h.toNat

end Hash

end HeaderForge
