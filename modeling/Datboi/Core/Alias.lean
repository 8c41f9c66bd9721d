import Datboi.Core.Host
import Datboi.Core.Snapshot

/-!
# Alias hashing

The hashes by which catalogs know a blob, computed in one pass beside its identity. A hasher is
what it has been fed: its digests are functions of those bytes.
-/

namespace Datboi

/-- The digest functions that a hasher runs beside BLAKE3. -/
structure Digests where
  crc32 : Bytes → Vector UInt8 4
  md5 : Bytes → Vector UInt8 16
  sha1 : Bytes → Vector UInt8 20
  sha256 : Bytes → Vector UInt8 32

/-- Digests without content. -/
def Digests.blank : Digests where
  crc32 _ := .replicate 4 0
  md5 _ := .replicate 16 0
  sha1 _ := .replicate 20 0
  sha256 _ := .replicate 32 0

structure AliasHasher where
  fed : Bytes := []
  deriving DecidableEq, Repr

namespace AliasHasher

variable (host : Host) (digests : Digests)

def update (hasher : AliasHasher) (bytes : Bytes) : AliasHasher := ⟨hasher.fed ++ bytes⟩

def finalize (hasher : AliasHasher) : AliasTuple where
  size := .ofNat hasher.fed.length
  crc32 := digests.crc32 hasher.fed
  md5 := digests.md5 hasher.fed
  sha1 := digests.sha1 hasher.fed
  sha256 := digests.sha256 hasher.fed
  blake3 := host.blake3 hasher.fed

end AliasHasher

end Datboi
