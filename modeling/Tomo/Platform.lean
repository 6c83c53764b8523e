import Tomo.Engine.Index

namespace Tomo
set_option autoImplicit true

abbrev Bytes := List UInt8

/-- The third-party functions the program calls on bytes and names. -/
class Platform where
  blake3 : Bytes → ContentHash
  /-- The offsets and lengths of the chunks `FastCDC` cuts. -/
  fastcdc : Bytes → List (Nat × Nat)
  zstdEncode : Bytes → Bytes
  zstdDecode : Bytes → Option Bytes
  lowercase : List Char → List Char
  nfc : List Char → List Char

/-- The bytes of one chunk. -/
def slice (bytes : Bytes) (chunk : Nat × Nat) : Bytes := (bytes.drop chunk.1).take chunk.2

/-- The documented behaviour of the chunker and the compressor: chunks cut the whole input in
order, and decompression undoes compression. -/
class LawfulPlatform [Platform] : Prop where
  fastcdc_flatten : ∀ bytes, ((Platform.fastcdc bytes).map (slice bytes)).flatten = bytes
  zstd_inverse : ∀ bytes, Platform.zstdDecode (Platform.zstdEncode bytes) = some bytes

section
variable [Platform]

/-- Whether `bytes` have the size and the hash of `sig`. -/
def matchesSig (bytes : Bytes) (sig : ContentSig) : Bool :=
  decide (bytes.length = sig.size) && decide (Platform.blake3 bytes = sig.hash)

theorem matchesSig_iff (bytes : Bytes) (sig : ContentSig) :
    matchesSig bytes sig = true ↔ bytes.length = sig.size ∧ Platform.blake3 bytes = sig.hash := by
  simp [matchesSig]

end

/-- A hash from its digits, read as one big-endian number. -/
def digest (n : Nat) : ContentHash :=
  ⟨(List.range 32).map fun i => UInt8.ofNat (n / 256 ^ (31 - i)), by simp⟩

/-- The header of a compressed frame that holds one raw block of `n` bytes. -/
def rawHeader (n : Nat) : Bytes :=
  [0x28, 0xb5, 0x2f, 0xfd, 0x00, 0x58] ++
    (List.range 3).map fun i => UInt8.ofNat ((8 * n + 1) / 256 ^ i)

/-- What the functions do on short inputs with known hashes and plain names. -/
def tabulated (hashes : List (Bytes × ContentHash)) : Platform where
  blake3 bytes := (hashes.lookup bytes).getD (digest 0)
  fastcdc bytes := if bytes = [] then [] else [(0, bytes.length)]
  zstdEncode bytes := rawHeader bytes.length ++ bytes
  zstdDecode z := if z.take 4 = [0x28, 0xb5, 0x2f, 0xfd] then some (z.drop 9) else none
  lowercase name := name
  nfc name := name

theorem tabulated_lawful (hashes : List (Bytes × ContentHash)) :
    @LawfulPlatform (tabulated hashes) := by
  letI := tabulated hashes
  constructor
  · intro bytes
    change ((if bytes = [] then [] else [(0, bytes.length)]).map (slice bytes)).flatten = bytes
    split
    next h => rw [h]; rfl
    next => simp [slice]
  · intro bytes
    rfl

/-- Hashes of the one-byte contents `1` and `2`. -/
def shortHashes : List (Bytes × ContentHash) :=
  [([0x31], digest 0xd63bd9a826af91c1fea371965a64e11ee20f13e46b5f52c59901136605b3a487),
    ([0x32], digest 0x813e9b729141e7f385afa0a2d0df3e6c3789e427ffe4aeef566a565bc8f2fe3d)]

end Tomo
