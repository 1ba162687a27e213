import Communities.Gzip.Inflate
import Communities.Text.Record

/-!
# Gzip

A container for one compressed file: a header, Deflate data, and a checksum and the length of what
was compressed.

* `Gzip.decode` is the text in a container. Where the container is damaged, the text ends there.
* `Gzip.encode` makes a container of stored blocks.
-/

namespace Communities.Gzip

open Text (Source)

/-- One step of the checksum, over one bit. -/
def stepChecksum (c : UInt32) : UInt32 :=
  if c &&& 1 = 1 then (c >>> 1) ^^^ 0xEDB88320 else c >>> 1

/-- The CRC-32 checksum. -/
def checksum (bytes : ByteArray) : UInt32 :=
  let sum := bytes.foldl (fun c byte => Nat.repeat stepChecksum 8 (c ^^^ byte.toUInt32)) 0xFFFFFFFF
  sum ^^^ 0xFFFFFFFF

/-- The wording of a stop. -/
def Stop.message : Stop → String
  | truncated => "unexpected end of file"
  | badHeader => "invalid gzip header"
  | badData => "corrupt deflate stream"
  | badChecksum => "corrupt gzip stream does not have a matching checksum"

/-- Goes past a text that ends with a zero. -/
def skipText : Reading Unit := do
  repeatUntil (do return (← nextBytes 1) = 0) (← bitBound)

/-- The header: ten bytes, and the parts that the flags in the fourth of them announce. -/
def header : Reading Unit := do
  let magic ← nextBytes 2
  let method ← nextBytes 1
  let flags ← nextBytes 1
  let _ ← nextBytes 6
  if magic ≠ 0x8B1F ∨ method ≠ 8 ∨ 32 ≤ flags then
    throw .badHeader
  if flags.testBit 2 then
    let length ← nextBytes 2
    for _ in [0:length] do let _ ← nextBytes 1
  if flags.testBit 3 then skipText
  if flags.testBit 4 then skipText
  if flags.testBit 1 then
    let part := (← read).extract 0 ((← get).position / 8)
    if (← nextBytes 2) ≠ (checksum part).toNat % 65536 then
      throw .badChecksum

/-- The data are decoded in blocks of this size; a block that is not finished is lost. -/
def decodedBlock : Nat := 32768

/-- Decodes the data, up to a place where they make no sense. -/
def body : Reading Unit :=
  tryCatch inflate fun stop => do
    if stop = .badData then
      modify fun s =>
        { s with output := s.output.extract 0 (s.output.size / decodedBlock * decodedBlock) }
    throw stop

/-- Checks the checksum and the length. -/
def trailer : Reading Unit := do
  align
  let sum ← nextBytes 4
  let length ← nextBytes 4
  let output := (← get).output
  if sum ≠ (checksum output).toNat ∨ length ≠ output.size % 4294967296 then
    throw .badChecksum

/-- The text in a container. -/
def decode (data : ByteArray) : Source :=
  let all : Reading Unit := do header; body; trailer
  match StateT.run (ExceptT.run (ReaderT.run all data)) ⟨0, .empty⟩ with
  | (.ok (), done) => { bytes := done.output }
  | (.error stop, done) => { bytes := done.output, failure := some stop.message }

/-- A number as so many bytes, the lowest first. -/
def littleEndian (n : Nat) : Nat → List UInt8
  | 0 => []
  | count + 1 => .ofNat (n % 256) :: littleEndian (n / 256) count

/-- A stored block. -/
def encodeBlock (last : Bool) (bytes : ByteArray) : ByteArray :=
  let head := (if last then 1 else 0) :: littleEndian bytes.size 2 ++
    littleEndian (maxStored - bytes.size) 2
  head.toByteArray ++ bytes

/-- A text as stored blocks. -/
def encodeBlocks (bytes : ByteArray) : ByteArray :=
  let count := (bytes.size - 1) / maxStored + 1
  (List.range count).foldl
    (fun out i =>
      out ++ encodeBlock (i + 1 = count) (bytes.extract (i * maxStored) ((i + 1) * maxStored)))
    .empty

/-- A container of a text. -/
def encode (bytes : ByteArray) : ByteArray :=
  let head : List UInt8 := [0x1F, 0x8B, 8, 0, 0, 0, 0, 0, 0, 255]
  head.toByteArray ++ encodeBlocks bytes ++
    (littleEndian (checksum bytes).toNat 4 ++ littleEndian bytes.size 4).toByteArray

end Communities.Gzip
