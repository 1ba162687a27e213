import Communities.Proofs.Gzip.Reading

/-!
# Compressed files

What is compressed here is stored in blocks, between a header and a checksum. All of these are whole
bytes, so decoding goes through them one after the other and comes to its end with the text.

* `inflateBlock_reads`: a stored block is read.
* `repeatUntil_reads`: so are all blocks of a text, up to the last one.
* `decode_encode`: decoding gives back what has been encoded.
-/

namespace Communities.Gzip

/-! ## Blocks -/

/-- The bytes of a stored block. -/
def stored (last : Bool) (chunk : List UInt8) : List UInt8 :=
  (if last then 1 else 0) ::
    (littleEndian chunk.length 2 ++ (littleEndian (maxStored - chunk.length) 2 ++ chunk))

theorem encodeBlock_eq (last : Bool) (chunk : List UInt8) :
    encodeBlock last chunk.toByteArray = (stored last chunk).toByteArray := by
  rw [encodeBlock, stored, ← List.toByteArray_append, List.size_toByteArray]
  simp

/-- A stored block behind its first byte. -/
theorem storedBlock_reads {chunk : List UInt8} (h : chunk.length ≤ maxStored) :
    Reads (do
      let length ← nextBytes 2
      let check ← nextBytes 2
      if length + check = maxStored then
        for _ in [0:length] do emit (← nextBytes 1)
      else
        throw .badData)
      (littleEndian chunk.length 2 ++ (littleEndian (maxStored - chunk.length) 2 ++ chunk)) ()
      ([] ++ ([] ++ chunk)) := by
  have hbound : maxStored < 256 ^ 2 := by decide
  refine (littleEndian_reads chunk.length 2).bind ?_
  refine (littleEndian_reads (maxStored - chunk.length) 2).bind ?_
  rw [Nat.mod_eq_of_lt (by omega), Nat.mod_eq_of_lt (by omega), if_pos (Nat.add_sub_cancel' h)]
  exact copy_reads chunk

/-- The first bit of a stored block is whether it is the last one, the next two are zero. -/
theorem number_stored (before rest : List UInt8) (last : Bool) :
    number (before ++ (if last then 1 else 0) :: rest) / 2 ^ (8 * before.length) % 2 = last.toNat ∧
      number (before ++ (if last then 1 else 0) :: rest) / 2 ^ (8 * before.length + 1) % 2 ^ 2 =
        0 := by
  obtain ⟨c, hc, hvalue⟩ : ∃ c : UInt8, (if last then 1 else 0) = c ∧ c.toNat = last.toNat := by
    cases last <;> exact ⟨_, rfl, rfl⟩
  have hle : last.toNat ≤ 1 := Bool.toNat_le last
  rw [hc]
  constructor
  · have hbit := number_bit before c rest (r := 0) (by decide)
    rw [Nat.add_zero, Nat.shiftRight_zero, hvalue] at hbit
    rw [hbit, Nat.mod_eq_of_lt (Nat.lt_succ_of_le hle)]
  · rw [number_drop, number_cons, hvalue]
    omega

theorem inflateBlock_reads (last : Bool) {chunk : List UInt8} (h : chunk.length ≤ maxStored) :
    Reads inflateBlock (stored last chunk) last chunk := fun before after out => by
  rw [stored]
  generalize hrest : littleEndian chunk.length 2 ++
    (littleEndian (maxStored - chunk.length) 2 ++ chunk) = rest
  obtain ⟨hlast, htype⟩ := number_stored before (rest ++ after) last
  generalize (if last then 1 else 0 : UInt8) = c at hlast htype ⊢
  have hdata : before ++ c :: rest ++ after = before ++ c :: (rest ++ after) := by simp
  have hlen : 8 * before.length + 3 ≤ 8 * (before ++ c :: (rest ++ after)).length := by simp; omega
  have hbit : Goes (before ++ c :: (rest ++ after)) nextBit ⟨8 * before.length, out⟩ _ _ :=
    nextBit_goes (by omega) out
  have hbits : Goes (before ++ c :: (rest ++ after)) (nextBits 2) ⟨8 * before.length + 1, out⟩ _ _ :=
    nextBits_goes (by omega) out
  rw [hlast] at hbit
  rw [htype] at hbits
  -- Behind these bits the block goes on with the next byte.
  have hbytes := (hrest ▸ storedBlock_reads h) (before ++ [c]) after out
  have halign : (8 * before.length + 1 + 2 + 7) / 8 * 8 = 8 * (before ++ [c]).length := by
    simp; omega
  have hcons : before ++ [c] ++ rest = before ++ c :: rest := by simp
  rw [hcons, hdata, ← halign] at hbytes
  rw [hdata]
  refine hbit.bind (hbits.bind (Goes.bind (.bind (.modify _) hbytes) ?_))
  cases last <;> exact .pure _

/-! ## Containers -/

/-- The part of a text in one of its blocks. -/
def chunk (text : List UInt8) (i : Nat) : List UInt8 := (text.drop (i * maxStored)).take maxStored

theorem length_chunk_le (text : List UInt8) (i : Nat) : (chunk text i).length ≤ maxStored :=
  List.length_take_le ..

/-- The number of blocks of a text. -/
def blockCount (text : List UInt8) : Nat := (text.length - 1) / maxStored + 1

/-- A block of a text. -/
def block (text : List UInt8) (i : Nat) : List UInt8 := stored (i + 1 = blockCount text) (chunk text i)

/-- All blocks of a text. -/
def blocks (text : List UInt8) : List UInt8 := (List.range (blockCount text)).flatMap (block text)

private theorem extract_eq (text : List UInt8) (i : Nat) :
    text.toByteArray.extract (i * maxStored) ((i + 1) * maxStored) =
      (chunk text i).toByteArray := by
  have hlength : (i + 1) * maxStored - i * maxStored = maxStored := by
    rw [Nat.succ_mul, Nat.add_sub_cancel_left]
  apply ByteArray.ext
  rw [ByteArray.data_extract, ← Array.toList_inj, Array.toList_extract, List.toList_data_toByteArray,
    List.toList_data_toByteArray, List.extract_eq_take_drop, hlength]
  rfl

private theorem foldl_append (f : Nat → List UInt8) (is : List Nat) (out : ByteArray) :
    is.foldl (fun out i => out ++ (f i).toByteArray) out = out ++ (is.flatMap f).toByteArray := by
  induction is generalizing out with
  | nil => exact ByteArray.append_empty.symm
  | cons i is ih =>
    rw [List.foldl_cons, ih, List.flatMap_cons, List.toByteArray_append, ByteArray.append_assoc]

theorem encodeBlocks_eq (text : List UInt8) :
    encodeBlocks text.toByteArray = (blocks text).toByteArray := by
  rw [encodeBlocks, List.size_toByteArray]
  simp only [extract_eq, encodeBlock_eq]
  rw [← ByteArray.empty_append (b := (blocks text).toByteArray)]
  exact foldl_append (block text) _ _

/-- Nothing is left of a text behind the part in its last block. -/
theorem chunk_last {text : List UInt8} {i : Nat} (hi : i + 1 = blockCount text) :
    chunk text i = text.drop (i * maxStored) := by
  have hpos : 0 < maxStored := by decide
  have hle : text.length - 1 < (i + 1) * maxStored := by
    rw [hi, blockCount, ← Nat.div_lt_iff_lt_mul hpos]
    exact Nat.lt_succ_self _
  rw [chunk, List.take_of_length_le]
  rw [List.length_drop]
  rw [Nat.succ_mul] at hle
  omega

theorem chunk_append_drop (text : List UInt8) (i : Nat) :
    chunk text i ++ text.drop ((i + 1) * maxStored) = text.drop (i * maxStored) := by
  rw [Nat.succ_mul, ← List.drop_drop, chunk, List.take_append_drop]

theorem block_reads (text : List UInt8) (i : Nat) :
    Reads inflateBlock (block text i) (decide (i + 1 = blockCount text)) (chunk text i) :=
  inflateBlock_reads _ (length_chunk_le text i)

/-- Blocks are read up to the last one. -/
theorem repeatUntil_reads (text : List UInt8) {i n rounds : Nat} (hi : i + (n + 1) = blockCount text)
    (hrounds : n < rounds) :
    Reads (repeatUntil inflateBlock rounds) ((List.range' i (n + 1)).flatMap (block text)) ()
      (text.drop (i * maxStored)) := by
  have hblock := block_reads text i
  induction n generalizing i rounds with
  | zero =>
    obtain ⟨rounds, rfl⟩ := Nat.exists_eq_succ_of_ne_zero (Nat.ne_zero_of_lt hrounds)
    rw [decide_eq_true hi] at hblock
    rw [List.range'_one, List.flatMap_singleton, ← chunk_last hi, ← List.append_nil (block text i),
      ← List.append_nil (chunk text i)]
    exact hblock.bind (.pure ())
  | succ n ih =>
    obtain ⟨rounds, rfl⟩ := Nat.exists_eq_succ_of_ne_zero (Nat.ne_zero_of_lt hrounds)
    rw [decide_eq_false (by omega : ¬i + 1 = blockCount text)] at hblock
    rw [List.range'_succ, List.flatMap_cons, ← chunk_append_drop text i]
    exact hblock.bind (ih (by omega) (by omega) (block_reads text (i + 1)))

theorem inflate_goes (before text after : List UInt8) :
    Goes (before ++ blocks text ++ after) inflate ⟨8 * before.length, .empty⟩ ()
      ⟨8 * (before ++ blocks text).length, text.toByteArray⟩ := by
  generalize hdata : before ++ blocks text ++ after = data
  have hcount : blockCount text ≤ data.length := by
    have hblocks := List.length_le_sum_of_one_le
      ((List.range (blockCount text)).map (List.length ∘ block text)) fun n hn => by
        obtain ⟨i, -, rfl⟩ := List.mem_map.1 hn
        exact Nat.succ_pos _
    rw [List.length_map, List.length_range] at hblocks
    rw [← hdata, List.length_append, List.length_append, blocks, List.length_flatMap]
    exact (hblocks.trans (Nat.le_add_left _ _)).trans (Nat.le_add_right _ _)
  obtain ⟨n, hn⟩ : ∃ n, blockCount text = n + 1 := ⟨_, rfl⟩
  have hreads : Reads (repeatUntil inflateBlock (8 * data.toByteArray.size + 1)) _ () _ :=
    repeatUntil_reads text ((Nat.zero_add _).trans hn.symm) (by rw [List.size_toByteArray]; omega)
  have hreads := hreads before after .empty
  rw [← hn, ← List.range_eq_range', ← blocks, hdata, Nat.zero_mul, List.drop_zero,
    ByteArray.empty_append] at hreads
  exact .bind (.bind .read (.pure _)) hreads

/-- The header of every container. -/
def heading : List UInt8 := [0x1F, 0x8B, 8, 0, 0, 0, 0, 0, 0, 255]

theorem header_reads : Reads header heading () [] := by
  have hparts : heading = [0x1F, 0x8B] ++ ([8] ++ ([0] ++ ([0, 0, 0, 0, 0, 255] ++ []))) := rfl
  rw [hparts]
  refine (nextBytes_reads [0x1F, 0x8B]).bind ?_
  refine (nextBytes_reads [8]).bind ?_
  refine (nextBytes_reads [0]).bind ?_
  refine (nextBytes_reads [0, 0, 0, 0, 0, 255]).bind ?_
  have hmagic : number [0x1F, 0x8B] = 0x8B1F := by decide
  have hmethod : number [8] = 8 := by decide
  have hflags : number [0] = 0 := by decide
  rw [hmagic, hmethod, hflags]
  exact .pure ()

/-- The checksum and the length of what a container holds. -/
def ending (out : ByteArray) : List UInt8 :=
  littleEndian (checksum out).toNat 4 ++ littleEndian out.size 4

theorem trailer_goes (before : List UInt8) (out : ByteArray) :
    Goes (before ++ ending out) trailer ⟨8 * before.length, out⟩ ()
      ⟨8 * (before ++ ending out).length, out⟩ := by
  have hlt : (checksum out).toNat < 256 ^ 4 := (checksum out).toNat_lt
  have hsum := littleEndian_reads (checksum out).toNat 4 before (littleEndian out.size 4) out
  have hlength := littleEndian_reads out.size 4 (before ++ littleEndian (checksum out).toNat 4) [] out
  rw [Nat.mod_eq_of_lt hlt, append_empty_bytes, List.append_assoc] at hsum
  rw [append_empty_bytes, List.append_nil, List.append_assoc] at hlength
  have halign : (8 * before.length + 7) / 8 * 8 = 8 * before.length := by omega
  refine .bind (.modify _) (halign.symm ▸ hsum.bind (hlength.bind (.bind .get ?_)))
  rw [if_neg (by simp)]
  exact .pure ()

theorem encode_eq (text : List UInt8) : encode text.toByteArray =
    (heading ++ blocks text ++ ending text.toByteArray).toByteArray := by
  rw [encode, encodeBlocks_eq, ← List.toByteArray_append, ← List.toByteArray_append]
  rfl

/-- What has been encoded can be decoded. -/
theorem decode_encode (bytes : ByteArray) : decode (encode bytes) = { bytes } := by
  obtain ⟨text, rfl⟩ : ∃ text : List UInt8, bytes = text.toByteArray := ⟨bytes.data.toList, by
    apply ByteArray.ext
    rw [← Array.toList_inj, List.toList_data_toByteArray]⟩
  have hheader := header_reads [] (blocks text ++ ending text.toByteArray) .empty
  rw [List.nil_append, ← List.append_assoc, List.length_nil, Nat.mul_zero] at hheader
  have hall := hheader.bind (f := fun _ => do body; trailer)
    ((inflate_goes heading text (ending text.toByteArray)).tryCatch.bind
      (trailer_goes (heading ++ blocks text) text.toByteArray))
  rw [Goes, ← encode_eq] at hall
  simp only [decode, hall]

end Communities.Gzip
