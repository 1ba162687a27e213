import Communities.Gzip
import Mathlib.Data.Nat.Digits.Lemmas

/-!
# Reading bytes

All the data count as one number, with the first byte lowest, and reading takes a part out of its
bits. Where that part begins and ends with a byte, it is the number of the bytes that are read.

* `number`: the number that bytes stand for; `number_littleEndian`: that of a number in bytes.
* `Goes`: how a computation goes on given data, `Reads`: how it reads some bytes, wherever they are.
* `nextBits_goes` and `nextBytes_reads`: what is read; `copy_reads`: bytes are copied.
-/

namespace Communities.Gzip

/-! ## Bytes as a number -/

/-- The number that bytes stand for, the first one lowest. -/
def number (bytes : List UInt8) : Nat := Nat.ofDigits 256 (bytes.map UInt8.toNat)

theorem number_cons (b : UInt8) (bytes : List UInt8) :
    number (b :: bytes) = b.toNat + 256 * number bytes := Nat.ofDigits_cons

theorem number_append (bytes bytes' : List UInt8) :
    number (bytes ++ bytes') = number bytes + 256 ^ bytes.length * number bytes' := by
  rw [number, List.map_append, Nat.ofDigits_append, List.length_map]
  rfl

theorem number_lt (bytes : List UInt8) : number bytes < 256 ^ bytes.length := by
  have hlt := Nat.ofDigits_lt_base_pow_length' (b := 254) (l := bytes.map UInt8.toNat) fun x hx => by
    obtain ⟨b, -, rfl⟩ := List.mem_map.1 hx
    exact b.toNat_lt
  rwa [List.length_map] at hlt

theorem length_littleEndian (n count : Nat) : (littleEndian n count).length = count := by
  induction count generalizing n with
  | zero => rfl
  | succ count ih => rw [littleEndian, List.length_cons, ih]

theorem number_littleEndian (n count : Nat) : number (littleEndian n count) = n % 256 ^ count := by
  induction count generalizing n with
  | zero => rw [pow_zero, Nat.mod_one]; rfl
  | succ count ih =>
    have hbyte : (UInt8.ofNat (n % 256)).toNat = n % 256 := by simp
    rw [littleEndian, number_cons, ih, hbyte, pow_succ', Nat.mod_mul]

private theorem two_pow_mul_eight (n : Nat) : 2 ^ (8 * n) = 256 ^ n := by
  rw [pow_mul]
  norm_num

/-- The bits behind a place in the bytes are those of the bytes behind it. -/
theorem number_drop (bytes bytes' : List UInt8) (p : Nat) :
    number (bytes ++ bytes') / 2 ^ (8 * bytes.length + p) = number bytes' / 2 ^ p := by
  rw [pow_add, ← Nat.div_div_eq_div_mul, two_pow_mul_eight, number_append,
    Nat.add_mul_div_left _ _ (by positivity), Nat.div_eq_of_lt (number_lt bytes), Nat.zero_add]

/-- One of the bits is that of a byte. -/
theorem number_bit (bytes : List UInt8) (b : UInt8) (bytes' : List UInt8) {r : Nat} (hr : r < 8) :
    number (bytes ++ b :: bytes') / 2 ^ (8 * bytes.length + r) % 2 = b.toNat >>> r % 2 := by
  have hpow : 256 * number bytes' = 2 ^ r * (2 * (2 ^ (7 - r) * number bytes')) := by
    have hsplit : (256 : Nat) = 2 ^ r * 2 * 2 ^ (7 - r) := by
      rw [← pow_succ, ← pow_add, show r + 1 + (7 - r) = 8 by omega]
      rfl
    rw [hsplit]
    ring
  rw [number_drop, number_cons, hpow, Nat.add_mul_div_left _ _ (by positivity),
    Nat.add_mul_mod_self_left, Nat.shiftRight_eq_div_pow]

/-! ## Steps -/

variable {α β : Type} {data : List UInt8} {s s' s'' : Progress} {a : α} {b : β}

/-- A computation on the data that begins at `s` answers `a` and ends at `s'`. -/
def Goes (data : List UInt8) (m : Reading α) (s : Progress) (a : α) (s' : Progress) : Prop :=
  StateT.run (ExceptT.run (ReaderT.run m data.toByteArray)) s = (.ok a, s')

theorem Goes.pure (a : α) : Goes data (pure a) s a s := rfl

theorem Goes.bind {m : Reading α} {f : α → Reading β} (hm : Goes data m s a s')
    (hf : Goes data (f a) s' b s'') : Goes data (m >>= f) s b s'' := by
  rw [Goes] at hm
  rw [Goes, ReaderT.run_bind, ExceptT.run_bind, StateT.run_bind, hm]
  exact hf

theorem Goes.tryCatch {m : Reading α} {f : Stop → Reading α} (hm : Goes data m s a s') :
    Goes data (tryCatch m f) s a s' := by
  rw [Goes] at hm ⊢
  rw [ReaderT.run_tryCatch, ExceptT.run_tryCatch, StateT.run_bind, hm]
  rfl

theorem Goes.read : Goes data read s data.toByteArray s := rfl

theorem Goes.get : Goes data get s s s := rfl

theorem Goes.modify (f : Progress → Progress) : Goes data (modify f) s () (f s) := rfl

theorem nextBit_goes {p : Nat} (hp : p < 8 * data.length) (out : ByteArray) :
    Goes data nextBit ⟨p, out⟩ (number data / 2 ^ p % 2) ⟨p + 1, out⟩ := by
  have hlt : p / 8 < data.length := by omega
  have hsize : p / 8 < data.toByteArray.size := by simpa using hlt
  have hbit : number data / 2 ^ p % 2 = data.toByteArray[p / 8].toNat >>> (p % 8) % 2 := by
    have hsplit : data.take (p / 8) ++ data[p / 8] :: data.drop (p / 8 + 1) = data := by
      rw [List.cons_getElem_drop_succ, List.take_append_drop]
    have hplace : 8 * (data.take (p / 8)).length + p % 8 = p := by
      rw [List.length_take_of_le hlt.le]
      omega
    have hbit := number_bit (data.take (p / 8)) data[p / 8] (data.drop (p / 8 + 1))
      (Nat.mod_lt p (by decide))
    rw [hsplit, hplace] at hbit
    rw [hbit]
    simp
  refine .bind .read (.bind .get ?_)
  rw [dif_pos hsize, ← hbit]
  exact .bind (.modify _) (.pure _)

theorem nextBits_goes {n p : Nat} (hp : p + n ≤ 8 * data.length) (out : ByteArray) :
    Goes data (nextBits n) ⟨p, out⟩ (number data / 2 ^ p % 2 ^ n) ⟨p + n, out⟩ := by
  induction n generalizing p with
  | zero => rw [pow_zero, Nat.mod_one]; exact .pure 0
  | succ n ih =>
    rw [pow_succ', Nat.mod_mul, Nat.div_div_eq_div_mul, ← pow_succ, ← Nat.add_assoc, Nat.add_right_comm]
    exact .bind (nextBit_goes (by omega) out) (.bind (ih (by omega)) (.pure _))

/-! ## Whole bytes -/

/-- Wherever the bytes are in the data, the computation reads them, answers `a` and collects
`added`. -/
def Reads (m : Reading α) (bytes : List UInt8) (a : α) (added : List UInt8) : Prop :=
  ∀ before after out, Goes (before ++ bytes ++ after) m ⟨8 * before.length, out⟩ a
    ⟨8 * (before ++ bytes).length, out ++ added.toByteArray⟩

variable {bytes bytes' added added' : List UInt8}

theorem append_empty_bytes (out : ByteArray) : out ++ [].toByteArray = out :=
  ByteArray.append_empty

theorem Reads.pure (a : α) : Reads (pure a) [] a [] := fun before after out => by
  rw [append_empty_bytes, List.append_nil]
  exact .pure a

theorem Reads.bind {m : Reading α} {f : α → Reading β} (hm : Reads m bytes a added)
    (hf : Reads (f a) bytes' b added') : Reads (m >>= f) (bytes ++ bytes') b (added ++ added') :=
  fun before after out => by
    have hm := hm before (bytes' ++ after) out
    have hf := hf (before ++ bytes) after (out ++ added.toByteArray)
    rw [← List.append_assoc] at hm
    rw [ByteArray.append_assoc, ← List.toByteArray_append] at hf
    rw [← List.append_assoc]
    exact hm.bind hf

theorem nextBytes_reads (bytes : List UInt8) :
    Reads (nextBytes bytes.length) bytes (number bytes) [] := fun before after out => by
  have hnumber : number (before ++ bytes ++ after) / 2 ^ (8 * before.length) %
      2 ^ (8 * bytes.length) = number bytes := by
    have hdrop := number_drop before (bytes ++ after) 0
    rw [Nat.add_zero, pow_zero, Nat.div_one, ← List.append_assoc] at hdrop
    rw [hdrop, number_append, two_pow_mul_eight, Nat.add_mul_mod_self_left,
      Nat.mod_eq_of_lt (number_lt bytes)]
  have hgoes : Goes (before ++ bytes ++ after) (nextBits (8 * bytes.length))
      ⟨8 * before.length, out⟩ _ _ := nextBits_goes (by simp; omega) out
  rw [hnumber, ← Nat.mul_add, ← List.length_append] at hgoes
  rw [append_empty_bytes]
  exact hgoes

theorem littleEndian_reads (n count : Nat) :
    Reads (nextBytes count) (littleEndian n count) (n % 256 ^ count) [] := by
  have hreads := nextBytes_reads (littleEndian n count)
  rwa [length_littleEndian, number_littleEndian] at hreads

theorem emit_reads (b : UInt8) : Reads (emit b.toNat) [] () [b] := fun before after out => by
  have hpush : out ++ [b].toByteArray = out.push (.ofNat b.toNat) := by
    rw [UInt8.ofNat_toNat, ByteArray.append_toByteArray_singleton]
  rw [hpush, List.append_nil]
  exact .modify _

/-- A byte is copied. -/
def copyByte : Reading (ForInStep PUnit) := do
  emit (← nextBytes 1)
  return .yield PUnit.unit

theorem copyByte_reads (b : UInt8) : Reads copyByte [b] (.yield PUnit.unit) [b] := by
  have hb : Reads (nextBytes 1) [b] b.toNat [] := by
    have hone := nextBytes_reads [b]
    rwa [number_cons, show number [] = 0 from rfl, Nat.mul_zero, Nat.add_zero] at hone
  exact hb.bind ((emit_reads b).bind (.pure _))

/-- As many bytes as there are numbers to go through are copied. -/
theorem forIn_copyByte_reads (bytes : List UInt8) (start : Nat) :
    Reads (forIn (List.range' start bytes.length) PUnit.unit fun _ _ => copyByte) bytes () bytes := by
  induction bytes generalizing start with
  | nil => exact .pure ()
  | cons b bytes ih =>
    rw [List.length_cons, List.range'_succ, List.forIn_cons]
    exact (copyByte_reads b).bind (ih (start + 1))

theorem copy_reads (bytes : List UInt8) :
    Reads (do for _ in [0:bytes.length] do emit (← nextBytes 1)) bytes () bytes := by
  have hsize : (⟨0, bytes.length, 1, by decide⟩ : Std.Legacy.Range).size = bytes.length := by
    simp [Std.Legacy.Range.size]
  rw [Std.Legacy.Range.forIn_eq_forIn_range', hsize]
  have hreads := (forIn_copyByte_reads bytes 0).bind (.pure ())
  rwa [List.append_nil] at hreads

end Communities.Gzip
