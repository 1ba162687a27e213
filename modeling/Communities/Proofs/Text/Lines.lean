import Communities.Text.Record
import Mathlib.Data.List.Basic

/-!
# Lines of a text

A text is split into lines before it is decoded, byte by byte. As no character but the line feed has
the byte of a line feed in its encoding, this gives the lines of the characters; and bytes of which
every line can be decoded are the encoding of a text.

* `Source.lines_ofString`: the lines of a text are those of its characters.
* `Source.lines_eq_map_ok_iff`: a source whose lines can all be decoded is a text.
-/

namespace Communities.Text

/-! ## Bytes -/

private theorem toList_loop (bs : ByteArray) (i : Nat) (acc : List UInt8) :
    ByteArray.toList.loop bs i acc = acc.reverse ++ bs.data.toList.drop i := by
  fun_induction ByteArray.toList.loop bs i acc with
  | case1 i acc h ih =>
    have hi : i < bs.data.toList.length := by simpa using h
    rw [ih, List.drop_eq_getElem_cons hi]
    simp [ByteArray.get!, h]
  | case2 i acc h =>
    have hi : bs.data.toList.length ≤ i := by simpa using h
    rw [List.drop_eq_nil_of_le hi, List.append_nil]

theorem toList_bytes (bs : ByteArray) : bs.toList = bs.data.toList := by
  simp [ByteArray.toList, toList_loop]

/-- The bytes of characters. -/
def encode (cs : List Char) : List UInt8 := cs.flatMap String.utf8EncodeChar

theorem encode_append (cs cs' : List Char) : encode (cs ++ cs') = encode cs ++ encode cs' :=
  List.flatMap_append

theorem toList_toUTF8 (s : String) : s.toUTF8.toList = encode s.toList := by
  rw [toList_bytes, String.toUTF8_eq_toByteArray, ← String.utf8Encode_toList, List.utf8Encode,
    List.toList_data_toByteArray]
  rfl

private theorem linefeed_mem_encodeChar {c : Char} (h : 10 ∈ String.utf8EncodeChar c) : c = '\n' := by
  have hbyte : ∀ n : Nat, UInt8.ofNat n = 10 → n % 256 = 10 := fun n hn => by
    simpa using congrArg UInt8.toNat hn
  have hval : c.val.toNat = 10 := by
    have hlt := c.val.toNat_lt
    unfold String.utf8EncodeChar at h
    dsimp only at h
    split at h
    · have := hbyte _ (List.mem_singleton.1 h).symm; omega
    split at h
    · simp only [List.mem_cons, List.not_mem_nil, or_false] at h
      rcases h with h | h <;> have := hbyte _ h.symm <;> omega
    split at h
    · simp only [List.mem_cons, List.not_mem_nil, or_false] at h
      rcases h with h | h | h <;> have := hbyte _ h.symm <;> omega
    · simp only [List.mem_cons, List.not_mem_nil, or_false] at h
      rcases h with h | h | h | h <;> have := hbyte _ h.symm <;> omega
  exact Char.ext (UInt32.toNat_inj.1 hval)

theorem linefeed_mem_encode {cs : List Char} : 10 ∈ encode cs ↔ '\n' ∈ cs := by
  rw [encode, List.mem_flatMap]
  constructor
  · rintro ⟨c, hc, h⟩
    exact linefeed_mem_encodeChar h ▸ hc
  · exact fun h => ⟨'\n', h, by decide⟩

private theorem encode_intercalate (ls : List (List Char)) :
    encode (['\n'].intercalate ls) = [10].intercalate (ls.map encode) := by
  induction ls with
  | nil => rfl
  | cons l ls ih =>
    cases ls with
    | nil => simp
    | cons l' ls =>
      rw [List.intercalate_cons_cons, encode_append, encode_append, ih]
      exact List.intercalate_cons_cons.symm

private theorem not_mem_of_mem_splitOn {α : Type} [BEq α] [LawfulBEq α] {a : α} {xs l : List α}
    (h : l ∈ xs.splitOn a) : a ∉ l := by
  induction xs generalizing l with
  | nil => simp at h; simp [h]
  | cons x xs ih =>
    rw [List.splitOn_cons_eq_if_modifyHead] at h
    split at h
    · rcases List.mem_cons.1 h with rfl | h
      · simp
      · exact ih h
    · next hx =>
      cases hsplit : xs.splitOn a with
      | nil => rw [hsplit] at h; cases h
      | cons l' ls =>
        rw [hsplit, List.modifyHead_cons] at h
        rcases List.mem_cons.1 h with rfl | h
        · rw [List.mem_cons, not_or]
          exact ⟨fun hax => hx (by simp [hax]), ih (hsplit ▸ List.mem_cons_self)⟩
        · exact ih (hsplit ▸ List.mem_cons_of_mem _ h)

private theorem splitOn_encode_intercalate {ls : List (List Char)} (hne : ls ≠ [])
    (h : ∀ l ∈ ls, '\n' ∉ l) :
    (encode (['\n'].intercalate ls)).splitOn 10 = ls.map encode := by
  rw [encode_intercalate]
  refine List.splitOn_intercalate 10 (fun l hl => ?_) (by simpa using hne)
  obtain ⟨cs, hcs, rfl⟩ := List.mem_map.1 hl
  exact mt linefeed_mem_encode.1 (h cs hcs)

/-! ## Decoding -/

variable {W : Type}

theorem decodeLine_eq_ok_iff {bytes : List UInt8} {cs : List Char} :
    (decodeLine bytes : Except (TextError W) (List Char)) = .ok cs ↔ bytes = encode cs := by
  rw [decodeLine, String.fromUTF8?]
  constructor
  · intro h
    split at h
    · next s hs =>
      split at hs
      · next hvalid =>
        cases hs
        cases h
        have hbytes : (String.fromUTF8 bytes.toByteArray hvalid).toList.utf8Encode =
            bytes.toByteArray := String.utf8Encode_toList
        exact (List.toByteArray_inj.1 hbytes).symm
      · cases hs
    · cases h
  · rintro rfl
    have hvalid : (encode cs).toByteArray.IsValidUTF8 := ⟨cs, rfl⟩
    rw [dif_pos hvalid]
    have hs : String.fromUTF8 (encode cs).toByteArray hvalid = String.ofList cs := rfl
    rw [hs]
    simp

namespace Source

theorem lines_ofString (text : String) :
    ((ofString text).lines : List (Except (TextError W) (List Char))) =
      (text.toList.splitOn '\n').map .ok := by
  have hpieces : text.toUTF8.toList.splitOn 10 = (text.toList.splitOn '\n').map encode := by
    have hsplit := splitOn_encode_intercalate (List.splitOn_ne_nil '\n' text.toList)
      fun l hl => not_mem_of_mem_splitOn hl
    rwa [List.intercalate_splitOn, ← toList_toUTF8] at hsplit
  rw [lines, ofString, hpieces, List.map_map]
  exact List.map_congr_left fun l _ => decodeLine_eq_ok_iff.2 rfl

private theorem failure_of_lines {s : Source} {ls : List (List Char)}
    (h : (s.lines : List (Except (TextError W) (List Char))) = ls.map .ok) : s.failure = none := by
  cases hfailure : s.failure with
  | none => rfl
  | some reason =>
    rw [lines, hfailure] at h
    have hmem : (.error (.broken reason) : Except (TextError W) (List Char)) ∈
        ls.map Except.ok := h ▸ List.mem_append_right _ (List.mem_singleton.2 rfl)
    obtain ⟨l, -, hl⟩ := List.mem_map.1 hmem
    cases hl

/-- The lines of a source can all be decoded if and only if it is a text. -/
theorem lines_eq_map_ok_iff {s : Source} {ls : List (List Char)} :
    (s.lines : List (Except (TextError W) (List Char))) = ls.map .ok ↔
      ∃ text, s = ofString text ∧ text.toList.splitOn '\n' = ls := by
  constructor
  · intro h
    have hfailure := failure_of_lines h
    rw [lines, hfailure] at h
    have hpieces : s.bytes.toList.splitOn 10 = ls.map encode := by
      apply List.ext_getElem
      · simpa using congrArg List.length h
      · intro i hi hi'
        have hi'' : i < ls.length := by simpa using hi'
        have := List.getElem_of_eq h (i := i) (by simpa using hi)
        simp only [List.getElem_map] at this ⊢
        exact decodeLine_eq_ok_iff.1 this
    have hne : ls ≠ [] := fun hnil => List.splitOn_ne_nil 10 s.bytes.toList (by simp [hpieces, hnil])
    have hlf : ∀ l ∈ ls, '\n' ∉ l := fun l hl =>
      mt linefeed_mem_encode.2 (not_mem_of_mem_splitOn (hpieces ▸ List.mem_map_of_mem hl))
    refine ⟨.ofList (['\n'].intercalate ls), ?_, ?_⟩
    · have hbytes : s.bytes.toList = encode (['\n'].intercalate ls) := by
        rw [encode_intercalate, ← hpieces, List.intercalate_splitOn]
      obtain ⟨bytes, failure⟩ := s
      dsimp only at hfailure hbytes
      subst hfailure
      rw [ofString, mk.injEq]
      refine ⟨?_, rfl⟩
      apply ByteArray.ext
      rw [← Array.toList_inj, ← toList_bytes, ← toList_bytes, hbytes, toList_toUTF8,
        String.toList_ofList]
    · rw [String.toList_ofList, List.splitOn_intercalate '\n' hlf hne]
  · rintro ⟨text, rfl, rfl⟩
    exact lines_ofString text

end Source

end Communities.Text
