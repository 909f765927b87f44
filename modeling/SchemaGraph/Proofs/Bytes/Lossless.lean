import Mathlib.Algebra.Group.Nat.Defs
import SchemaGraph.Bytes.Gzip

/-!
# Lossless Forms of Bytes

What is written as bytes can be read back: texts and numbers, blocks of stored bytes, and gzip
files.

- `Bytes.text?_ofText`: the bytes of a text encode that text and no other
- `Gzip.decompress?_compress`: a gzip file has the contents that it was made from
-/

namespace SchemaGraph

/-! ## §1 Texts and numbers -/

namespace Bytes

private theorem toList_loop (b : ByteArray) (i : Nat) (r : List UInt8) :
    ByteArray.toList.loop b i r = r.reverse ++ b.data.toList.drop i := by
  fun_induction ByteArray.toList.loop b i r with
  | case1 i r h ih =>
    have hi : i < b.data.toList.length := by simpa using h
    have hget : b.get! i = b.data.toList[i] := by
      show b.data[i]! = _
      rw [getElem!_pos b.data i (by simpa using hi), Array.getElem_toList]
    rw [ih, List.drop_eq_getElem_cons hi, List.reverse_cons, List.append_assoc, hget]
    rfl
  | case2 i r h =>
    have hi : b.data.toList.length ≤ i := by simpa using h
    rw [List.drop_eq_nil_of_le hi, List.append_nil]

theorem ofText_eq (s : String) : ofText s = s.toByteArray.data.toList :=
  toList_loop s.toUTF8 0 []

/-- The bytes of a text are those of its characters. -/
theorem ofText_ofList (cs : List Char) :
    ofText (String.ofList cs) = cs.flatMap String.utf8EncodeChar := by
  rw [ofText_eq, String.toByteArray_ofList, List.utf8Encode, List.toList_data_toByteArray]

/-- The bytes of a text encode that text. -/
theorem text?_ofText (s : String) : text? (ofText s) = some s := by
  have hbytes : (⟨(ofText s).toArray⟩ : ByteArray) = s.toByteArray := by
    rw [ofText_eq, Array.toArray_toList]
  rw [text?, hbytes, String.fromUTF8?, dif_pos s.isValidUTF8]
  rfl

/-- Different texts have different bytes. -/
theorem ofText_inj {s s' : String} (h : ofText s = ofText s') : s = s' := by
  have hs := text?_ofText s
  rw [h, text?_ofText] at hs
  exact (Option.some.inj hs).symm

theorem littleEndianValue_littleEndian (width n : Nat) :
    littleEndianValue (littleEndian width n) = n % 256 ^ width := by
  induction width generalizing n with
  | zero => simp [littleEndian, littleEndianValue, Nat.mod_one]
  | succ width ih =>
    rw [littleEndian, littleEndianValue, ih, Nat.pow_succ, Nat.mul_comm (256 ^ width), Nat.mod_mul]
    simp

@[simp] theorem length_littleEndian (width n : Nat) : (littleEndian width n).length = width := by
  induction width generalizing n with
  | zero => rfl
  | succ width ih => simp [littleEndian, ih]

end Bytes

/-! ## §2 Stored blocks -/

namespace Deflate

theorem bind_apply {α β : Type} (x : Read α) (f : α → Read β) (s : BitSource) :
    (x >>= f) s = (x s).bind fun r => f r.1 r.2 := rfl

theorem wholeBytes_append {n : Nat} {front : Bytes} (h : front.length = n) (rest : Bytes)
    (pending : List Bool) :
    wholeBytes n ⟨pending, front ++ rest⟩ = some (front, ⟨pending, rest⟩) := by
  subst h
  simp [wholeBytes]

/-- The rest of the first byte of a block does not count. -/
theorem stored_apply (out : Array UInt8) (pending : List Bool) {contents : Bytes} (rest : Bytes)
    (hsize : contents.length ≤ maxStored) :
    stored out ⟨pending, Bytes.littleEndian 2 contents.length
        ++ (Bytes.littleEndian 2 (0xFFFF - contents.length) ++ (contents ++ rest))⟩ =
      some (out ++ contents.toArray, ⟨[], rest⟩) := by
  have hmax : maxStored = 65535 := rfl
  -- Both lengths fit into two bytes, and each is the complement of the other.
  have hvalue : ∀ n, n ≤ 65535 →
      Bytes.littleEndianValue (Bytes.littleEndian 2 n) = n := by
    intro n hn
    rw [Bytes.littleEndianValue_littleEndian]
    exact Nat.mod_eq_of_lt (by omega)
  have halign : ∀ bytes, align ⟨pending, bytes⟩ = some ((), ⟨[], bytes⟩) := fun _ => rfl
  have hinverse : contents.length + (0xFFFF - contents.length) = 0xFFFF := by omega
  simp only [stored, bind_apply, halign, Option.bind_some,
    wholeBytes_append (Bytes.length_littleEndian _ _), hvalue _ (hmax ▸ hsize),
    hvalue _ (Nat.sub_le _ _), hinverse, ne_eq, not_true_eq_false, if_false,
    wholeBytes_append rfl]
  rfl

/-- **A stored block** is read as what is stored. -/
theorem blocks_storedBlock (fuel : Nat) (out : Array UInt8) (isLast : Bool) {contents : Bytes}
    (rest : Bytes) (hsize : contents.length ≤ maxStored) :
    blocks (fuel + 1) out ⟨[], storedBlock isLast contents ++ rest⟩ =
      if isLast then some (out ++ contents.toArray, ⟨[], rest⟩)
      else blocks fuel (out ++ contents.toArray) ⟨[], rest⟩ := by
  -- Of the first byte, one bit marks the last block and two name the kind; the rest is dropped.
  have hbit : ∀ bytes, bit ⟨[], (if isLast then 1 else 0) :: bytes⟩ =
      some (isLast, ⟨[false, false, false, false, false, false, false], bytes⟩) := by
    intro bytes
    cases isLast <;> rfl
  have hkind : ∀ bytes, number 2 ⟨[false, false, false, false, false, false, false], bytes⟩ =
      some (0, ⟨[false, false, false, false, false], bytes⟩) := fun _ => rfl
  rw [blocks, storedBlock]
  simp only [List.cons_append, List.append_assoc, bind_apply, hbit, hkind, Option.bind_some,
    stored_apply out _ rest hsize]
  cases isLast <;> rfl

/-- Each block needs a step. -/
theorem blocks_compress (contents : Bytes) (fuel : Nat) (out : Array UInt8) (rest : Bytes)
    (hfuel : contents.length < fuel) :
    blocks fuel out ⟨[], compress contents ++ rest⟩ =
      some (out ++ contents.toArray, ⟨[], rest⟩) := by
  have hmax : 0 < maxStored := by decide
  cases fuel with
  | zero => cases hfuel
  | succ fuel =>
    induction contents using compress.induct generalizing fuel out with
    | case1 contents hle =>
      rw [compress, if_pos hle, blocks_storedBlock _ _ _ _ hle, if_pos rfl]
    | case2 contents hgt ih =>
      -- A full block comes first; the rest follows with one step less.
      have htake : (contents.take maxStored).length ≤ maxStored := List.length_take_le ..
      have hparts : out ++ (contents.take maxStored).toArray
          ++ (contents.drop maxStored).toArray = out ++ contents.toArray := by
        simp
      obtain ⟨fuel', rfl⟩ : ∃ fuel', fuel = fuel' + 1 := ⟨fuel - 1, by omega⟩
      have hfuel' : (contents.drop maxStored).length < fuel' + 1 := by
        rw [List.length_drop]
        omega
      rw [compress, if_neg hgt, List.append_assoc, blocks_storedBlock _ _ _ _ htake,
        if_neg Bool.false_ne_true, ih _ _ hfuel', hparts]

theorem length_le_compress (contents : Bytes) : contents.length ≤ (compress contents).length := by
  induction contents using compress.induct with
  | case1 contents hle =>
    rw [compress, if_pos hle, storedBlock]
    simp only [List.length_cons, List.length_append]
    omega
  | case2 contents hgt ih =>
    rw [compress, if_neg hgt, storedBlock]
    simp only [List.length_cons, List.length_append, List.length_take, List.length_drop] at ih ⊢
    omega

/-- Expanding undoes compressing, and what follows is left. -/
theorem expand?_compress (contents rest : Bytes) :
    expand? (compress contents ++ rest) = some (contents, rest) := by
  have hfuel : contents.length < 8 * (compress contents ++ rest).length + 1 := by
    have := length_le_compress contents
    rw [List.length_append]
    omega
  rw [expand?, blocks_compress contents _ _ rest hfuel]
  simp

end Deflate

/-! ## §3 Gzip files -/

namespace Gzip

theorem afterHeader?_compress (contents : Bytes) :
    afterHeader? (compress contents) = some (Deflate.compress contents
      ++ (Bytes.littleEndian 4 (Crc32.checksum contents).toNat
        ++ Bytes.littleEndian 4 contents.length)) := by
  simp only [compress, magic, List.cons_append, List.nil_append, List.append_assoc]
  generalize Deflate.compress contents ++ _ = rest
  simp [afterHeader?, hasMagic, magic]

/-- **Gzip is lossless.** -/
theorem decompress?_compress (contents : Bytes) :
    decompress? (compress contents) = some contents := by
  have hcheck : Bytes.littleEndianValue
      (Bytes.littleEndian 4 (Crc32.checksum contents).toNat) = (Crc32.checksum contents).toNat := by
    rw [Bytes.littleEndianValue_littleEndian]
    exact Nat.mod_eq_of_lt (Crc32.checksum contents).toNat_lt
  have htake : (Bytes.littleEndian 4 contents.length).take 4 =
      Bytes.littleEndian 4 contents.length :=
    List.take_of_length_le (Nat.le_of_eq (Bytes.length_littleEndian _ _))
  rw [decompress?, afterHeader?_compress]
  simp [Deflate.expand?_compress, hcheck, htake, Bytes.littleEndianValue_littleEndian]

/-- What is compressed is no text. -/
theorem text?_compress (contents : Bytes) : (compress contents).text? = none := by
  obtain ⟨rest, hrest⟩ : ∃ rest, compress contents = magic ++ rest := by
    simp only [compress, List.append_assoc]
    exact ⟨_, rfl⟩
  rw [hrest, Bytes.text?, String.fromUTF8?, dif_neg]
  intro hvalid
  -- The first byte is a character of its own, and with the second one none can begin.
  have hsplit : (⟨(magic ++ rest).toArray⟩ : ByteArray) =
      ['\x1f'].utf8Encode ++ ⟨(0x8b :: rest).toArray⟩ := by
    rw [ByteArray.ext_iff]
    simp [magic, List.utf8Encode, String.utf8EncodeChar]
  rw [hsplit, ByteArray.isValidUTF8_utf8Encode_singleton_append_iff] at hvalid
  have hfirst : UInt8.IsUTF8FirstByte 0x8b :=
    hvalid.isUTF8FirstByte_getElem_zero (Nat.succ_pos rest.length)
  revert hfirst
  decide

end Gzip

end SchemaGraph
