import Mathlib.Data.Nat.Digits.Lemmas
import Oba.Ber.Encoder
import Oba.Ber.Reading

/-! # What the encoder writes

Every function that writes an element appends the bytes of its tag, the shortest form of its length
and its contents, and the decoder reads these bytes back.
-/

namespace Oba.Ber

open List

open Storage (Bytes)
open Nat (digits digits_def' mod_lt)

variable {bytes : Bytes} {n : Nat} {v : Int}

/-! ## Lengths -/

/-- The shortest form of a length below `2 ^ 32`. -/
def lengthOctets (n : Nat) : Bytes :=
  let byteAt := fun i => UInt8.ofNat (n / 256 ^ i)
  if n ≤ 127 then [byteAt 0]
  else if n ≤ 0xFF then [0x81, byteAt 0]
  else if n ≤ 0xFFFF then [0x82, byteAt 1, byteAt 0]
  else if n ≤ 0xFFFFFF then [0x83, byteAt 2, byteAt 1, byteAt 0]
  else [0x84, byteAt 3, byteAt 2, byteAt 1, byteAt 0]

lemma set_front (front rest : Bytes) (i : Nat) (b : UInt8) :
    (front ++ rest).set (front.length + i) b = front ++ rest.set i b := by
  rw [set_append_right _ _ (Nat.le_add_right _ _), Nat.add_sub_cancel_left]

/-- Moving the contents back over a gap. -/
lemma copyTo_back (front head gap contents : Bytes) :
    let buf := front ++ (head ++ gap ++ contents)
    let moved := copyTo buf (front.length + head.length)
      (buf.drop (front.length + (head.length + gap.length)))
    moved.take (moved.length - gap.length) = front ++ head ++ contents := by
  intro buf moved
  have hsrc : buf.drop (front.length + (head.length + gap.length)) = contents := by
    rw [← drop_drop, drop_left, ← length_append, drop_left]
  have hhead : buf.take (front.length + head.length) = front ++ head := by
    dsimp only [buf]
    rw [append_assoc head, ← append_assoc, ← length_append, take_left]
  have hmoved : moved = front ++ head ++ contents ++
      buf.drop (front.length + head.length + contents.length) := by
    dsimp only [moved, copyTo]
    rw [hsrc, hhead]
  rw [hmoved]
  refine take_left' ?_
  simp only [length_append, length_drop, buf]
  omega

/-- Moving the contents forward by one byte. -/
lemma copyTo_forward (front contents : Bytes) (a b c e : UInt8) :
    let buf := front ++ (a :: b :: c :: e :: contents)
    ∃ f, copyTo (buf ++ [0]) (front.length + 5)
      (((buf ++ [0]).take ((buf ++ [0]).length - 1)).drop (front.length + 4)) =
      front ++ a :: b :: c :: e :: f :: contents := by
  intro buf
  have hall : (buf ++ [0]).take ((buf ++ [0]).length - 1) = buf := take_left' (by simp)
  have hsrc : buf.drop (front.length + 4) = contents := by
    rw [← drop_drop, drop_left]
    rfl
  rw [hall, hsrc]
  unfold copyTo
  rw [drop_of_length_le (by simp [buf]; omega)]
  obtain ⟨f, more, hmore⟩ := exists_cons_of_ne_nil (l := contents ++ [0]) (by simp)
  have hfirst : buf ++ [0] = front ++ [a, b, c, e, f] ++ more := by
    rw [append_assoc, append_assoc]
    exact congrArg (fun l => front ++ a :: b :: c :: e :: l) hmore
  rw [hfirst, take_left' (by simp)]
  simp

/-- The bytes before the reserved ones and the contents stay as they are. -/
lemma fixupLength_eq (front contents : Bytes) (a b c e : UInt8) :
    fixupLength front.length (front ++ a :: b :: c :: e :: contents) =
      .ok (front ++ lengthOctets contents.length ++ contents) := by
  have hlength : (front ++ a :: b :: c :: e :: contents).length - front.length - 4 =
      contents.length := by
    simp only [length_append, length_cons]
    omega
  have hset : ∀ (rest : Bytes) (x : UInt8), (front ++ rest).set front.length x =
      front ++ rest.set 0 x := fun rest x => set_front front rest 0 x
  unfold fixupLength lengthOctets
  rw [if_neg (by simp only [length_append, length_cons]; omega)]
  dsimp only
  rw [hlength]
  split
  · rw [hset]
    exact congrArg Except.ok (copyTo_back front [_] [b, c, e] contents)
  · split
    · rw [hset, set_front]
      exact congrArg Except.ok (copyTo_back front [_, _] [c, e] contents)
    · split
      · rw [hset, set_front, set_front]
        exact congrArg Except.ok (copyTo_back front [_, _, _] [e] contents)
      · split
        · rw [hset, set_front, set_front, set_front, append_assoc]
          rfl
        · rw [hset]
          obtain ⟨f, hf⟩ := copyTo_forward front contents 0x84 b c e
          dsimp only [List.set] at hf ⊢
          rw [hf, set_front, set_front, set_front, set_front, append_assoc]
          rfl

lemma lengthOctets_short (hshort : n ≤ 127) : lengthOctets n = [UInt8.ofNat n] := by
  rw [lengthOctets, if_pos hshort]
  simp

/-- A length in several bytes: its digits, the highest first. -/
lemma lengthOctets_long (hlong : ¬ n ≤ 127) (h : n < 2 ^ 32) :
    lengthOctets n = UInt8.ofNat (0x80 + (digits 256 n).length) ::
      ((digits 256 n).map UInt8.ofNat).reverse := by
  have hzero : ∀ {m : Nat}, m = 0 → digits 256 m = [] := by
    rintro m rfl
    rfl
  have hdigit : ∀ {m : Nat}, 0 < m → digits 256 m = m % 256 :: digits 256 (m / 256) :=
    digits_def' (by decide)
  have hbyte : ∀ m, UInt8.ofNat (m % 256) = UInt8.ofNat m := fun _ => UInt8.ofNat_mod_size
  unfold lengthOctets
  rw [if_neg hlong]
  split
  · rw [hdigit (by omega), hzero (by omega)]
    simp [hbyte]
  · split
    · rw [hdigit (by omega), hdigit (by omega), hzero (by omega)]
      simp [hbyte]
    · split
      · rw [hdigit (by omega), hdigit (by omega), hdigit (by omega), hzero (by omega)]
        simp [hbyte, Nat.div_div_eq_div_mul]
      · rw [hdigit (by omega), hdigit (by omega), hdigit (by omega), hdigit (by omega),
          hzero (by omega)]
        simp [hbyte, Nat.div_div_eq_div_mul]

/-- Reading the digits of a length. -/
lemma lengthLoop_digits (h : n / 256 ≤ 2 ^ 24) (rest : Bytes) (read : Nat) :
    lengthLoop (((digits 256 n).map UInt8.ofNat).reverse ++ rest) 0 read =
      lengthLoop rest n (read + (digits 256 n).length) := by
  induction n using Nat.strong_induction_on generalizing rest read with
  | _ n ih =>
    rcases Nat.eq_zero_or_pos n with rfl | hpos
    · rfl
    · rw [digits_def' (by decide) hpos, map_cons, reverse_cons, append_assoc,
        ih (n / 256) (by omega) (by omega), singleton_append, lengthLoop, if_neg (by omega),
        UInt8.toNat_ofNat']
      congr 1
      omega

lemma takes_lengthOctets (h : n < 2 ^ 32) : Takes readLength (lengthOctets n) n := by
  intro d rest hrest
  unfold readLength
  rw [hrest]
  by_cases hshort : n ≤ 127
  · have hfirst : (UInt8.ofNat n).toNat = n := by
      rw [UInt8.toNat_ofNat']
      omega
    rw [lengthOctets_short hshort]
    dsimp only [cons_append]
    rw [if_pos (UInt8.lt_iff_toNat_lt.mpr (by rw [hfirst]; exact Nat.lt_succ_of_le hshort)), hfirst]
    rfl
  · have hfew : (digits 256 n).length ≤ 4 := (Nat.digits_length_le_iff (by decide) n).mpr h
    have hpos : 0 < (digits 256 n).length :=
      length_pos_of_ne_nil (Nat.digits_ne_nil_iff_ne_zero.mpr (by omega))
    have hfirst : ∀ k ≤ 4, (UInt8.ofNat (0x80 + k)).toNat = 0x80 + k := by decide
    have hloop := lengthLoop_digits (n := n) (by omega) [] 0
    rw [append_nil] at hloop
    rw [lengthOctets_long hshort h]
    dsimp only [cons_append]
    rw [if_neg (by
        rw [UInt8.lt_iff_toNat_lt, hfirst _ hfew]; exact not_lt.mpr (Nat.le_add_right ..)),
      hfirst _ hfew, Nat.add_mod_left, Nat.mod_eq_of_lt (by omega), if_neg (by omega),
      if_neg (by simp),
      take_left' (by simp), hloop]
    simp [lengthLoop, Nat.add_comm]

/-- Lengths of values and lengths of elements that hold others are written alike. -/
lemma writeLength_eq (h : n < 2 ^ 32) (buf : Bytes) :
    writeLength n buf = .ok (buf ++ lengthOctets n) := by
  unfold writeLength
  split
  next hshort => rw [lengthOctets_short hshort]
  next hlong =>
    have hfew : (digits 256 n).length ≤ 4 := (Nat.digits_length_le_iff (by decide) n).mpr h
    dsimp only
    rw [if_neg (by omega), lengthOctets_long hlong h, map_reverse, append_assoc]
    rfl

/-! ## Tags that are read back -/

/-- The bytes of a tag that `readTag` is to read. -/
def tagOctets (tagClass constructed : Nat) (num : Int) : Bytes :=
  writeTagBytes tagClass constructed num []

lemma writeTagBytes_eq (tagClass constructed : Nat) (num : Int) (buf : Bytes) :
    writeTagBytes tagClass constructed num buf = buf ++ tagOctets tagClass constructed num := by
  unfold tagOctets writeTagBytes
  split
  · simp
  · unfold writeBase128
    split
    · simp
    · split <;> simp

/-- The three fields of the first byte of a tag do not overlap. -/
lemma tagByte_fields : ∀ tagClass ∈ [0x00, 0x40, 0x80, 0xC0], ∀ constructed ∈ [0x00, 0x20],
    ∀ number < 32,
    let b := UInt8.ofNat tagClass ||| UInt8.ofNat constructed ||| UInt8.ofNat number
    (b &&& 0xC0).toNat = tagClass ∧ (b &&& 0x20).toNat = constructed ∧
      (b &&& 0x1F).toNat = number := by
  decide

lemma continued_byte : ∀ digit < 128, ¬ UInt8.ofNat digit ||| 0x80 < 128 ∧
    (UInt8.ofNat digit ||| 0x80).toNat % 128 = digit := by
  decide

/-- Reading the digits that come before the last one. -/
lemma readBase128_digits {v : Nat} (h : v / 128 ≤ 2 ^ 24) (rest : Bytes) (offset : Nat) :
    readBase128 (((digits 128 v).map UInt8.ofNat).reverse.map (· ||| 0x80) ++ rest) 0 offset =
      readBase128 rest v (offset + (digits 128 v).length) := by
  induction v using Nat.strong_induction_on generalizing rest offset with
  | _ v ih =>
    rcases Nat.eq_zero_or_pos v with rfl | hpos
    · rfl
    · obtain ⟨hcontinued, hvalue⟩ := continued_byte (v % 128) (mod_lt _ (by decide))
      rw [digits_def' (by decide) hpos, map_cons, reverse_cons, map_append,
        append_assoc, ih (v / 128) (by omega) (by omega), map_singleton,
        singleton_append, readBase128, if_neg (by omega)]
      rw [if_neg hcontinued]
      congr 1
      omega

lemma readBase128_written (hpos : 0 < n) (h : n / 128 ≤ 2 ^ 24) :
    ∃ used, (∀ buf, writeBase128 n buf = buf ++ used) ∧
      ∀ rest offset, readBase128 (used ++ rest) 0 offset = (.ok n, offset + used.length) := by
  have hlast : (UInt8.ofNat (n % 128)).toNat = n % 128 := by
    rw [UInt8.toNat_ofNat']
    omega
  refine ⟨((digits 128 (n / 128)).map UInt8.ofNat).reverse.map (· ||| 0x80) ++
    [UInt8.ofNat (n % 128)], fun buf => ?_, fun rest offset => ?_⟩
  · unfold writeBase128
    rw [if_neg (by omega), Int.toNat_natCast, digits_def' (by decide) hpos, map_cons]
    dsimp only
    rw [append_assoc]
  · rw [append_assoc, readBase128_digits (by omega), singleton_append, readBase128,
      if_neg (by omega)]
    rw [if_pos (UInt8.lt_iff_toNat_lt.mpr (by rw [hlast]; exact mod_lt _ (by decide)))]
    simp
    omega

/-- The tags that are read back, up to the largest number the decoder takes. -/
abbrev ReadableTag (tagClass constructed : Nat) (num : Int) : Prop :=
  tagClass ∈ [0x00, 0x40, 0x80, 0xC0] ∧ constructed ∈ [0x00, 0x20] ∧ 0 ≤ num ∧ num ≤ 2 ^ 31 + 127

lemma takes_tagOctets {tagClass constructed : Nat} {num : Int}
    (htag : ReadableTag tagClass constructed num) :
    Takes readTag (tagOctets tagClass constructed num) ⟨tagClass, constructed, num.toNat⟩ := by
  obtain ⟨hclass, hconstructed, hnonneg, hle⟩ := htag
  obtain ⟨n, rfl⟩ := Int.eq_ofNat_of_zero_le hnonneg
  intro d rest hrest
  unfold tagOctets writeTagBytes at hrest ⊢
  dsimp only [nil_append] at hrest ⊢
  split at hrest
  next hshort =>
    obtain ⟨h1, h2, h3⟩ := tagByte_fields _ hclass _ hconstructed n (by omega)
    have hofInt : UInt8.ofInt (n : Int) = UInt8.ofNat n := by
      apply UInt8.toNat.inj
      simp only [UInt8.ofInt, UInt8.toNat_ofNat']
      omega
    rw [if_pos hshort]
    rw [hofInt] at hrest ⊢
    unfold readTag
    rw [hrest]
    dsimp only [cons_append]
    rw [if_neg (by omega), h1, h2, h3]
    rfl
  next hlong =>
    obtain ⟨h1, h2, h3⟩ := tagByte_fields _ hclass _ hconstructed 31 (by decide)
    rw [show UInt8.ofNat 31 = 0x1F from rfl] at h1 h2 h3
    obtain ⟨used, hused, hread⟩ := readBase128_written (n := n) (by omega) (by omega)
    rw [if_neg hlong]
    rw [hused] at hrest ⊢
    unfold readTag
    rw [hrest]
    dsimp only [cons_append, nil_append]
    rw [if_pos h3, hread]
    rw [h1, h2]
    rw [add_assoc, add_comm 1]
    rfl

/-! ## Numbers that are read back -/

lemma foldl_dropZeros (f : Nat → UInt8) (bytes : Bytes) (l : List Nat) :
    l.foldl (fun bytes i => if bytes ≠ [] ∨ f i ≠ 0 then bytes ++ [f i] else bytes) bytes =
      if bytes = [] then (l.map f).dropWhile (· = 0) else bytes ++ l.map f := by
  induction l generalizing bytes with
  | nil => by_cases h : bytes = [] <;> simp [h]
  | cons i l ih =>
    rw [foldl_cons, ih]
    by_cases hbytes : bytes = []
    · by_cases hi : f i = 0 <;> simp [hbytes, hi]
    · simp [hbytes]

/-- The value of bytes, the highest one first. -/
def bigEndian (bytes : Bytes) : Nat := bytes.foldl (fun result b => result * 256 + b.toNat) 0

lemma bigEndian_dropZeros (bytes : Bytes) :
    bigEndian (bytes.dropWhile (· = 0)) = bigEndian bytes := by
  induction bytes with
  | nil => rfl
  | cons b bytes ih =>
    by_cases hb : b = 0
    · rw [dropWhile_cons_of_pos (by simp [hb]), ih, hb]
      rfl
    · rw [dropWhile_cons_of_neg (by simp [hb])]

lemma decodeInteger_eq (h : bytes.headD 0 < 128) : decodeInteger bytes = bigEndian bytes := by
  have hcast : ∀ (l : Bytes) (r : Nat),
      l.foldl (fun result b => result * 256 + (b.toNat : Int)) (r : Int) =
        (l.foldl (fun result b => result * 256 + b.toNat) r : Nat) := by
    intro l
    induction l with
    | nil => exact fun r => rfl
    | cons b l ih =>
      intro r
      rw [foldl_cons, foldl_cons, ← ih]
      rfl
  cases bytes with
  | nil => rfl
  | cons b bytes =>
    have hb : b < 128 := h
    unfold decodeInteger bigEndian
    dsimp only
    rw [if_pos hb, hcast, foldl_cons, Nat.zero_add]

/-- The eight bytes of a number. -/
lemma bigEndian_bytes (h : n < 2 ^ 64) :
    bigEndian ([7, 6, 5, 4, 3, 2, 1, 0].map fun i => UInt8.ofNat (n / 256 ^ i)) = n := by
  simp only [bigEndian, map_cons, map_nil, foldl_cons, foldl_nil, UInt8.toNat_ofNat']
  omega

/-- Numbers that are not negative are read back from one to eight bytes. -/
lemma encodeInteger_spec (hnonneg : 0 ≤ v) (h : v < 2 ^ 63) :
    decodeInteger (encodeInteger v) = v ∧ encodeInteger v ≠ [] ∧ (encodeInteger v).length ≤ 8 := by
  obtain ⟨n, rfl⟩ := Int.eq_ofNat_of_zero_le hnonneg
  unfold encodeInteger
  split
  next hzero => exact ⟨by rw [hzero]; rfl, cons_ne_nil _ _, by decide⟩
  next hzero =>
    have huv : ((n : Int) % 2 ^ 64).toNat = n := by omega
    dsimp only
    rw [if_neg (by omega), huv, foldl_dropZeros, if_pos rfl]
    generalize hall : [7, 6, 5, 4, 3, 2, 1, 0].map (fun i => UInt8.ofNat (n / 256 ^ i)) = all
    have hvalue : bigEndian (all.dropWhile (· = 0)) = n := by
      rw [bigEndian_dropZeros, ← hall, bigEndian_bytes (by omega)]
    have hne : all.dropWhile (· = 0) ≠ [] := by
      intro hnil
      rw [hnil] at hvalue
      exact hzero (by rw [← hvalue]; rfl)
    have hlength : all.length = 8 := by
      rw [← hall]
      rfl
    have hsub : List.Sublist (all.dropWhile (· = 0)) all := dropWhile_sublist _
    have hle := hsub.length_le
    split
    next hhigh =>
      refine ⟨?_, cons_ne_nil _ _, ?_⟩
      · rw [decodeInteger_eq (by simp)]
        rw [← hvalue]
        rfl
      · -- nothing is dropped only if the highest byte is not zero, and that byte is below 128
        by_contra hlong
        rw [length_cons] at hlong
        rw [hsub.eq_of_length (by omega), ← hall, UInt8.le_iff_toNat_le] at hhigh
        simp only [map_cons, headD_cons, UInt8.toNat_ofNat', UInt8.reduceToNat] at hhigh
        omega
    next hlow =>
      refine ⟨?_, hne, by omega⟩
      rw [decodeInteger_eq (by simpa using hlow), hvalue]

/-! ## Elements -/

/-- The tag and the length of an element. -/
def headerOctets (tagClass constructed : Nat) (num : Int) (length : Nat) : Bytes :=
  tagOctets tagClass constructed num ++ lengthOctets length

/-- The bytes of an element. -/
def elementOctets (tagClass constructed : Nat) (num : Int) (contents : Bytes) : Bytes :=
  headerOctets tagClass constructed num contents.length ++ contents

section Elements

variable {tagClass constructed : Nat} {num : Int}

lemma tagOctets_ne_nil : tagOctets tagClass constructed num ≠ [] := by
  unfold tagOctets writeTagBytes
  split
  · simp
  · unfold writeBase128
    split
    · simp
    · split <;> simp

lemma header_headerOctets {length : Nat} (htag : ReadableTag tagClass constructed num)
    (hlength : length < 2 ^ 32) :
    Header (headerOctets tagClass constructed num length) ⟨tagClass, constructed, num.toNat⟩
      length :=
  ⟨_, _, rfl, tagOctets_ne_nil, takes_tagOctets htag, takes_lengthOctets hlength⟩

lemma writeTag_eq (hclass : tagClass ∈ [0x00, 0x40, 0x80, 0xC0]) (hnonneg : 0 ≤ num)
    (buf : Bytes) :
    writeTag tagClass constructed num buf = .ok (buf ++ tagOctets tagClass constructed num) := by
  unfold writeTag
  rw [if_neg (not_not.mpr hclass), if_neg (by omega), writeTagBytes_eq]

end Elements

/-- A tag, a length and the contents. -/
lemma writeValue_eq {num : Nat} (contents : Bytes) (h : contents.length < 2 ^ 32) (buf : Bytes) :
    (do let buf ← writeTag classUniversal typePrimitive num buf
        let buf ← writeLength contents.length buf
        return buf ++ contents) =
      .ok (buf ++ elementOctets classUniversal typePrimitive num contents) := by
  rw [writeTag_eq (by decide) (Int.natCast_nonneg _)]
  dsimp only [bind, Except.bind]
  rw [writeLength_eq h]
  simp [pure, Except.pure, elementOctets, headerOctets]

lemma writeOctetString_eq {v : Bytes} (h : v.length < 2 ^ 32) (buf : Bytes) :
    writeOctetString v buf =
      .ok (buf ++ elementOctets classUniversal typePrimitive tagOctetString v) :=
  writeValue_eq _ h buf

lemma writeBoolean_eq (v : Bool) (buf : Bytes) :
    writeBoolean v buf = .ok (buf ++ elementOctets classUniversal typePrimitive tagBoolean
      [if v then 0xFF else 0x00]) :=
  writeValue_eq [_] (by simp) buf

lemma writeInteger_eq (h : (encodeInteger v).length < 2 ^ 32) (buf : Bytes) :
    writeInteger v buf =
      .ok (buf ++ elementOctets classUniversal typePrimitive tagInteger (encodeInteger v)) :=
  writeValue_eq _ h buf

/-- An element that was begun with its tag, when its contents have been written. -/
lemma fixupLength_reserve (buf : Bytes) (tagClass constructed : Nat) (num : Int)
    (contents : Bytes) :
    fixupLength (reserve (writeTagBytes tagClass constructed num buf)).1
      ((reserve (writeTagBytes tagClass constructed num buf)).2 ++ contents) =
      .ok (buf ++ elementOctets tagClass constructed num contents) := by
  unfold reserve elementOctets headerOctets
  rw [append_assoc]
  refine (fixupLength_eq _ contents 0 0 0 0).trans ?_
  rw [writeTagBytes_eq, append_assoc, append_assoc, append_assoc]

lemma beginSequence_eq (buf : Bytes) :
    beginSequence buf = reserve (writeTagBytes classUniversal typeConstructed tagSequence buf) :=
  rfl

end Oba.Ber
