import Oba.Filters.Types

/-! # The text of a filter

RFC 4515: a filter is written in parentheses, with its operator before or within. In values the
five bytes that have a meaning of their own, and bytes that are not part of UTF-8 text, are
written as a backslash and two hexadecimal digits.
-/

namespace Oba.Filters

open List

open Storage (Bytes ascii isSpace)

variable {a b : UInt8} {k : Nat} {value : Bytes}

/-! ## Values -/

/-- NUL, the parentheses, the star and the backslash. -/
def reservedBytes : Bytes := [0, 40, 41, 42, 92]

/-- For the first byte of a UTF-8 character beyond ASCII, the range of the second byte and the
number of bytes after that. -/
def leading (a : UInt8) : Option (UInt8 × UInt8 × Nat) :=
  if 0xC2 ≤ a ∧ a ≤ 0xDF then some (0x80, 0xBF, 0)
  else if a = 0xE0 then some (0xA0, 0xBF, 1)
  else if a = 0xED then some (0x80, 0x9F, 1)
  else if 0xE1 ≤ a ∧ a ≤ 0xEF then some (0x80, 0xBF, 1)
  else if a = 0xF0 then some (0x90, 0xBF, 2)
  else if 0xF1 ≤ a ∧ a ≤ 0xF3 then some (0x80, 0xBF, 2)
  else if a = 0xF4 then some (0x80, 0x8F, 2)
  else none

/-- How many bytes of `rest` belong to the UTF-8 character beyond ASCII that begins with `a`. -/
def tailLength (a : UInt8) (rest : Bytes) : Option Nat :=
  match leading a, rest with
  | some (low, high, n), b :: rest =>
    if low ≤ b ∧ b ≤ high ∧ n ≤ rest.length ∧ (rest.take n).all (fun c => 0x80 ≤ c ∧ c ≤ 0xBF)
    then some (n + 1) else none
  | _, _ => none

def hexDigit (n : Nat) : UInt8 := if n < 10 then UInt8.ofNat (48 + n) else UInt8.ofNat (87 + n)

def escapeByte (b : UInt8) : Bytes := [92, hexDigit (b.toNat / 16), hexDigit (b.toNat % 16)]

/-- The rest of a value, whose first bytes, as many as the first argument says, belong to a
character that has begun. -/
def escapeFrom : Nat → Bytes → Bytes
  | _, [] => []
  | k + 1, b :: rest => b :: escapeFrom k rest
  | 0, b :: rest =>
    if b ∈ reservedBytes then escapeByte b ++ escapeFrom 0 rest
    else if b < 0x80 then b :: escapeFrom 0 rest
    else match tailLength b rest with
      | some k => b :: escapeFrom k rest
      | none => escapeByte b ++ escapeFrom 0 rest

def escape (value : Bytes) : Bytes := escapeFrom 0 value

/-! ## Filters -/

/-- The components of a substring filter with a star behind each of them but the last. -/
def SubstringFilter.parts (sf : SubstringFilter) : List Bytes :=
  escape sf.initial :: sf.any.map escape ++ [escape sf.final]

mutual

def render : Filter → Bytes
  | .and children => ascii "(&" ++ renderAll children ++ ascii ")"
  | .or children => ascii "(|" ++ renderAll children ++ ascii ")"
  | .not child => ascii "(!" ++ render child ++ ascii ")"
  | .equality attr value => ascii "(" ++ attr ++ ascii "=" ++ escape value ++ ascii ")"
  | .substring sf => ascii "(" ++ sf.attr ++ ascii "=" ++ [42].intercalate sf.parts ++ ascii ")"
  | .greaterOrEqual attr value => ascii "(" ++ attr ++ ascii ">=" ++ escape value ++ ascii ")"
  | .lessOrEqual attr value => ascii "(" ++ attr ++ ascii "<=" ++ escape value ++ ascii ")"
  | .present attr => ascii "(" ++ attr ++ ascii "=*)"
  | .approxMatch attr value => ascii "(" ++ attr ++ ascii "~=" ++ escape value ++ ascii ")"

def renderAll : List Filter → Bytes
  | [] => []
  | child :: rest => render child ++ renderAll rest

end

/-- An attribute name has letters, digits, hyphens and semicolons. -/
def isNameByte (b : UInt8) : Bool :=
  65 ≤ b ∧ b ≤ 90 ∨ 97 ≤ b ∧ b ≤ 122 ∨ 48 ≤ b ∧ b ≤ 57 ∨ b = 45 ∨ b = 59

/-- A name is not empty. -/
def IsName (attr : Bytes) : Prop := attr ≠ [] ∧ ∀ b ∈ attr, isNameByte b

mutual

/-- All attributes of a filter have names. -/
def Named : Filter → Prop
  | .and children => AllNamed children
  | .or children => AllNamed children
  | .not child => Named child
  | .equality attr _ => IsName attr
  | .substring sf => IsName sf.attr
  | .greaterOrEqual attr _ => IsName attr
  | .lessOrEqual attr _ => IsName attr
  | .present attr => IsName attr
  | .approxMatch attr _ => IsName attr

def AllNamed : List Filter → Prop
  | [] => True
  | child :: rest => Named child ∧ AllNamed rest

end

/-! ## What values are written as -/

lemma le_of_leading {low high : UInt8} {n : Nat} (h : leading a = some (low, high, n)) :
    0x80 ≤ low := by
  unfold leading at h
  split_ifs at h <;> cases h <;> decide

/-- The bytes of a character beyond ASCII are beyond ASCII. -/
lemma le_of_tailLength {rest : Bytes} (h : tailLength a rest = some k) :
    ∀ b ∈ rest.take k, 0x80 ≤ b := by
  unfold tailLength at h
  split at h
  next low high n b rest hleading =>
    obtain ⟨⟨hlow, -, -, htail⟩, ⟨⟩⟩ := Option.ite_none_right_eq_some.mp h
    intro c hc
    rcases mem_cons.mp hc with rfl | hc
    · exact UInt8.le_trans (le_of_leading hleading) hlow
    · exact (by simpa using all_eq_true.mp htail c hc : 0x80 ≤ c ∧ c ≤ 0xBF).1
  · cases h

/-- A byte that is neither a parenthesis nor a star. -/
def Inert (b : UInt8) : Prop := b ≠ 40 ∧ b ≠ 41 ∧ b ≠ 42

lemma inert_hexDigit : ∀ n < 16, Inert (hexDigit n) := by
  unfold Inert
  decide

lemma inert_escapeByte (b : UInt8) : ∀ c ∈ escapeByte b, Inert c := by
  have hb := b.toNat_lt
  intro c hc
  simp only [escapeByte, mem_cons, not_mem_nil, or_false] at hc
  rcases hc with rfl | rfl | rfl
  · exact ⟨by decide, by decide, by decide⟩
  · exact inert_hexDigit _ (by omega)
  · exact inert_hexDigit _ (by omega)

lemma inert_of_le (hb : 0x80 ≤ b) : Inert b := by
  refine ⟨?_, ?_, ?_⟩ <;>
  · rintro rfl
    exact absurd hb (by decide)

lemma inert_of_not_reserved (hb : b ∉ reservedBytes) : Inert b := by
  refine ⟨?_, ?_, ?_⟩ <;>
  · rintro rfl
    exact absurd hb (by decide)

lemma inert_escapeFrom (hvalue : ∀ b ∈ value.take k, 0x80 ≤ b) :
    ∀ c ∈ escapeFrom k value, Inert c := by
  induction k, value using escapeFrom.induct with
  | case1 => simp [escapeFrom]
  | case2 k b rest ih =>
    obtain ⟨hb, hrest⟩ := forall_mem_cons.mp hvalue
    exact forall_mem_cons.mpr ⟨inert_of_le hb, ih hrest⟩
  | case3 b rest hreserved ih =>
    rw [escapeFrom, if_pos hreserved]
    exact forall_mem_append.mpr ⟨inert_escapeByte b, ih (by simp)⟩
  | case4 b rest hreserved hascii ih =>
    rw [escapeFrom, if_neg hreserved, if_pos hascii]
    exact forall_mem_cons.mpr ⟨inert_of_not_reserved hreserved, ih (by simp)⟩
  | case5 b rest hreserved hascii k htail ih =>
    rw [escapeFrom, if_neg hreserved, if_neg hascii, htail]
    exact forall_mem_cons.mpr ⟨inert_of_not_reserved hreserved, ih (le_of_tailLength htail)⟩
  | case6 b rest hreserved hascii htail ih =>
    rw [escapeFrom, if_neg hreserved, if_neg hascii, htail]
    exact forall_mem_append.mpr ⟨inert_escapeByte b, ih (by simp)⟩

lemma inert_escape (value : Bytes) : ∀ c ∈ escape value, Inert c :=
  inert_escapeFrom (by simp)

lemma length_le_escapeFrom (k : Nat) (value : Bytes) :
    value.length ≤ (escapeFrom k value).length := by
  induction k, value using escapeFrom.induct with
  | case1 => exact Nat.zero_le _
  | case2 k b rest ih => simpa [escapeFrom] using ih
  | case3 b rest hreserved ih =>
    rw [escapeFrom, if_pos hreserved]
    simp [escapeByte]
    omega
  | case4 b rest hreserved hascii ih => simpa [escapeFrom, hreserved, hascii] using ih
  | case5 b rest hreserved hascii k htail ih =>
    simpa [escapeFrom, hreserved, hascii, htail] using ih
  | case6 b rest hreserved hascii htail ih =>
    rw [escapeFrom, if_neg hascii, htail]
    simp [escapeByte]
    omega

lemma escape_eq_nil_iff : escape value = [] ↔ value = [] := by
  constructor
  · intro h
    have hle := length_le_escapeFrom 0 value
    rw [show escapeFrom 0 value = [] from h] at hle
    exact length_eq_zero_iff.mp (Nat.le_zero.mp hle)
  · rintro rfl
    rfl

end Oba.Filters
