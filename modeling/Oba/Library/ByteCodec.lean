import Mathlib.Data.Nat.Basic
import Mathlib.Algebra.Order.Ring.Nat
import Mathlib.Tactic.Ring

/-! # Little-endian byte streams

Byte strings are lists of `UInt8`. A number is written in a fixed number of bytes,
least significant first, and wraps at that width. A reader consumes the front of a byte
string and fails when too few bytes are left.
-/

namespace ByteCodec

open List Option

/-- The `width` least significant bytes of `n`, least significant first. -/
def putUint : Nat → Nat → List UInt8
  | 0, _ => []
  | width + 1, n => UInt8.ofNat n :: putUint width (n / 256)

/-- The number a byte string stands for, least significant byte first. -/
def getUint : List UInt8 → Nat
  | [] => 0
  | byte :: rest => byte.toNat + 256 * getUint rest

@[simp]
lemma length_putUint (width n : Nat) : (putUint width n).length = width := by
  induction width generalizing n with
  | zero => rfl
  | succ width ih => simp [putUint, ih]

variable {width n : Nat} {s rest bytes : List UInt8} {count : Nat}

lemma drop_putUint {skip : Nat} (n : Nat) (h : width ≤ skip) : (putUint width n).drop skip = [] :=
  drop_of_length_le (by rw [length_putUint]; exact h)

lemma getUint_putUint (width n : Nat) : getUint (putUint width n) = n % 256 ^ width := by
  induction width generalizing n with
  | zero => simp [putUint, getUint, Nat.mod_one]
  | succ width ih =>
    rw [putUint, getUint, ih, Nat.pow_succ', Nat.mod_mul]
    simp

lemma getUint_putUint_of_lt (h : n < 256 ^ width) : getUint (putUint width n) = n := by
  rw [getUint_putUint, Nat.mod_eq_of_lt h]

/-- A field that has been cut out of a record. -/
lemma getUint_slice {bytes : List UInt8} (width : Nat) (hslice : bytes = putUint width n)
    (h : n < 256 ^ width) : getUint bytes = n := by
  rw [hslice, getUint_putUint_of_lt h]

lemma getUint_lt (bytes : List UInt8) : getUint bytes < 256 ^ bytes.length := by
  induction bytes with
  | nil => simp [getUint]
  | cons byte rest ih =>
    have hbyte := byte.toNat_lt
    rw [getUint, length_cons]
    omega

/-! ## Readers -/

/-- Read the next `count` bytes. -/
def readBytes (count : Nat) (s : List UInt8) : Option (List UInt8 × List UInt8) :=
  if s.length < count then none else some (s.take count, s.drop count)

/-- Read the next number of `width` bytes. -/
def readUint (width : Nat) (s : List UInt8) : Option (Nat × List UInt8) :=
  (readBytes width s).map fun r => (getUint r.1, r.2)

/-- Read `count` items one after another. -/
def readMany {α : Type} (item : List UInt8 → Option (α × List UInt8)) :
    Nat → List UInt8 → Option (List α × List UInt8)
  | 0, s => some ([], s)
  | count + 1, s => do
    let (first, s) ← item s
    let (rest, s) ← readMany item count s
    some (first :: rest, s)

lemma readBytes_append (bytes rest : List UInt8) :
    readBytes bytes.length (bytes ++ rest) = some (bytes, rest) := by
  unfold readBytes
  rw [if_neg (by simp), take_left, drop_left]

lemma readUint_putUint (width n : Nat) (rest : List UInt8) :
    readUint width (putUint width n ++ rest) = some (n % 256 ^ width, rest) := by
  have hread := readBytes_append (putUint width n) rest
  rw [length_putUint] at hread
  rw [readUint, hread, map_some, getUint_putUint]

lemma readBytes_some (h : readBytes count s = some (bytes, rest)) :
    bytes.length = count ∧ s = bytes ++ rest := by
  unfold readBytes at h
  split at h
  · cases h
  next hlen =>
    cases h
    exact ⟨length_take_of_le (not_lt.mp hlen), (take_append_drop count s).symm⟩

lemma readUint_some (h : readUint width s = some (n, rest)) :
    n < 256 ^ width ∧ s.length = width + rest.length := by
  obtain ⟨r, hread, heq⟩ := map_eq_some_iff.mp h
  obtain ⟨rfl, rfl⟩ := readBytes_some hread
  cases heq
  exact ⟨getUint_lt r.1, length_append⟩

/-- A byte string behind its length. -/
def putBlock (width : Nat) (bytes : List UInt8) : List UInt8 :=
  putUint width bytes.length ++ bytes

lemma length_putBlock (width : Nat) (bytes : List UInt8) :
    (putBlock width bytes).length = width + bytes.length := by
  rw [putBlock, length_append, length_putUint]

def readBlock (width : Nat) (s : List UInt8) : Option (List UInt8 × List UInt8) := do
  let (count, s) ← readUint width s
  readBytes count s

lemma readBlock_putBlock (hfits : bytes.length < 256 ^ width) (rest : List UInt8) :
    readBlock width (putBlock width bytes ++ rest) = some (bytes, rest) := by
  unfold readBlock putBlock
  simp only [append_assoc, readUint_putUint, Nat.mod_eq_of_lt hfits, bind_eq_bind,
    bind_some, readBytes_append]

lemma readBlock_some (h : readBlock width s = some (bytes, rest)) :
    bytes.length < 256 ^ width ∧ s.length = width + bytes.length + rest.length := by
  obtain ⟨⟨count, s'⟩, hcount, hbytes⟩ := bind_eq_some_iff.mp h
  obtain ⟨rfl, rfl⟩ := readBytes_some hbytes
  obtain ⟨hlt, hlen⟩ := readUint_some hcount
  exact ⟨hlt, by rw [hlen, length_append, add_assoc]⟩

section Many

variable {α : Type} {item : List UInt8 → Option (α × List UInt8)}

section

variable {put : α → List UInt8} (items : List α)
  (hitem : ∀ a ∈ items, ∀ rest, item (put a ++ rest) = some (a, rest))
include hitem

/-- Items that are each read back in front of any rest come first when more is read. -/
lemma readMany_flatMap_append (count : Nat) (s : List UInt8) :
    readMany item (items.length + count) (items.flatMap put ++ s) =
      (readMany item count s).map fun r => (items ++ r.1, r.2) := by
  induction items with
  | nil => simp
  | cons a items ih =>
    have hrest := ih fun b hb => hitem b (mem_cons_of_mem a hb)
    rw [flatMap_cons, append_assoc, length_cons, Nat.add_right_comm, readMany]
    simp only [hitem a mem_cons_self, hrest, bind_eq_bind, bind_some]
    cases readMany item count s <;> rfl

/-- Items that are each read back in front of any rest are read back as a list. -/
lemma readMany_flatMap (rest : List UInt8) :
    readMany item items.length (items.flatMap put ++ rest) = some (items, rest) := by
  have hread := readMany_flatMap_append items hitem 0 rest
  simpa [readMany] using hread

end

/-- The items that are read take up the bytes in front of the rest. -/
lemma length_rest_of_readMany {size : α → Nat}
    (hitem : ∀ s a rest, item s = some (a, rest) → s.length = size a + rest.length)
    {s rest : List UInt8} {items : List α} (h : readMany item count s = some (items, rest)) :
    s.length = (items.map size).sum + rest.length := by
  induction count generalizing s items with
  | zero =>
    cases h
    simp
  | succ count ih =>
    obtain ⟨⟨first, s₁⟩, hfirst, h⟩ := bind_eq_some_iff.mp h
    obtain ⟨⟨others, s₂⟩, hothers, h⟩ := bind_eq_some_iff.mp h
    cases h
    rw [hitem _ _ _ hfirst, ih hothers, map_cons, sum_cons, add_assoc]

/-- What holds of every item that is read holds of all of them. -/
lemma readMany_forall {P : α → Prop} (hitem : ∀ s a rest, item s = some (a, rest) → P a)
    {s rest : List UInt8} {items : List α} (h : readMany item count s = some (items, rest)) :
    items.length = count ∧ ∀ a ∈ items, P a := by
  induction count generalizing s items with
  | zero =>
    cases h
    simp
  | succ count ih =>
    obtain ⟨⟨first, s₁⟩, hfirst, h⟩ := bind_eq_some_iff.mp h
    obtain ⟨⟨others, s₂⟩, hothers, h⟩ := bind_eq_some_iff.mp h
    cases h
    obtain ⟨hlen, hall⟩ := ih hothers
    exact ⟨congrArg Nat.succ hlen, forall_mem_cons.mpr ⟨hitem _ _ _ hfirst, hall⟩⟩

end Many

/-! ## Writers and readers that belong together -/

section Lossless

variable {α : Type}

/-- What fits is read back in front of any rest, and everything that is read fits. -/
structure Lossless (put : α → List UInt8) (read : List UInt8 → Option (α × List UInt8))
    (fits : α → Prop) : Prop where
  read_put : ∀ {a : α}, fits a → ∀ rest, read (put a ++ rest) = some (a, rest)
  fits_of_read : ∀ {s rest : List UInt8} {a : α}, read s = some (a, rest) → fits a

lemma lossless_block (width : Nat) :
    Lossless (putBlock width) (readBlock width) fun bytes => bytes.length < 256 ^ width :=
  ⟨readBlock_putBlock, fun h => (readBlock_some h).1⟩

/-- Items behind their number. -/
def putList (width : Nat) (put : α → List UInt8) (items : List α) : List UInt8 :=
  putUint width items.length ++ items.flatMap put

def readList (width : Nat) (read : List UInt8 → Option (α × List UInt8)) (s : List UInt8) :
    Option (List α × List UInt8) := do
  let (count, s) ← readUint width s
  readMany read count s

lemma Lossless.list {put : α → List UInt8} {read : List UInt8 → Option (α × List UInt8)}
    {fits : α → Prop} (h : Lossless put read fits) (width : Nat) :
    Lossless (putList width put) (readList width read) fun items =>
      items.length < 256 ^ width ∧ ∀ a ∈ items, fits a where
  read_put := by
    rintro items ⟨hcount, hitems⟩ rest
    have hmany := readMany_flatMap items (fun a ha => h.read_put (hitems a ha)) rest
    unfold readList putList
    simp only [append_assoc, readUint_putUint, Nat.mod_eq_of_lt hcount, bind_eq_bind,
      bind_some, hmany]
  fits_of_read := by
    intro s rest items hread
    obtain ⟨⟨count, s'⟩, hcount, hmany⟩ := bind_eq_some_iff.mp hread
    obtain ⟨hlen, hall⟩ := readMany_forall (fun _ _ _ => h.fits_of_read) hmany
    exact ⟨hlen ▸ (readUint_some hcount).1, hall⟩

/-- A truth value as a byte; every other byte than 0 stands for true. -/
def putBool (b : Bool) : List UInt8 := [if b then 1 else 0]

def readBool : List UInt8 → Option (Bool × List UInt8)
  | [] => none
  | byte :: s => some (byte ≠ 0, s)

lemma readBool_putBool (b : Bool) (rest : List UInt8) :
    readBool (putBool b ++ rest) = some (b, rest) := by
  cases b <;> rfl

/-- A signed number as `width` bytes in two's complement. -/
def putInt (width : Nat) (n : Int) : List UInt8 := putUint width (n % 256 ^ width).toNat

def readInt (width : Nat) (s : List UInt8) : Option (Int × List UInt8) :=
  (readUint width s).map fun r =>
    (if 2 * r.1 < 256 ^ width then (r.1 : Int) else r.1 - 256 ^ width, r.2)

lemma lossless_int (width : Nat) : Lossless (putInt width) (readInt width)
    fun n => -256 ^ width ≤ 2 * n ∧ 2 * n < 256 ^ width where
  read_put := by
    rintro n ⟨hlow, hhigh⟩ rest
    have hcast : ((256 ^ width : Nat) : Int) = 256 ^ width := by push_cast; rfl
    have hmod : n % 256 ^ width = if 0 ≤ n then n else n + 256 ^ width := by
      split
      · exact Int.emod_eq_of_lt (by omega) (by omega)
      · rw [← Int.add_emod_right]
        exact Int.emod_eq_of_lt (by omega) (by omega)
    have hlt : (n % 256 ^ width).toNat < 256 ^ width := by
      rw [hmod]
      split <;> omega
    unfold readInt putInt
    rw [readUint_putUint, Nat.mod_eq_of_lt hlt, map_some]
    rw [hmod] at hlt ⊢
    congr 2
    split <;> split <;> omega
  fits_of_read := by
    intro s rest n hread
    have hcast : ((256 ^ width : Nat) : Int) = 256 ^ width := by push_cast; rfl
    obtain ⟨⟨m, s'⟩, huint, heq⟩ := map_eq_some_iff.mp hread
    have hlt := (readUint_some huint).1
    cases heq
    split <;> omega

end Lossless

end ByteCodec
