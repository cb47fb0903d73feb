import Oba.Ber.Strict

/-! # What a scanner leaves when it fails

A scanner that fails has read elements before, and its decoder keeps them.
-/

namespace Oba.Ber

open Storage (Bytes)

variable {ε ε' α β : Type} {p : Scanner Decoder ε α} {f : α → Scanner Decoder ε β}

/-! ## Scanners without elements -/

/-- The scanner changes the offset only, whether it fails or not. -/
def Silent (p : Scanner Decoder ε α) : Prop := ∀ d, ∃ offset, (p d).2 = { d with offset }

lemma Silent.bind (hp : Silent p) (hf : ∀ a, Silent (f a)) : Silent (p >>= f) := by
  intro d
  obtain ⟨offset, hoffset⟩ := hp d
  rw [Scanner.bind_eq]
  cases h : p d with | mk result u =>
  rw [h] at hoffset
  obtain rfl : u = { d with offset } := hoffset
  cases result with
  | ok a => exact hf a _
  | error err => exact ⟨offset, rfl⟩

lemma silent_here : Silent (Scanner.here : Scanner Decoder ε Decoder) := fun d => ⟨d.offset, rfl⟩

lemma silent_pure (a : α) : Silent (pure a : Scanner Decoder ε α) := fun d => ⟨d.offset, rfl⟩

lemma silent_fail (err : ε) : Silent (Scanner.fail err : Scanner Decoder ε α) :=
  fun d => ⟨d.offset, rfl⟩

lemma silent_readTag : Silent readTag := by
  intro d
  unfold readTag
  split
  · exact ⟨d.offset, rfl⟩
  · split
    · split
      · exact ⟨_, rfl⟩
      · exact ⟨_, rfl⟩
    · exact ⟨_, rfl⟩

lemma silent_readLength : Silent readLength := by
  intro d
  unfold readLength
  split
  · exact ⟨d.offset, rfl⟩
  · split
    · exact ⟨_, rfl⟩
    · dsimp only
      split
      · exact ⟨_, rfl⟩
      · split
        · exact ⟨_, rfl⟩
        · split
          · exact ⟨_, rfl⟩
          · exact ⟨_, rfl⟩

lemma silent_expectTag (accepts : Tag → Bool) (expectedClass : Nat) (expectedNumber : Int) :
    Silent (expectTag accepts expectedClass expectedNumber) := by
  refine silent_here.bind fun start => silent_readTag.bind fun tag => ?_
  split
  · exact silent_pure _
  · exact silent_fail _

lemma silent_readHeader (accepts : Tag → Bool) (expectedClass expectedNumber : Nat)
    (message : String) : Silent (readHeader accepts expectedClass expectedNumber message) := by
  refine silent_here.bind fun start => (silent_expectTag _ _ _).bind fun _ =>
    silent_readLength.bind fun length => silent_here.bind fun d => ?_
  split
  · exact silent_fail _
  · exact silent_pure _

/-- A SEQUENCE that is not read is not in the history. -/
lemma readSequenceContents_error {d u : Decoder} {err : Error}
    (h : readSequenceContents d = (.error err, u)) : ∃ offset, u = { d with offset } := by
  unfold readSequenceContents at h
  rw [Scanner.bind_eq] at h
  obtain ⟨offset, hoffset⟩ := silent_readHeader (constructed classUniversal tagSequence)
    classUniversal tagSequence "truncated sequence content" d
  cases hheader : readHeader (constructed classUniversal tagSequence) classUniversal tagSequence
    "truncated sequence content" d with | mk result v =>
  rw [hheader] at h hoffset
  cases result with
  | ok r => cases h
  | error cause =>
    cases h
    exact ⟨offset, hoffset⟩

/-! ## Decoders of parts -/

/-- A decoder whose data is all of the element it is in, and that has stayed inside. -/
structure Decoder.Snug (d : Decoder) : Prop where
  bound : d.bound = d.data.length
  inside : d.Inside

lemma snug_new (contents : Bytes) : (newBERDecoder contents).Snug := ⟨rfl, inside_new contents⟩

/-- The scanner stays inside, whether it fails or not. -/
def StaysSnug (p : Scanner Decoder ε α) : Prop := ∀ d : Decoder, d.Snug → (p d).2.Snug

lemma Silent.staysSnug (h : Silent p) : StaysSnug p := by
  intro d hd
  obtain ⟨offset, hoffset⟩ := h d
  rw [hoffset]
  exact ⟨hd.bound, hd.inside⟩

lemma StaysSnug.bind (hp : StaysSnug p) (hf : ∀ a, StaysSnug (f a)) : StaysSnug (p >>= f) := by
  intro d hd
  have hu := hp d hd
  rw [Scanner.bind_eq]
  cases h : p d with | mk result u =>
  rw [h] at hu
  cases result with
  | ok a => exact hf a u hu
  | error err => exact hu

lemma StaysSnug.mapError (hp : StaysSnug p) (f : Decoder → ε → ε') :
    StaysSnug (Scanner.mapError f p) := by
  intro d hd
  have hu := hp d hd
  unfold Scanner.mapError
  cases h : p d with | mk result u =>
  rw [h] at hu
  cases result with
  | ok | error => exact hu

lemma staysSnug_readContents (start length : Nat) (err : Decoder → Error) :
    StaysSnug (readContents start length err) := by
  intro d hd
  unfold readContents
  split
  · exact hd
  next henough =>
    refine ⟨hd.bound, inside_consume.mpr ⟨hd.inside, ?_⟩⟩
    have := hd.bound
    omega

lemma staysSnug_readOctetString : StaysSnug readOctetString := by
  refine silent_here.staysSnug.bind fun start =>
    (silent_expectTag _ _ _).staysSnug.bind fun tag => ?_
  split
  · exact (silent_fail _).staysSnug
  · exact silent_readLength.staysSnug.bind fun length => staysSnug_readContents _ _ _

lemma staysSnug_readBoolean : StaysSnug readBoolean := by
  refine silent_here.staysSnug.bind fun start => (silent_expectTag _ _ _).staysSnug.bind fun tag =>
    silent_readLength.staysSnug.bind fun length => ?_
  split
  · exact (silent_fail _).staysSnug
  · exact (staysSnug_readContents _ _ _).bind fun _ => (silent_pure _).staysSnug

end Oba.Ber
