import Oba.Ber.Decoder

/-! # What the decoder reads

Whether an element is read depends on its own bytes only. Each function that reads elements is
described by the headers and contents that it takes.
-/

namespace Oba.Ber

open List Decoder

open Storage (Bytes)
open Scanner (bind_of_ok bind_ok here_bind fail_ne_ok pure_ok)

namespace Decoder

variable {d : Decoder}

lemma rest_advance (d : Decoder) (count : Nat) : (d.advance count).rest = d.rest.drop count := by
  unfold rest advance
  rw [drop_drop]

lemma rest_advance_append {used rest : Bytes} (h : d.rest = used ++ rest) :
    (d.advance used.length).rest = rest := by
  rw [rest_advance, h, drop_left]

lemma advance_advance (d : Decoder) (m n : Nat) : (d.advance m).advance n = d.advance (m + n) := by
  unfold advance
  rw [add_assoc]

end Decoder

/-- The bytes are read to a value wherever they stand and whatever follows them. -/
def Takes {α : Type} (p : Decode α) (used : Bytes) (a : α) : Prop :=
  ∀ d rest, d.rest = used ++ rest → p d = (.ok a, d.advance used.length)

/-! ## Tags and lengths -/

variable {bytes header contents : Bytes} {d d' : Decoder} {tag : Tag} {length expectedClass : Nat}
  {accepts : Tag → Bool} {n expectedNumber : Nat} {err : Decoder → Error} {v header' : Bytes}
  {α : Type} {message : String} {p : Decode α} {a : α}

lemma readBase128_ok {result offset offset' : Nat}
    (h : readBase128 bytes result offset = (.ok n, offset')) :
    ∃ used, used <+: bytes ∧ offset' = offset + used.length ∧
      ∀ rest offset, readBase128 (used ++ rest) result offset = (.ok n, offset + used.length) := by
  induction bytes generalizing result offset with
  | nil => cases h
  | cons b bytes ih =>
    rw [readBase128] at h
    split at h
    · cases h
    next hfits =>
      split at h
      next hlast =>
        obtain ⟨hn, rfl⟩ := Prod.mk.inj h
        refine ⟨[b], ⟨bytes, rfl⟩, rfl, fun rest offset => ?_⟩
        rw [singleton_append, readBase128, if_neg hfits]
        rw [if_pos hlast, hn]
        rfl
      next hmore =>
        obtain ⟨used, hstarts, rfl, hused⟩ := ih h
        refine ⟨b :: used, (prefix_cons_inj b).mpr hstarts, ?_, fun rest offset => ?_⟩
        · rw [length_cons]
          omega
        · rw [cons_append, readBase128, if_neg hfits]
          rw [if_neg hmore, hused, length_cons]
          congr 1
          omega

/-- A tag is read from its own bytes. -/
lemma readTag_ok (h : readTag d = (.ok tag, d')) :
    ∃ used, used ≠ [] ∧ used <+: d.rest ∧ d' = d.advance used.length ∧ Takes readTag used tag := by
  unfold readTag at h
  split at h
  · cases h
  next b rest hrest =>
    split at h
    next hlong =>
      split at h
      next number offset hnumber =>
        obtain ⟨htag, rfl⟩ := Prod.mk.inj h
        obtain ⟨used, hstarts, rfl, hused⟩ := readBase128_ok hnumber
        refine ⟨b :: used, cons_ne_nil _ _, hrest ▸ (prefix_cons_inj b).mpr hstarts, ?_,
          fun e rest' he => ?_⟩
        · unfold advance
          rw [length_cons, add_assoc, add_comm 1]
        · unfold readTag
          rw [he]
          dsimp only [cons_append]
          rw [if_pos hlong, hused]
          dsimp only
          rw [htag]
          unfold advance
          rw [length_cons, add_assoc, add_comm 1]
      · cases h
    next hshort =>
      obtain ⟨htag, rfl⟩ := Prod.mk.inj h
      refine ⟨[b], cons_ne_nil _ _, hrest ▸ ⟨rest, rfl⟩, rfl, fun e rest' he => ?_⟩
      unfold readTag
      rw [he]
      dsimp only [cons_append]
      rw [if_neg hshort, htag]
      rfl

lemma lengthLoop_read {read read' : Nat} (h : lengthLoop bytes length read = (some n, read')) :
    read' = read + bytes.length := by
  induction bytes generalizing length read with
  | nil =>
    cases h
    rfl
  | cons b bytes ih =>
    rw [lengthLoop] at h
    split at h
    · cases h
    · rw [ih h, length_cons]
      omega

/-- A length is read from its own bytes. -/
lemma readLength_ok (h : readLength d = (.ok length, d')) :
    ∃ used, used ≠ [] ∧ used <+: d.rest ∧ d' = d.advance used.length ∧
      Takes readLength used length := by
  unfold readLength at h
  split at h
  · cases h
  next b rest hrest =>
    split at h
    next hshort =>
      obtain ⟨hlength, rfl⟩ := Prod.mk.inj h
      refine ⟨[b], cons_ne_nil _ _, hrest ▸ ⟨rest, rfl⟩, rfl, fun e rest' he => ?_⟩
      unfold readLength
      rw [he]
      dsimp only [cons_append]
      rw [if_pos hshort, hlength]
      rfl
    next hlong =>
      dsimp only at h
      split at h
      · cases h
      next hsome =>
        split at h
        · cases h
        next henough =>
          split at h
          next n read hloop =>
            obtain ⟨hlength, rfl⟩ := Prod.mk.inj h
            have hread := lengthLoop_read hloop
            have htake : (rest.take (b.toNat % 128)).length = b.toNat % 128 := by
              rw [length_take]
              omega
            refine ⟨b :: rest.take (b.toNat % 128), cons_ne_nil _ _,
              hrest ▸ (prefix_cons_inj b).mpr ( take_prefix _ _), ?_, fun e rest' he => ?_⟩
            · rw [hread, length_cons, zero_add, add_comm]
            · unfold readLength
              rw [he]
              dsimp only [cons_append]
              rw [if_neg hlong, if_neg hsome, if_neg (by rw [length_append]; omega),
                take_append_of_le_length (by omega), take_of_length_le (by omega), hloop]
              dsimp only
              rw [hlength, hread, length_cons, zero_add, add_comm]
          · cases h

/-! ## Elements -/

/-- A tag and a length. -/
def Header (header : Bytes) (tag : Tag) (length : Nat) : Prop :=
  ∃ first second, header = first ++ second ∧ first ≠ [] ∧ Takes readTag first tag ∧
    Takes readLength second length

lemma Header.ne_nil (h : Header header tag length) : header ≠ [] := by
  obtain ⟨first, second, rfl, hfirst, -⟩ := h
  exact append_ne_nil_of_left_ne_nil hfirst second

/-- A tag and a length are read just if a header stands there. -/
lemma header_ok :
    (∃ u, readTag d = (.ok tag, u) ∧ readLength u = (.ok length, d')) ↔
      ∃ header, Header header tag length ∧ header <+: d.rest ∧ d' = d.advance header.length := by
  constructor
  · rintro ⟨u, htag, hlength⟩
    obtain ⟨first, hne, ⟨more, hmore⟩, rfl, hfirst⟩ := readTag_ok htag
    obtain ⟨second, -, ⟨rest, hrest⟩, rfl, hsecond⟩ := readLength_ok hlength
    rw [rest_advance_append hmore.symm] at hrest
    refine ⟨first ++ second, ⟨first, second, rfl, hne, hfirst, hsecond⟩, ⟨rest, ?_⟩, ?_⟩
    · rw [← hmore, ← hrest, append_assoc]
    · rw [advance_advance, length_append]
  · rintro ⟨header, ⟨first, second, rfl, hne, hfirst, hsecond⟩, ⟨rest, hrest⟩, rfl⟩
    rw [append_assoc] at hrest
    refine ⟨_, hfirst d _ hrest.symm, ?_⟩
    rw [hsecond _ rest (rest_advance_append hrest.symm), advance_advance,
      length_append]

/-- Read over an element with a header and contents of the given lengths. -/
def Decoder.element (d : Decoder) (header length : Nat) : Decoder :=
  (d.advance header).consume d.offset length

/-- The data has the contents that a header declares. -/
lemma enough_iff (hne : header ≠ []) (hstarts : header <+: d.rest) :
    ¬ (d.advance header.length).data.length < (d.advance header.length).offset + length ↔
      ∃ contents : Bytes, contents.length = length ∧ header ++ contents <+: d.rest := by
  obtain ⟨rest, hrest⟩ := hstarts
  have hpos := length_pos_of_ne_nil hne
  have hall := congrArg List.length hrest
  have hdata : (d.advance header.length).data.length = d.data.length := rfl
  have hoffset : (d.advance header.length).offset = d.offset + header.length := rfl
  rw [Decoder.rest, length_append, length_drop] at hall
  constructor
  · intro henough
    refine ⟨rest.take length, ?_, ⟨rest.drop length, ?_⟩⟩
    · rw [length_take]
      omega
    · rw [append_assoc, take_append_drop, hrest]
  · rintro ⟨contents, rfl, ⟨after, hafter⟩⟩
    rw [← hrest, append_assoc] at hafter
    rw [← append_cancel_left hafter, length_append] at hall
    omega

lemma take_of_starts (h : header ++ contents <+: d.rest) :
    (d.advance header.length).rest.take contents.length = contents := by
  obtain ⟨rest, hrest⟩ := h
  rw [append_assoc] at hrest
  rw [rest_advance_append hrest.symm, take_left]

/-- A header is read and the data has its contents just if an element stands there. -/
lemma standing_ok :
    (∃ u, readTag d = (.ok tag, u) ∧ readLength u = (.ok length, d')) ∧
      ¬ d'.data.length < d'.offset + length ↔
      ∃ header contents, Header header tag contents.length ∧ header ++ contents <+: d.rest ∧
        length = contents.length ∧ d' = d.advance header.length := by
  constructor
  · rintro ⟨hread, henough⟩
    obtain ⟨header, hheader, hstarts, rfl⟩ := header_ok.mp hread
    obtain ⟨contents, rfl, hboth⟩ := (enough_iff hheader.ne_nil hstarts).mp henough
    exact ⟨header, contents, hheader, hboth, rfl, rfl⟩
  · rintro ⟨header, contents, hheader, hboth, rfl, rfl⟩
    have hstarts : header <+: d.rest := (prefix_append header contents).trans hboth
    exact ⟨header_ok.mpr ⟨header, hheader, hstarts, rfl⟩,
      (enough_iff hheader.ne_nil hstarts).mpr ⟨contents, rfl, hboth⟩⟩

lemma expectTag_ok {expectedNumber : Int} :
    expectTag accepts expectedClass expectedNumber d = (.ok tag, d') ↔
      readTag d = (.ok tag, d') ∧ accepts tag := by
  unfold expectTag
  rw [bind_of_ok (rfl : Scanner.here d = (.ok d, d)), bind_ok]
  constructor
  · rintro ⟨tag', u, htag, h⟩
    split at h
    next haccepts =>
      obtain ⟨rfl, rfl⟩ := pure_ok.mp h
      exact ⟨htag, haccepts⟩
    · exact absurd h fail_ne_ok
  · rintro ⟨htag, haccepts⟩
    refine ⟨tag, d', htag, ?_⟩
    rw [if_pos haccepts]
    rfl

/-- The scanner reads one element as a whole, of headers and contents of the given kind. -/
def Elementary {α : Type} (p : Decode α) (kind : Bytes → Bytes → α → Prop) : Prop :=
  ∀ d a d', p d = (.ok a, d') ↔ ∃ header contents, kind header contents a ∧
    header ++ contents <+: d.rest ∧ d' = d.element header.length contents.length

/-- An element with a tag that is accepted. -/
def Accepted (accepts : Tag → Bool) (header contents : Bytes) : Prop :=
  ∃ tag, Header header tag contents.length ∧ accepts tag

lemma Accepted.ne_nil (h : Accepted accepts header contents) : header ≠ [] := by
  obtain ⟨tag, hheader, -⟩ := h
  exact hheader.ne_nil

lemma readContents_ok {start : Nat} :
    readContents start length err d = (.ok v, d') ↔ ¬ d.data.length < d.offset + length ∧
      d.rest.take length = v ∧ d.consume start length = d' := by
  unfold readContents
  split
  next hc => simp [hc]
  next hc => simp [hc]

/-- A header and contents are read just if an element stands there. -/
lemma element_ok :
    (∃ u w, readTag d = (.ok tag, u) ∧ readLength u = (.ok length, w) ∧
      readContents d.offset length err w = (.ok v, d')) ↔
      v.length = length ∧ ∃ header, Header header tag v.length ∧ header ++ v <+: d.rest ∧
        d' = d.element header.length v.length := by
  simp only [readContents_ok]
  constructor
  · rintro ⟨u, w, htag, hlength, henough, rfl, rfl⟩
    obtain ⟨header, contents, hheader, hboth, rfl, rfl⟩ :=
      standing_ok.mp ⟨⟨u, htag, hlength⟩, henough⟩
    rw [take_of_starts hboth]
    exact ⟨rfl, header, hheader, hboth, rfl⟩
  · rintro ⟨rfl, header, hheader, hboth, rfl⟩
    obtain ⟨⟨u, htag, hlength⟩, henough⟩ := standing_ok.mpr ⟨header, v, hheader, hboth, rfl, rfl⟩
    exact ⟨u, _, htag, hlength, henough, take_of_starts hboth, rfl⟩

lemma ite_fail_ok {c : Prop} [Decidable c] {err : Error} :
    (if c then Scanner.fail err else p) d = (.ok a, d') ↔ ¬ c ∧ p d = (.ok a, d') := by
  split
  next hc => simp [hc, fail_ne_ok]
  next hc => simp [hc]

/-- A function that reads a tag, a length and the contents, and checks what it has read. -/
lemma elementary_of {kind : Bytes → Bytes → α → Prop} {k : Tag → Nat → Bytes → α → Prop}
    (hread : ∀ d a d', p d = (.ok a, d') ↔ ∃ tag u length w v, readTag d = (.ok tag, u) ∧
      readLength u = (.ok length, w) ∧
        readContents d.offset length (fun _ => .none) w = (.ok v, d') ∧
        k tag length v a) (hkind : ∀ header contents a, kind header contents a ↔
      ∃ tag, Header header tag contents.length ∧ k tag contents.length contents a) :
    Elementary p kind := by
  intro d a d'
  rw [hread]
  constructor
  · rintro ⟨tag, u, length, w, v, htag, hlength, hcontents, hk⟩
    obtain ⟨rfl, header, hheader, hrest⟩ := element_ok.mp ⟨u, w, htag, hlength, hcontents⟩
    exact ⟨header, v, (hkind ..).mpr ⟨tag, hheader, hk⟩, hrest⟩
  · rintro ⟨header, contents, h, hrest⟩
    obtain ⟨tag, hheader, hk⟩ := (hkind ..).mp h
    obtain ⟨u, w, hparts⟩ := element_ok.mpr ⟨rfl, header, hheader, hrest⟩
    exact ⟨tag, u, _, w, contents, hparts.1, hparts.2.1, hparts.2.2, hk⟩

lemma readOctetString_elementary : Elementary readOctetString fun header contents v =>
    Accepted (primitive classUniversal tagOctetString) header contents ∧ v = contents := by
  refine elementary_of (k := fun tag _ contents v =>
    primitive classUniversal tagOctetString tag ∧ v = contents) (fun d v d' => ?_) ?_
  · simp only [readOctetString, here_bind, bind_ok, expectTag_ok, readContents_ok, ite_fail_ok,
      either,
      primitive, decide_eq_true_eq]
    grind
  · simp [Accepted, ← exists_and_right, and_assoc]

lemma readTaggedValue_elementary : Elementary readTaggedValue fun header contents a =>
    ∃ tag, Header header tag contents.length ∧ tag.tagClass = classContextSpecific ∧
      a = (tag.number, decide (tag.constructed = typeConstructed), contents) := by
  refine elementary_of (k := fun tag _ contents a => tag.tagClass = classContextSpecific ∧
    a = (tag.number, decide (tag.constructed = typeConstructed), contents)) (fun d v d' => ?_)
    fun _ _ _ => Iff.rfl
  simp only [readTaggedValue, here_bind, bind_ok, expectTag_ok, readContents_ok, pure_ok,
    decide_eq_true_eq]
  grind

lemma readNumber_elementary (tagNumber : Nat) (name : String) :
    Elementary (readNumber tagNumber name) fun header contents n =>
      Accepted (primitive classUniversal tagNumber) header contents ∧ contents ≠ [] ∧
        contents.length ≤ 8 ∧ n = decodeInteger contents := by
  refine elementary_of (k := fun tag length contents n => primitive classUniversal tagNumber tag ∧
    length ≠ 0 ∧ length ≤ 8 ∧ n = decodeInteger contents) (fun d v d' => ?_) ?_
  · simp only [readNumber, here_bind, bind_ok, expectTag_ok, readContents_ok, ite_fail_ok, pure_ok]
    grind
  · simp [Accepted, ← exists_and_right, and_assoc]

lemma readInteger_elementary : Elementary readInteger fun header contents n =>
    Accepted (primitive classUniversal tagInteger) header contents ∧ contents ≠ [] ∧
      contents.length ≤ 8 ∧ n = decodeInteger contents :=
  readNumber_elementary _ _

lemma readBoolean_elementary : Elementary readBoolean fun header contents b =>
    Accepted (primitive classUniversal tagBoolean) header contents ∧ contents.length = 1 ∧
      b = decide (contents ≠ [0]) := by
  refine elementary_of (k := fun tag length contents b => primitive classUniversal tagBoolean tag ∧
    length = 1 ∧ b = decide (contents ≠ [0])) (fun d v d' => ?_) ?_
  · simp only [readBoolean, here_bind, bind_ok, expectTag_ok, readContents_ok, ite_fail_ok, pure_ok]
    grind
  · simp [Accepted, ← exists_and_right, and_assoc]

/-- A header is read just if it stands there and the data has its contents. -/
lemma readHeader_ok {r : Nat × Nat} :
    readHeader accepts expectedClass expectedNumber message d = (.ok r, d') ↔
      ∃ header contents, Accepted accepts header contents ∧ header ++ contents <+: d.rest ∧
        r = (d.offset, contents.length) ∧ d' = d.advance header.length := by
  simp only [readHeader, here_bind, bind_ok, expectTag_ok, ite_fail_ok, pure_ok]
  constructor
  · rintro ⟨tag, u, ⟨htag, haccepts⟩, length, w, hlength, henough, rfl, rfl⟩
    obtain ⟨header, contents, hheader, hboth, rfl, rfl⟩ :=
      standing_ok.mp ⟨⟨u, htag, hlength⟩, henough⟩
    exact ⟨header, contents, ⟨tag, hheader, haccepts⟩, hboth, rfl, rfl⟩
  · rintro ⟨header, contents, ⟨tag, hheader, haccepts⟩, hboth, rfl, rfl⟩
    obtain ⟨⟨u, htag, hlength⟩, henough⟩ :=
      standing_ok.mpr ⟨header, contents, hheader, hboth, rfl, rfl⟩
    exact ⟨tag, u, ⟨htag, haccepts⟩, _, _, hlength, henough, rfl, rfl⟩

lemma readSequenceContents_elementary : Elementary readSequenceContents fun header contents v =>
    Accepted (constructed classUniversal tagSequence) header contents ∧ v = contents := by
  intro d v d'
  unfold readSequenceContents
  rw [bind_ok]
  constructor
  · rintro ⟨r, u, hheader, h⟩
    obtain ⟨header, contents, haccepted, hboth, rfl, rfl⟩ := readHeader_ok.mp hheader
    obtain ⟨hv, rfl⟩ := Prod.mk.inj h
    refine ⟨header, contents, ⟨haccepted, ?_⟩, hboth, rfl⟩
    exact (Except.ok.inj hv).symm.trans (take_of_starts hboth)
  · rintro ⟨header, contents, ⟨haccepted, rfl⟩, hboth, rfl⟩
    refine ⟨(d.offset, v.length), _, readHeader_ok.mpr ⟨header, v, haccepted, hboth, rfl, rfl⟩, ?_⟩
    dsimp only
    rw [take_of_starts hboth]
    rfl

/-- The decoder walks through an element just if it stands there. -/
lemma expectElement_ok :
    expectElement accepts expectedClass expectedNumber message d = (.ok length, d') ↔
      ∃ header contents, Accepted accepts header contents ∧ header ++ contents <+: d.rest ∧
        length = contents.length ∧ d' = (d.advance header.length).walk d.offset length := by
  unfold expectElement
  rw [bind_ok]
  constructor
  · rintro ⟨r, u, hheader, h⟩
    obtain ⟨header, contents, haccepted, hboth, rfl, rfl⟩ := readHeader_ok.mp hheader
    obtain ⟨hlength, rfl⟩ := Prod.mk.inj h
    cases hlength
    exact ⟨header, contents, haccepted, hboth, rfl, rfl⟩
  · rintro ⟨header, contents, haccepted, hboth, rfl, rfl⟩
    exact ⟨_, _, readHeader_ok.mpr ⟨header, contents, haccepted, hboth, rfl, rfl⟩, rfl⟩

lemma expectSequence_ok :
    expectSequence d = (.ok length, d') ↔ ∃ header contents,
      Accepted (constructed classUniversal tagSequence) header contents ∧
        header ++ contents <+: d.rest ∧ length = contents.length ∧
        d' = (d.advance header.length).walk d.offset length :=
  expectElement_ok

/-! ## Where the decoder is afterwards -/

lemma Decoder.remaining_eq (d : Decoder) : d.remaining = d.rest.length := by
  unfold remaining rest
  rw [length_drop]

lemma Decoder.rest_element {rest : Bytes} (h : header ++ contents ++ rest = d.rest) :
    (d.element header.length contents.length).rest = rest := by
  have hrest : (d.element header.length contents.length).rest =
      (d.advance (header ++ contents).length).rest := by
    unfold element consume Decoder.rest advance
    rw [length_append, add_assoc]
  rw [hrest, rest_advance_append h.symm]

lemma Decoder.remaining_element (h : header ++ contents <+: d.rest) :
    (d.element header.length contents.length).remaining + (header.length + contents.length) =
      d.remaining := by
  obtain ⟨rest, hrest⟩ := h
  rw [remaining_eq, remaining_eq, rest_element hrest, ← hrest, length_append, length_append]
  omega

lemma walk_data (hcut : d.cut = false) (start length : Nat) :
    (d.walk start length).data = d.data := by
  unfold walk
  rw [hcut]
  rfl

lemma walk_advance_data (hcut : d.cut = false) (count start length : Nat) :
    ((d.advance count).walk start length).data = d.data :=
  walk_data (d := d.advance count) hcut start length

lemma walk_advance_rest {more : Bytes} (hcut : d.cut = false) (h : d.rest = header ++ more)
    (start length : Nat) : ((d.advance header.length).walk start length).rest = more := by
  rw [rest, walk_advance_data hcut]
  exact rest_advance_append h

lemma sub_eq (hcut : d.cut = false) (contents : Bytes) :
    d.sub contents = newBERDecoder contents := by
  unfold sub
  rw [hcut]
  rfl

lemma inside_ok {ε : Type} {p : Scanner Decoder ε α} :
    inside contents p d = (.ok a, d') ↔
      ∃ part, p (d.sub contents) = (.ok a, part) ∧ d' = d.absorb part := by
  unfold inside
  cases hp : p (d.sub contents) with | mk result part =>
  constructor
  · intro h
    cases h
    exact ⟨part, rfl, rfl⟩
  · rintro ⟨part', h, rfl⟩
    cases h
    rfl

lemma readTag_header (h : Header header tag length) (hstarts : header <+: d.rest) :
    (readTag d).1 = .ok tag := by
  obtain ⟨u, htag, -⟩ := header_ok.mpr ⟨header, h, hstarts, rfl⟩
  rw [htag]

/-- Where a header stands, no other one does. -/
lemma Header.unique {tag' : Tag} {length' : Nat} (h : Header header tag length)
    (h' : Header header' tag' length') (hstarts : header <+: bytes) (hstarts' : header' <+: bytes) :
    header = header' ∧ tag = tag' ∧ length = length' := by
  have hrest : (newBERDecoder bytes).rest = bytes := rfl
  obtain ⟨u, htag, hlength⟩ := header_ok.mpr ⟨header, h, hrest.symm ▸ hstarts, rfl⟩
  obtain ⟨u', htag', hlength'⟩ := header_ok.mpr ⟨header', h', hrest.symm ▸ hstarts', rfl⟩
  obtain ⟨htags, rfl⟩ := Prod.mk.inj (htag.symm.trans htag')
  obtain ⟨hlengths, hdecoder⟩ := Prod.mk.inj (hlength.symm.trans hlength')
  have hsame : header.length = header'.length := by
    have := congrArg offset hdecoder
    unfold advance at this
    dsimp only at this
    omega
  refine ⟨?_, Except.ok.inj htags, Except.ok.inj hlengths⟩
  rw [prefix_iff_eq_take.mp hstarts, prefix_iff_eq_take.mp hstarts', hsame]

/-- Where an element stands, no other one does. -/
lemma Accepted.unique {accepts' : Tag → Bool} {contents' : Bytes}
    (h : Accepted accepts header contents) (h' : Accepted accepts' header' contents')
    (hstarts : header ++ contents <+: bytes) (hstarts' : header' ++ contents' <+: bytes) :
    header = header' ∧ contents = contents' := by
  obtain ⟨tag, hheader, -⟩ := h
  obtain ⟨tag', hheader', -⟩ := h'
  obtain ⟨rfl, -, hlength⟩ := hheader.unique hheader'
    ((prefix_append _ _).trans hstarts) ((prefix_append _ _).trans hstarts')
  have hboth : header ++ contents = header ++ contents' := by
    rw [prefix_iff_eq_take.mp hstarts, prefix_iff_eq_take.mp hstarts',
      length_append, length_append, hlength]
  exact ⟨rfl, append_cancel_left hboth⟩

lemma nextIs_header (h : Header header tag length) (hstarts : header <+: d.rest)
    (tagClass number : Nat) :
    nextIs tagClass number d = decide (tag.tagClass = tagClass ∧ tag.number = number) := by
  unfold nextIs peekTag
  rw [readTag_header h hstarts]

lemma Header.remaining_pos (h : Header header tag length) (hstarts : header <+: d.rest) :
    0 < d.remaining := by
  rw [remaining_eq]
  exact (length_pos_of_ne_nil h.ne_nil).trans_le hstarts.length_le

end Oba.Ber
