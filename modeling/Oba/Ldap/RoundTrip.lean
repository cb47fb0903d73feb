import Oba.Ber.Written
import Oba.Ldap.Controls

/-! # Messages are read back

The encoder writes the elements of a message one after the other, and the parser finds them again.
-/

namespace Oba.Ldap

open Ber List Decoder
open Storage (Bytes)

/-! ## What is written -/

/-- What the SEQUENCE of a control holds. -/
def Control.contents (ctrl : Control) : Bytes :=
  elementOctets classUniversal typePrimitive tagOctetString ctrl.oid ++
    (if ctrl.criticality then elementOctets classUniversal typePrimitive tagBoolean [0xFF]
      else []) ++
    (if 0 < ctrl.value.length then
      elementOctets classUniversal typePrimitive tagOctetString ctrl.value else [])

def Control.octets (ctrl : Control) : Bytes :=
  elementOctets classUniversal typeConstructed tagSequence ctrl.contents

/-- The field of the controls, which is left out if there are none. -/
def controlsOctets (controls : List Control) : Bytes :=
  if 0 < controls.length then
    elementOctets classContextSpecific typeConstructed contextTagControls
      (elementOctets classUniversal typeConstructed tagSequence (controls.flatMap Control.octets))
  else []

def RawOperation.octets (operation : RawOperation) : Bytes :=
  elementOctets classApplication
    (if isConstructedOperation operation.tag then typeConstructed else typePrimitive) operation.tag
    operation.data

/-- The contents of the outer SEQUENCE of a message. -/
def messageContents (messageID : Int) (operation : RawOperation) (controls : List Control) :
    Bytes :=
  elementOctets classUniversal typePrimitive tagInteger (encodeInteger messageID) ++
    operation.octets ++ controlsOctets controls

lemma length_le_elementOctets (tagClass constructed : Nat) (num : Int) (contents : Bytes) :
    contents.length ≤ (elementOctets tagClass constructed num contents).length := by
  unfold elementOctets
  rw [length_append]
  omega

variable {ctrl : Control} {controls : List Control} {messageID : Int} {operation : RawOperation}
  {d : Decoder} {contents rest value : Bytes} {α : Type} {number : Nat} {p : Decode α}

/-- The parts of a control are not longer than the control. -/
lemma Control.lengths {n : Nat} (h : ctrl.contents.length < n) :
    ctrl.oid.length < n ∧ ctrl.value.length < n := by
  have hoid := length_le_elementOctets classUniversal typePrimitive tagOctetString ctrl.oid
  have hvalue := length_le_elementOctets classUniversal typePrimitive tagOctetString ctrl.value
  unfold Control.contents at h
  simp only [length_append] at h
  split at h
  · split at h
    · omega
    · omega
  · split at h
    · omega
    · omega

lemma writeIf_eq {present : Bool} {write : Bytes → Except EncodeError Bytes} {octets : Bytes}
    (h : present = true → ∀ buf, write buf = .ok (buf ++ octets)) (buf : Bytes) :
    writeIf present write buf = .ok (buf ++ if present then octets else []) := by
  unfold writeIf
  split
  next hpresent => rw [h hpresent]
  · rw [append_nil]

/-- The steps that write a control write its octets. -/
lemma encodeControl_eq (h : ctrl.octets.length < 2 ^ 32) (buf : Bytes) :
    encodeControl ctrl buf = .ok (buf ++ ctrl.octets) := by
  obtain ⟨hoid, hvalue⟩ := Control.lengths ((length_le_elementOctets _ _ _ _).trans_lt h)
  unfold encodeControl
  rw [beginSequence_eq]
  generalize hreserve : reserve _ = r
  dsimp only [bind, Except.bind]
  rw [writeOctetString_eq hoid]
  dsimp only
  rw [writeIf_eq fun _ => writeBoolean_eq true]
  dsimp only
  rw [writeIf_eq fun _ => writeOctetString_eq hvalue]
  rw [← hreserve, append_assoc, append_assoc, ← append_assoc (elementOctets _ _ _ _)]
  refine (fixupLength_reserve buf _ _ _ _).trans ?_
  unfold Control.octets Control.contents
  simp only [decide_eq_true_eq, if_true]

lemma encodeAll_eq (h : (controls.flatMap Control.octets).length < 2 ^ 32) (buf : Bytes) :
    controls.foldlM (fun buf ctrl => encodeControl ctrl buf) buf =
      .ok (buf ++ controls.flatMap Control.octets) := by
  induction controls generalizing buf with
  | nil => simp [pure, Except.pure]
  | cons ctrl controls ih =>
    rw [flatMap_cons, length_append] at h
    rw [foldlM_cons, encodeControl_eq (by omega)]
    dsimp only [bind, Except.bind]
    rw [ih (by omega), flatMap_cons, append_assoc]

lemma encodeControls_eq (hsome : 0 < controls.length)
    (h : (controlsOctets controls).length < 2 ^ 32) (buf : Bytes) :
    encodeControls controls buf = .ok (buf ++ controlsOctets controls) := by
  unfold controlsOctets at h ⊢
  rw [if_pos hsome] at h ⊢
  have hinner := (length_le_elementOctets _ _ _ _).trans_lt
    ((length_le_elementOctets _ _ _ _).trans_lt h)
  unfold encodeControls
  rw [writeContextTag]
  generalize hctx : reserve _ = ctx
  dsimp only [bind, Except.bind]
  rw [beginSequence_eq]
  generalize hseq : reserve (writeTagBytes classUniversal typeConstructed tagSequence ctx.2) = seq
  rw [encodeAll_eq hinner]
  dsimp only
  rw [← hseq, fixupLength_reserve]
  rw [← hctx]
  exact fixupLength_reserve buf _ _ _ _

lemma encodeBody_eq (hid : minMessageID ≤ messageID ∧ messageID ≤ maxMessageID)
    (h : (messageContents messageID operation controls).length < 2 ^ 32) :
    encodeBody messageID operation controls =
      .ok (elementOctets classUniversal typeConstructed tagSequence
        (messageContents messageID operation controls)) := by
  have hnumber : (encodeInteger messageID).length < 2 ^ 32 :=
    ((encodeInteger_spec hid.1 (hid.2.trans_lt (by decide))).2.2).trans_lt (by decide)
  unfold messageContents at h
  simp only [length_append] at h
  unfold encodeBody
  rw [beginSequence_eq]
  generalize hseq : reserve (writeTagBytes classUniversal typeConstructed tagSequence []) = seq
  dsimp only [bind, Except.bind]
  rw [writeInteger_eq hnumber]
  dsimp only
  rw [writeApplicationTag, fixupLength_reserve]
  dsimp only
  rw [writeIf_eq fun hsome =>
    encodeControls_eq (of_decide_eq_true hsome) (by omega)]
  rw [← hseq, append_assoc, append_assoc, ← append_assoc (elementOctets _ _ _ _)]
  have hall : (if decide (0 < controls.length) = true then controlsOctets controls else []) =
      controlsOctets controls := by
    cases controls with
    | nil | cons => rfl
  rw [hall]
  exact fixupLength_reserve [] _ _ _ _

/-! ## What is read -/

lemma accepted_octets {accepts : Tag → Bool} {tagClass constructed : Nat} {num : Int}
    (htag : ReadableTag tagClass constructed num) (hlength : contents.length < 2 ^ 32)
    (haccepts : accepts ⟨tagClass, constructed, num.toNat⟩) :
    Accepted accepts (headerOctets tagClass constructed num contents.length) contents :=
  ⟨_, header_headerOctets htag hlength, haccepts⟩

lemma optionalField_present (message : String) (absent : α) {a : α}
    {kind : Bytes → Bytes → α → Prop} {header : Bytes} {tag : Tag} (hp : Elementary p kind)
    (hkind : kind header contents a) (hheader : Header header tag contents.length)
    (hclass : tag.tagClass = classUniversal) (hnumber : tag.number = number)
    (hrest : header ++ contents ++ rest = d.rest) :
    ∃ d', optionalField number message p absent d = (.ok a, d') ∧ d'.rest = rest := by
  have hfirst : header <+: d.rest := ⟨contents ++ rest, by rw [← append_assoc, hrest]⟩
  have hnext : nextIs classUniversal number d = true := by
    rw [nextIs_header hheader hfirst, decide_eq_true_eq]
    exact ⟨hclass, hnumber⟩
  refine ⟨_, ?_, rest_element hrest⟩
  unfold optionalField
  rw [Scanner.here_bind, if_pos ⟨hheader.remaining_pos hfirst, hnext⟩]
  exact saying_ok.mpr ((hp d a _).mpr ⟨header, contents, hkind, ⟨rest, hrest⟩, rfl⟩)

lemma optionalField_absent {message : String} {absent : α}
    (h : ¬ (0 < d.remaining ∧ nextIs classUniversal number d = true)) :
    optionalField number message p absent d = (.ok absent, d) := by
  unfold optionalField
  rw [Scanner.here_bind, if_neg h]
  rfl

lemma not_next_of_nil (h : d.rest = []) :
    ¬ (0 < d.remaining ∧ nextIs classUniversal number d = true) := by
  rw [remaining_eq, h]
  simp

/-- The OCTET STRING of a value, as the last field of a control. -/
lemma optionalValue_octets (message : String) (hlength : value.length < 2 ^ 32)
    (hrest : d.rest = if 0 < value.length then
      elementOctets classUniversal typePrimitive tagOctetString value else []) :
    ∃ d', optionalField tagOctetString message readOctetString [] d = (.ok value, d') := by
  split at hrest
  · obtain ⟨d', h, -⟩ := optionalField_present message [] readOctetString_elementary
      ⟨accepted_octets (by decide) hlength (by decide), rfl⟩
      (header_headerOctets (by decide) hlength) rfl rfl
      ((append_nil _).trans hrest.symm)
    exact ⟨d', h⟩
  next hempty =>
    obtain rfl : value = [] := length_eq_zero_iff.mp (by omega)
    exact ⟨d, optionalField_absent (not_next_of_nil hrest)⟩

/-- The BOOLEAN of a control, which may be followed by its value. -/
lemma optionalCriticality_octets (message : String) {criticality : Bool}
    (hlength : value.length < 2 ^ 32)
    (hrest : d.rest =
      (if criticality then elementOctets classUniversal typePrimitive tagBoolean [0xFF] else []) ++
        if 0 < value.length then elementOctets classUniversal typePrimitive tagOctetString value
        else []) :
    ∃ d', optionalField tagBoolean message readBoolean false d = (.ok criticality, d') ∧
      d'.rest = if 0 < value.length then
        elementOctets classUniversal typePrimitive tagOctetString value else [] := by
  cases criticality with
  | true =>
    exact optionalField_present message false readBoolean_elementary
      ⟨accepted_octets (by decide) (by decide) (by decide),
        rfl, by decide⟩
      (header_headerOctets (by decide) (by decide)) rfl rfl
      hrest.symm
  | false =>
    rw [if_neg Bool.false_ne_true] at hrest
    refine ⟨d, optionalField_absent ?_, hrest⟩
    split at hrest
    · have hheader : Header (headerOctets classUniversal typePrimitive tagOctetString value.length)
          ⟨classUniversal, typePrimitive, tagOctetString⟩ value.length :=
        header_headerOctets (by decide) hlength
      rintro ⟨-, hnext⟩
      rw [nextIs_header hheader ⟨value, hrest.symm⟩] at hnext
      exact absurd hnext (by decide)
    · exact not_next_of_nil hrest

lemma controlFields_octets (hrest : d.rest = ctrl.contents) (h : ctrl.contents.length < 2 ^ 32) :
    ∃ d', controlFields d = (.ok ctrl, d') := by
  obtain ⟨hoid, hvalue⟩ := Control.lengths h
  unfold Control.contents at hrest
  rw [append_assoc] at hrest
  obtain ⟨d₁, hcriticality, hrest₁⟩ := optionalCriticality_octets
    "failed to read control criticality" hvalue (rest_element hrest.symm)
  obtain ⟨d₂, hread⟩ := optionalValue_octets "failed to read control value" hvalue hrest₁
  refine ⟨d₂, ?_⟩
  unfold controlFields
  rw [Scanner.bind_of_ok (saying_ok.mpr ((readOctetString_elementary d ctrl.oid _).mpr
    ⟨_, ctrl.oid, ⟨accepted_octets (by decide) hoid
      (by decide), rfl⟩, ⟨_, hrest.symm⟩, rfl⟩)), Scanner.bind_of_ok hcriticality,
    Scanner.bind_of_ok hread]
  rfl

/-- A control is read back, and the decoder is behind it. -/
lemma parseControl_octets (hrest : d.rest = ctrl.octets ++ rest)
    (h : ctrl.octets.length < 2 ^ 32) :
    ∃ d', parseControl d = (.ok ctrl, d') ∧ d'.rest = rest ∧ d'.data = d.data := by
  have hcontents : ctrl.contents.length < 2 ^ 32 := (length_le_elementOctets _ _ _ _).trans_lt h
  have hsub : (d.sub ctrl.contents).rest = ctrl.contents := rfl
  obtain ⟨part, hpart⟩ := controlFields_octets hsub hcontents
  refine ⟨_, parseControl_ok.mpr ⟨_, ctrl.contents, part,
    accepted_octets (by decide) hcontents (by decide), ⟨rest, hrest.symm⟩, hpart, rfl⟩,
    rest_element hrest.symm, rfl⟩

lemma elementOctets_ne_nil (tagClass constructed : Nat) (num : Int) (contents : Bytes) :
    elementOctets tagClass constructed num contents ≠ [] := by
  unfold elementOctets headerOctets
  simp [tagOctets_ne_nil]

lemma Control.octets_ne_nil (ctrl : Control) : ctrl.octets ≠ [] :=
  elementOctets_ne_nil _ _ _ _

section

variable (hrest : d.rest = controls.flatMap Control.octets)
  (h : (controls.flatMap Control.octets).length < 2 ^ 32)
include hrest h

/-- The loop over a SEQUENCE of controls reads all of them. -/
lemma runs_octets : ∃ d', Scanner.Runs (before d.data.length) parseControl d controls d' := by
  have hremaining := d.remaining_eq
  induction controls generalizing d with
  | nil =>
    refine ⟨d, .stop ?_⟩
    rw [hrest] at hremaining
    simp [before, hremaining]
  | cons ctrl controls ih =>
    rw [flatMap_cons] at hrest
    rw [flatMap_cons, length_append] at h
    obtain ⟨u, hctrl, hu, hdata⟩ := parseControl_octets hrest (by omega)
    obtain ⟨d', hruns⟩ := ih hu (by omega) u.remaining_eq
    rw [hdata] at hruns
    refine ⟨d', .step ?_ hctrl hruns⟩
    have hpos := length_pos_of_ne_nil ctrl.octets_ne_nil
    rw [hrest, length_append] at hremaining
    have hoffset : d.remaining = d.data.length - d.offset := rfl
    simp only [before, decide_eq_true_eq]
    omega

/-- The first element of a SEQUENCE of controls is not an OCTET STRING. -/
lemma not_octetString_first :
    ¬ (0 < d.remaining ∧ nextIs classUniversal tagOctetString d = true) := by
  cases controls with
  | nil => exact not_next_of_nil hrest
  | cons ctrl controls =>
    rw [flatMap_cons, length_append] at h
    have hlength : ctrl.contents.length < 2 ^ 32 :=
      (length_le_elementOctets _ _ _ _).trans_lt (show ctrl.octets.length < 2 ^ 32 by omega)
    have hheader : Header
        (headerOctets classUniversal typeConstructed tagSequence ctrl.contents.length)
        ⟨classUniversal, typeConstructed, tagSequence⟩ ctrl.contents.length :=
      header_headerOctets (by decide) hlength
    rw [flatMap_cons, Control.octets, elementOctets, append_assoc] at hrest
    rintro ⟨-, hnext⟩
    rw [nextIs_header hheader ⟨_, hrest.symm⟩] at hnext
    exact absurd hnext (by decide)

end

lemma parseControls_octets (hsome : 0 < controls.length)
    (h : (controlsOctets controls).length < 2 ^ 32) :
    ∃ d', parseControls (newBERDecoder (controlsOctets controls)) = (.ok controls, d') := by
  unfold controlsOctets at h ⊢
  rw [if_pos hsome] at h ⊢
  have hpos : 0 < (controls.flatMap Control.octets).length := by
    obtain ⟨ctrl, more, rfl⟩ := exists_cons_of_length_pos hsome
    have := length_pos_of_ne_nil ctrl.octets_ne_nil
    rw [flatMap_cons, length_append]
    omega
  have hfield := (length_le_elementOctets _ _ _ _).trans_lt h
  have hall := (length_le_elementOctets _ _ _ _).trans_lt hfield
  generalize hd : newBERDecoder (elementOctets classContextSpecific _ _ _) = d
  have hcut : d.cut = false := hd ▸ rfl
  have hrest : d.rest = elementOctets classContextSpecific typeConstructed contextTagControls
      (elementOctets classUniversal typeConstructed tagSequence
        (controls.flatMap Control.octets)) := hd ▸ rfl
  have hw := walk_advance_rest hcut hrest d.offset (elementOctets classUniversal typeConstructed
    tagSequence (controls.flatMap Control.octets)).length
  generalize hwalk : walk _ _ _ = w at hw
  have hwcut : w.cut = false := hwalk ▸ hcut
  have hu := walk_advance_rest hwcut hw w.offset (controls.flatMap Control.octets).length
  generalize huwalk : walk _ _ _ = u at hu
  have hdata : u.offset + (controls.flatMap Control.octets).length = u.data.length := by
    have := u.remaining_eq
    rw [hu, remaining] at this
    omega
  have hcontrols : Accepted isControls
      (headerOctets classContextSpecific typeConstructed contextTagControls _) _ :=
    accepted_octets (by decide) hfield (by decide)
  have hsequence : Accepted isSequence
      (headerOctets classUniversal typeConstructed tagSequence _) _ :=
    accepted_octets (by decide) hall (by decide)
  obtain ⟨d', hruns⟩ := runs_octets hu hall
  refine ⟨d', (parseControls_ok hcut).mpr ⟨_, _, hcontrols,
    ⟨[], by rw [append_nil, hrest]; rfl⟩, Or.inr ⟨elementOctets_ne_nil _ _ _ _, ?_⟩⟩⟩
  rw [hwalk]
  refine .wrapped hsequence ⟨[], by rw [append_nil, hw]; rfl⟩ huwalk.symm
    (not_octetString_first hu hall) ?_
  rw [hdata]
  exact hruns

/-! ## The round trip -/

lemma remainingData_full (data : Bytes) (offset : Nat) :
    remainingData data offset data.length = data.drop offset := by
  unfold remainingData
  split
  · rw [take_length]
  next h => rw [drop_of_length_le (by omega)]

/-- The number and the operation are read back, and the controls are left. -/
lemma readEnvelope_octets (hcut : d.cut = false)
    (hrest : d.rest = elementOctets classUniversal typeConstructed tagSequence
      (messageContents messageID operation controls))
    (hid : minMessageID ≤ messageID ∧ messageID ≤ maxMessageID)
    (htag : 0 ≤ operation.tag ∧ operation.tag ≤ 2 ^ 31 + 127)
    (h : (messageContents messageID operation controls).length < 2 ^ 32) :
    ∃ d', readEnvelope d =
      (.ok (⟨messageID, some operation, []⟩, d.data.length), d') ∧ d'.data = d.data ∧
      d'.rest = controlsOctets controls := by
  obtain ⟨hvalue, hne, height⟩ := encodeInteger_spec hid.1 (hid.2.trans_lt (by decide))
  have hlengths := h
  unfold messageContents at hlengths
  simp only [length_append] at hlengths
  have hdata : operation.data.length ≤ operation.octets.length := length_le_elementOctets _ _ _ _
  have hw := walk_advance_rest hcut hrest d.offset (messageContents messageID operation
    controls).length
  have hstop : d.offset + (headerOctets classUniversal typeConstructed tagSequence
      (messageContents messageID operation controls).length).length +
      (messageContents messageID operation controls).length = d.data.length := by
    have hall := congrArg length hrest
    have hpos := length_pos_of_ne_nil (elementOctets_ne_nil classUniversal typeConstructed
      tagSequence (messageContents messageID operation controls))
    unfold elementOctets at hall hpos
    rw [rest, length_drop, length_append] at hall
    rw [length_append] at hpos
    omega
  have hparts : headerOctets classUniversal typePrimitive tagInteger
      (encodeInteger messageID).length ++ encodeInteger messageID ++
      (operation.octets ++ controlsOctets controls) =
      messageContents messageID operation controls := by
    simp only [messageContents, elementOctets, append_assoc]
  have hv := rest_element (hparts.trans hw.symm)
  have hsequence : Accepted isSequence
      (headerOctets classUniversal typeConstructed tagSequence _) _ :=
    accepted_octets (by decide) h (by decide)
  have hinteger : Accepted (primitive classUniversal tagInteger)
      (headerOctets classUniversal typePrimitive tagInteger _) (encodeInteger messageID) :=
    accepted_octets (by decide) (by omega) (by decide)
  have hdataLength : operation.data.length < 2 ^ 32 := by omega
  have hheader := header_headerOctets (show ReadableTag classApplication
    (if isConstructedOperation operation.tag then typeConstructed else typePrimitive) operation.tag
    from ⟨by decide, by split <;> decide, htag⟩) hdataLength
  refine ⟨_, readEnvelope_ok.mpr ⟨_, _, hsequence, ⟨[], by rw [append_nil, hrest]; rfl⟩, _, _,
    ⟨hinteger, hne, height, hvalue.symm ▸ hid⟩, ⟨_, hparts.trans hw.symm⟩,
    _, operation.data, _, hheader, rfl, ⟨controlsOctets controls, hv.symm⟩, ?_, rfl⟩,
    walk_advance_data hcut _ d.offset _, rest_element hv.symm⟩
  have hoperation : RawOperation.mk (operation.tag.toNat : Int) operation.data = operation := by
    rw [Int.toNat_of_nonneg htag.1]
  rw [hvalue, hoperation, ← hstop]
  rfl

/-- The parser sees the field of the controls. -/
lemma controlsOctets_next (hsome : 0 < controls.length)
    (h : (controlsOctets controls).length < 2 ^ 32) :
    0 < (newBERDecoder (controlsOctets controls)).remaining ∧
      isContextTag contextTagControls (newBERDecoder (controlsOctets controls)) = true := by
  unfold controlsOctets at h ⊢
  rw [if_pos hsome] at h ⊢
  generalize hfield : elementOctets classUniversal typeConstructed tagSequence _ = field at h ⊢
  have hheader : Header
      (headerOctets classContextSpecific typeConstructed contextTagControls field.length)
      ⟨classContextSpecific, typeConstructed, contextTagControls⟩ field.length :=
    header_headerOctets (by decide)
      ((length_le_elementOctets _ _ _ _).trans_lt h)
  constructor
  · exact length_pos_of_ne_nil (elementOctets_ne_nil _ _ _ _)
  · unfold isContextTag
    rw [nextIs_header hheader ⟨field, rfl⟩]
    decide

/-- The message is read back from the octets of its contents. -/
lemma parse_octets (hid : minMessageID ≤ messageID ∧ messageID ≤ maxMessageID)
    (htag : 0 ≤ operation.tag ∧ operation.tag ≤ 2 ^ 31 + 127)
    (h : (messageContents messageID operation controls).length < 2 ^ 32) :
    parseLDAPMessage (elementOctets classUniversal typeConstructed tagSequence
      (messageContents messageID operation controls)) =
      .ok ⟨messageID, some operation, controls⟩ := by
  have hcontrols : (controlsOctets controls).length < 2 ^ 32 := by
    unfold messageContents at h
    rw [length_append] at h
    omega
  generalize hdata : elementOctets classUniversal typeConstructed tagSequence
    (messageContents messageID operation controls) = data
  obtain ⟨decoder, henvelope, hsame, hrest⟩ :=
    readEnvelope_octets (d := newBERDecoder data) rfl hdata.symm hid htag h
  have hremaining : remainingData data decoder.offset (newBERDecoder data).data.length =
      controlsOctets controls := by
    rw [← hrest, rest, hsame]
    exact remainingData_full data decoder.offset
  have hparsed : ∃ p, parseDecoders data = .ok p ∧
      p.message = ⟨messageID, some operation, controls⟩ := by
    by_cases hsome : 0 < controls.length
    · obtain ⟨controlsDecoder, hparse⟩ := parseControls_octets hsome hcontrols
      refine ⟨⟨⟨messageID, some operation, controls⟩, decoder, controlsDecoder⟩,
        parseDecoders_ok.mpr ⟨_, _, henvelope, ?_⟩, rfl⟩
      rw [hremaining, if_pos (controlsOctets_next hsome hcontrols)]
      exact ⟨hparse, rfl⟩
    · obtain rfl : controls = [] := length_eq_zero_iff.mp (by omega)
      refine ⟨⟨⟨messageID, some operation, []⟩, decoder, newBERDecoder []⟩,
        parseDecoders_ok.mpr ⟨_, _, henvelope, ?_⟩, rfl⟩
      rw [hremaining]
      exact ⟨rfl, rfl⟩
  obtain ⟨p, hp, hmessage⟩ := hparsed
  unfold parseLDAPMessage
  rw [hp, ← hmessage]
  rfl

/-- A message with an operation tag that the decoder takes is read back from its encoding. -/
theorem parse_encode (m : LDAPMessage) (operation : RawOperation)
    (hoperation : m.operation = some operation)
    (hid : minMessageID ≤ m.messageID ∧ m.messageID ≤ maxMessageID)
    (htag : 0 ≤ operation.tag ∧ operation.tag ≤ 2147483775)
    (hlength : (messageContents m.messageID operation m.controls).length < 2 ^ 32) :
    m.encode = .ok (elementOctets classUniversal typeConstructed tagSequence
        (messageContents m.messageID operation m.controls)) ∧
      ∃ bytes, m.encode = .ok bytes ∧ parseLDAPMessage bytes = .ok m := by
  obtain ⟨messageID, operation', controls⟩ := m
  obtain rfl : operation' = some operation := hoperation
  have hencode : (LDAPMessage.mk messageID (some operation) controls).encode =
      .ok (elementOctets classUniversal typeConstructed tagSequence
        (messageContents messageID operation controls)) := by
    unfold LDAPMessage.encode
    rw [if_neg (by rw [not_or, not_lt, not_lt]; exact hid)]
    dsimp only
    rw [encodeBody_eq hid hlength]
    rfl
  exact ⟨hencode, _, hencode, parse_octets hid htag hlength⟩

/-- A bind request with two controls. -/
def bindWithControls : LDAPMessage :=
  ⟨300, some ⟨0, [2, 1, 3]⟩, [⟨[49, 46, 50], true, [1]⟩, ⟨[49, 46, 51], false, []⟩]⟩

theorem parse_encode_bind :
    ∃ bytes, bindWithControls.encode = .ok bytes ∧ parseLDAPMessage bytes = .ok bindWithControls :=
  (parse_encode bindWithControls ⟨0, [2, 1, 3]⟩ rfl (by decide) (by decide) (by decide +kernel)).2

/-- A message without controls whose operation has the given tag. -/
def tagged (tag : Int) : LDAPMessage := ⟨1, some ⟨tag, []⟩, []⟩

/-- A tag number that the encoder writes and the decoder takes for an overflow, and one that spoils
the class of the tag. -/
theorem parse_encode_fails :
    (messageContents 1 ⟨2147483776, []⟩ []).length < 2 ^ 32 ∧
      ((tagged 2147483776).encode.bind parseLDAPMessage).toOption = none ∧
      (tagged 2147483776).encode.toOption ≠ none ∧
    (messageContents 1 ⟨-1, []⟩ []).length < 2 ^ 32 ∧
      ((tagged (-1)).encode.bind parseLDAPMessage).toOption = none ∧
      (tagged (-1)).encode.toOption ≠ none := by
  decide +kernel

end Oba.Ldap
