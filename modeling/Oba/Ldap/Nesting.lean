import Oba.Ldap.Containment
import Oba.Ldap.ControlsKept

/-! # Messages whose elements lie inside one another

The envelope checks the length of the operation, and the field of the controls those of its
SEQUENCE and of the controls, against the end of the data and not against the element around. This
module says for which messages and requests all elements lie inside the ones around them.
-/

namespace Oba.Ldap

open Ber List
open Storage (Bytes)

/-! ## Controls -/

/-- A whole SEQUENCE. -/
def IsSequenceElement (bytes : Bytes) : Prop :=
  ∃ header contents, bytes = header ++ contents ∧ Accepted isSequence header contents

lemma IsControl.isSequenceElement {piece : Bytes} (h : IsControl piece) :
    IsSequenceElement piece := by
  obtain ⟨header, contents, -, -, rfl, haccepted, -⟩ := h
  exact ⟨header, contents, rfl, haccepted⟩

variable {bytes data : Bytes} {length : Nat} {d d' : Decoder} {l : List Control} {all : Bool}
  {rest : Bytes} {t : Decoder} {kind : RequestKind}

lemma IsSequenceElement.ne_nil (h : IsSequenceElement bytes) : bytes ≠ [] := by
  obtain ⟨header, contents, rfl, haccepted⟩ := h
  exact append_ne_nil_of_left_ne_nil haccepted.ne_nil contents

lemma IsSequenceElement.unique {a b : Bytes} (ha : IsSequenceElement a)
    (hb : IsSequenceElement b) (hstarts : a <+: bytes) (hstarts' : b <+: bytes) : a = b := by
  obtain ⟨header, contents, rfl, haccepted⟩ := ha
  obtain ⟨header', contents', rfl, haccepted'⟩ := hb
  obtain ⟨rfl, rfl⟩ := haccepted.unique haccepted' hstarts hstarts'
  rfl

/-- No SEQUENCE after whole controls reaches beyond a length. Either all of them count, or those
that begin before the length. -/
def StayInside (all : Bool) (length : Nat) (bytes : Bytes) : Prop :=
  ∀ (pieces : List Bytes) (last : Bytes), (∀ piece ∈ pieces, IsControl piece) →
    IsSequenceElement last → pieces.flatten ++ last <+: bytes →
    all = true ∨ pieces.flatten.length < length → pieces.flatten.length + last.length ≤ length

lemma stayInside_of_no_sequence (h : ∀ seq, IsSequenceElement seq → ¬ seq <+: bytes) :
    StayInside all length bytes := by
  intro pieces last hpieces hlast hstarts
  cases pieces with
  | nil => exact absurd hstarts (h last hlast)
  | cons piece pieces =>
    rw [flatten_cons, append_assoc] at hstarts
    exact absurd ((prefix_append _ _).trans hstarts)
      (h piece (hpieces piece mem_cons_self).isSequenceElement)

/-- One control after the other. -/
lemma stayInside_cons {piece : Bytes} (hpiece : IsControl piece) (hgo : all = true ∨ 0 < length) :
    StayInside all length (piece ++ rest) ↔
      piece.length ≤ length ∧ StayInside all (length - piece.length) rest := by
  have hseq := hpiece.isSequenceElement
  constructor
  · intro h
    have hfits := h [] piece (by simp) hseq (prefix_append piece rest) hgo
    rw [flatten_nil, length_nil, zero_add] at hfits
    refine ⟨hfits, fun pieces last hpieces hlast hstarts hbegin => ?_⟩
    have := h (piece :: pieces) last (forall_mem_cons.mpr ⟨hpiece, hpieces⟩) hlast
      (by rw [flatten_cons, append_assoc]; exact (prefix_append_right_inj _).mpr hstarts)
      (hbegin.imp_right fun hlt => by rw [flatten_cons, length_append]; omega)
    rw [flatten_cons, length_append] at this
    omega
  · rintro ⟨hfits, h⟩ pieces last hpieces hlast hstarts hbegin
    cases pieces with
    | nil =>
      obtain rfl := hlast.unique hseq hstarts (prefix_append piece rest)
      rw [flatten_nil, length_nil]
      omega
    | cons first pieces =>
      obtain ⟨hfirst, hpieces⟩ := forall_mem_cons.mp hpieces
      rw [flatten_cons, append_assoc] at hstarts
      obtain rfl := hfirst.isSequenceElement.unique hseq
        ((prefix_append _ _).trans hstarts) (prefix_append piece rest)
      have := h pieces last hpieces hlast ((prefix_append_right_inj _).mp hstarts)
        (hbegin.imp_right fun hlt => by
          rw [flatten_cons, length_append] at hlt
          omega)
      rw [flatten_cons, length_append]
      omega

/-- A SEQUENCE that is not a control is the last one. -/
lemma stayInside_last {seq : Bytes} (hseq : IsSequenceElement seq) (hno : ¬ IsControl seq) :
    StayInside true length (seq ++ rest) ↔ seq.length ≤ length := by
  constructor
  · intro h
    have hfits := h [] seq (by simp) hseq (prefix_append seq rest) (.inl rfl)
    rwa [flatten_nil, length_nil, zero_add] at hfits
  · intro hfits pieces last hpieces hlast hstarts _
    cases pieces with
    | nil =>
      obtain rfl := hlast.unique hseq hstarts (prefix_append seq rest)
      rwa [flatten_nil, length_nil, zero_add]
    | cons first pieces =>
      have hfirst := hpieces first mem_cons_self
      rw [flatten_cons, append_assoc] at hstarts
      obtain rfl := hfirst.isSequenceElement.unique hseq
        ((prefix_append _ _).trans hstarts) (prefix_append seq rest)
      exact absurd hfirst hno

lemma inside_giveUp (h : d.elements ⊆ t.elements) : (giveUp d t).Inside ↔ t.Inside := by
  unfold Decoder.Inside giveUp
  simp only [mem_append]
  constructor
  · intro hall e he
    exact hall e (.inr he)
  · rintro hall e (he | he)
    · exact hall e (.inl (h he))
    · exact hall e he

/-- A control that cannot be read, and where its SEQUENCE ends if there is one. -/
lemma inside_parseControl_error {err : Error} (hcut : d.cut = false)
    (h : parseControl d = (.error err, t)) :
    (giveUp d t).Inside ↔ d.Inside ∧ StayInside true (d.bound - d.offset) d.rest := by
  unfold parseControl at h
  rw [Scanner.bind_eq] at h
  cases hseq : plainly readSequenceContents d with | mk result u =>
  rw [hseq] at h
  cases result with
  | error cause =>
    cases h
    obtain ⟨cause', hfailed⟩ := Scanner.mapError_error hseq
    have hnone : ∀ seq, IsSequenceElement seq → ¬ seq <+: d.rest := by
      rintro seq ⟨header, contents, rfl, haccepted⟩ hstarts
      have hread := (readSequenceContents_elementary d contents _).mpr
        ⟨header, contents, ⟨haccepted, rfl⟩, hstarts, rfl⟩
      cases hfailed.symm.trans hread
    obtain ⟨offset, rfl⟩ := readSequenceContents_error hfailed
    rw [and_iff_left (stayInside_of_no_sequence hnone)]
    exact inside_giveUp (List.Subset.refl d.elements)
  | ok contents =>
    obtain ⟨header, v, ⟨haccepted, rfl⟩, ⟨more, hmore⟩, rfl⟩ :=
      (readSequenceContents_elementary d contents u).mp (plainly_ok.mp hseq)
    dsimp only at h
    unfold inside at h
    rw [sub_eq (d := d.element header.length contents.length) hcut] at h
    cases hfields : controlFields (newBERDecoder contents) with | mk result part =>
    rw [hfields] at h
    cases h
    have hno : ¬ IsControl (header ++ contents) := by
      rintro ⟨header', contents', c, part', hsame, haccepted', hread⟩
      obtain ⟨rfl, rfl⟩ := haccepted.unique haccepted' (prefix_rfl) ⟨[], by simp [hsame]⟩
      cases hfields.symm.trans hread
    rw [inside_giveUp (subset_append_left _ _), inside_absorb, inside_element, ← hmore,
      stayInside_last ⟨header, contents, rfl, haccepted⟩ hno, length_append,
      and_iff_left (inside_controlFields hfields)]
    have hpos := length_pos_of_ne_nil haccepted.ne_nil
    refine and_congr_right fun _ => ?_
    omega

lemma tries_inside (hcut : d.cut = false)
    (h : Scanner.Tries (fun d => decide (0 < d.remaining)) parseControl giveUp d l d') :
    d'.Inside ↔ d.Inside ∧ StayInside true (d.bound - d.offset) d.rest := by
  induction h with
  | @stop s hstop =>
    have hrest : s.rest = [] := by
      have := of_decide_eq_false hstop
      rw [Decoder.remaining_eq] at this
      exact length_eq_zero_iff.mp (by omega)
    rw [hrest, and_iff_left (stayInside_of_no_sequence fun seq hseq hstarts =>
      hseq.ne_nil (prefix_nil.mp hstarts))]
  | failed _ herr => exact inside_parseControl_error hcut herr
  | step _ hc _ ih =>
    obtain ⟨piece, hpiece, hrest, hoffset, hcut', hbound, hinside⟩ := parseControl_piece hcut hc
    have hpos := length_pos_of_ne_nil hpiece.ne_nil
    rw [ih hcut', hinside, hrest, stayInside_cons hpiece (.inl rfl), hbound, hoffset,
      Nat.sub_add_eq, and_assoc]
    refine and_congr_right fun _ => and_congr_left fun _ => ?_
    omega

lemma runs_inside (hcut : d.cut = false) (h : Scanner.Runs (before d.bound) parseControl d l d') :
    d'.Inside ↔ d.Inside ∧ StayInside false (d.bound - d.offset) d.rest := by
  generalize hstop : d.bound = stop at h
  rw [← hstop]
  induction h with
  | @stop s hend =>
    refine (and_iff_left ?_).symm
    intro pieces last _ hlast hstarts hbegin
    have hlt := hbegin.resolve_left Bool.false_ne_true
    have hends := of_decide_eq_false hend
    have hle := hstarts.length_le
    have hremaining := s.remaining_eq
    rw [length_append] at hle
    omega
  | @step s t u c l hmore hc _ ih =>
    obtain ⟨piece, hpiece, hrest, hoffset, hcut', hbound, hinside⟩ := parseControl_piece hcut hc
    have hgo := (of_decide_eq_true hmore).1
    rw [ih hcut' (hbound.trans hstop), hinside, hrest,
      stayInside_cons hpiece (.inr (by omega)), hbound, hoffset, Nat.sub_add_eq, and_assoc]
    refine and_congr_right fun _ => and_congr_left fun _ => ?_
    omega

/-! ## The field of the controls -/

/-- No SEQUENCE after whole controls crosses the end of the field of the controls, nor, if it
begins before it, the end of the SEQUENCE at the start of the field. -/
def ControlsInside (bytes : Bytes) : Prop :=
  ∀ header contents more, Accepted isControls header contents →
    bytes = header ++ (contents ++ more) → contents ≠ [] →
    StayInside true contents.length (contents ++ more) ∧
      ∀ inner wrapped after, Accepted isSequence inner wrapped →
        contents ++ more = inner ++ (wrapped ++ after) →
        StayInside false wrapped.length (wrapped ++ after)

/-- Where an OCTET STRING comes first, no SEQUENCE does. -/
lemma no_sequence_of_octetString {first : Bytes} {tag : Tag} (hheader : Header first tag length)
    (hstarts : first <+: bytes) (hnumber : tag.number = tagOctetString) (seq : Bytes)
    (hseq : IsSequenceElement seq) : ¬ seq <+: bytes := by
  obtain ⟨header, contents, rfl, tag', hheader', haccepts⟩ := hseq
  intro hstarts'
  obtain ⟨-, rfl, -⟩ := hheader.unique hheader' hstarts ((prefix_append _ _).trans hstarts')
  simp only [isSequence, constructed, decide_eq_true_eq] at haccepts
  exact absurd (hnumber.symm.trans haccepts.2.2) (by decide)

/-- In a field of controls that are not in a SEQUENCE of their own, the first SEQUENCE is a
control. -/
lemma no_sequence_in_control {inner wrapped after : Bytes}
    (hinner : Accepted isSequence inner wrapped) (hcontrol : IsControl (inner ++ wrapped))
    (seq : Bytes) (hseq : IsSequenceElement seq) : ¬ seq <+: wrapped ++ after := by
  obtain ⟨header, contents, c, part, hsame, haccepted, hpart⟩ := hcontrol
  obtain ⟨rfl, rfl⟩ := hinner.unique haccepted prefix_rfl ⟨[], by simp [hsame]⟩
  obtain ⟨first, tag, length, hheader, hstarts, -, hnumber⟩ := controlFields_first hpart
  exact no_sequence_of_octetString hheader (hstarts.trans (prefix_append _ _)) hnumber seq hseq

lemma controlsRead_inside {w : Decoder} (hcut : w.cut = false) (hread : ControlsRead w l d') :
    d'.Inside ↔ w.Inside ∧ StayInside true (w.bound - w.offset) w.rest ∧
      ∀ inner wrapped after, Accepted isSequence inner wrapped →
        w.rest = inner ++ (wrapped ++ after) →
        StayInside false wrapped.length (wrapped ++ after) := by
  cases hread with
  | @direct c l w' _ hc htries =>
    have hmore : decide (0 < w.remaining) = true := by
      have := parseControl_remaining hc
      exact decide_eq_true (by omega)
    obtain ⟨piece, hpiece, hrest, -⟩ := parseControl_piece hcut hc
    rw [tries_inside hcut (.step hmore hc htries)]
    refine and_congr_right fun _ => (and_iff_left ?_).symm
    intro inner wrapped after hinner hsplit
    have hwhole : inner ++ wrapped <+: w.rest := ⟨after, by rw [hsplit, append_assoc]⟩
    have hsame : inner ++ wrapped = piece :=
      IsSequenceElement.unique ⟨inner, wrapped, rfl, hinner⟩ hpiece.isSequenceElement hwhole
        ⟨w'.rest, hrest.symm⟩
    exact stayInside_of_no_sequence (no_sequence_in_control hinner (hsame ▸ hpiece))
  | @wrapped inner wrapped _ u _ hinner hstarts huwalk hfirst hruns =>
    obtain ⟨after, hafter⟩ := hstarts
    have hu : u.rest = wrapped ++ after := by
      rw [append_assoc] at hafter
      exact huwalk ▸ walk_advance_rest hcut hafter.symm _ _
    have hbound : u.bound = u.offset + wrapped.length := by
      rw [huwalk]
      rfl
    have hno : ¬ IsControl (inner ++ wrapped) := by
      rintro ⟨header, contents, c, part, hsame, haccepted, hpart⟩
      obtain ⟨rfl, rfl⟩ := hinner.unique haccepted prefix_rfl ⟨[], by simp [hsame]⟩
      obtain ⟨first, tag, length, hheader, hstarts, htag⟩ := controlFields_first hpart
      have hseen : first <+: u.rest := hu ▸ hstarts.trans (prefix_append wrapped after)
      refine hfirst ⟨hheader.remaining_pos hseen, ?_⟩
      rw [nextIs_header hheader hseen, decide_eq_true_eq]
      exact htag
    have hinside : u.Inside ↔ w.Inside ∧ w.offset + inner.length + wrapped.length ≤ w.bound :=
      huwalk ▸ inside_walk
    have hpos := length_pos_of_ne_nil hinner.ne_nil
    rw [← hbound] at hruns
    rw [runs_inside (huwalk ▸ hcut) hruns, hbound, Nat.add_sub_cancel_left, hu, ← hafter,
      stayInside_last ⟨inner, wrapped, rfl, hinner⟩ hno, hinside, length_append, and_assoc]
    refine and_congr_right fun _ => and_congr (by omega) ?_
    constructor
    · intro h inner' wrapped' after' hinner' hsplit
      rw [← append_assoc] at hsplit
      obtain ⟨rfl, rfl⟩ := hinner.unique hinner' ⟨after, rfl⟩ ⟨after', hsplit.symm⟩
      rwa [← append_cancel_left hsplit]
    · intro h
      exact h inner wrapped after hinner (append_assoc _ _ _)

lemma parseControls_inside (h : parseControls (newBERDecoder bytes) = (.ok l, d')) :
    d'.Inside ↔ ControlsInside bytes := by
  obtain ⟨header, contents, more, w, haccepted, hbytes, hwalk, hw, hread⟩ := parseControls_read h
  have hbound : w.bound - w.offset = contents.length := by
    rw [hwalk]
    exact Nat.add_sub_cancel_left _ _
  have hinside : w.Inside := by
    rw [hwalk]
    refine inside_walk.mpr ⟨inside_new bytes, ?_⟩
    have hlength : bytes.length = header.length + (contents.length + more.length) := by
      rw [hbytes, length_append, length_append]
    have hzero : (newBERDecoder bytes).offset = 0 := rfl
    have hall : (newBERDecoder bytes).bound = bytes.length := rfl
    omega
  have hunique : ControlsInside bytes ↔ (contents ≠ [] →
      StayInside true contents.length (contents ++ more) ∧
        ∀ inner wrapped after, Accepted isSequence inner wrapped →
          contents ++ more = inner ++ (wrapped ++ after) →
          StayInside false wrapped.length (wrapped ++ after)) := by
    constructor
    · intro hall
      exact hall header contents more haccepted hbytes
    · intro hall header' contents' more' haccepted' hbytes'
      rw [hbytes, ← append_assoc, ← append_assoc] at hbytes'
      obtain ⟨rfl, rfl⟩ := haccepted.unique haccepted' ⟨more, rfl⟩ ⟨more', hbytes'.symm⟩
      obtain rfl := append_cancel_left hbytes'
      exact hall
  rw [hunique]
  rcases hread with ⟨hnil, -, rfl⟩ | ⟨hne, hread⟩
  · exact iff_of_true hinside fun hne => absurd hnil hne
  · rw [controlsRead_inside (hwalk ▸ rfl) hread, hbound, hw, and_iff_right hinside]
    exact ⟨fun h _ => h, fun h => h hne⟩

/-! ## The envelope -/

/-- An operation, by its tag. -/
abbrev isOperation (tag : Tag) : Bool := tag.tagClass = classApplication

/-- The number and the operation lie inside the outer SEQUENCE. -/
def EnvelopeInside (data : Bytes) : Prop :=
  ∃ header contents idHeader idContents opHeader opData,
    Accepted isSequence header contents ∧ header ++ contents <+: data ∧
    Accepted (primitive classUniversal tagInteger) idHeader idContents ∧
    Accepted isOperation opHeader opData ∧
    idHeader ++ idContents ++ (opHeader ++ opData) <+: contents

lemma readEnvelope_inside {r : LDAPMessage × Nat}
    (h : readEnvelope (newBERDecoder data) = (.ok r, d')) : d'.Inside ↔ EnvelopeInside data := by
  obtain ⟨header, contents, haccepted, ⟨more, hmore⟩, idHeader, idContents, hid,
    ⟨afterID, hafterID⟩,
    opHeader, opData, tag, hheader, hclass, ⟨afterOp, hafterOp⟩, -, rfl⟩ := readEnvelope_ok.mp h
  have hop : Accepted isOperation opHeader opData := ⟨tag, hheader, decide_eq_true hclass⟩
  have hdata : data = header ++ (contents ++ more) := by
    rw [← append_assoc, hmore]
    rfl
  have hrest : contents ++ more = idHeader ++ idContents ++ (opHeader ++ opData ++ afterOp) := by
    rw [hafterOp, Decoder.rest_element hafterID, hafterID]
    have hnew : (newBERDecoder data).rest = header ++ (contents ++ more) := hdata
    exact (walk_advance_rest rfl hnew _ _).symm
  have hlengths : (idHeader ++ idContents ++ (opHeader ++ opData)).length =
      idHeader.length + idContents.length + (opHeader.length + opData.length) := by
    rw [length_append, length_append, length_append]
  -- the outer SEQUENCE itself was checked against the data
  have hinside : (((((newBERDecoder data).advance header.length).walk (newBERDecoder data).offset
      contents.length).element idHeader.length idContents.length).element opHeader.length
        opData.length).Inside ↔
      (idHeader ++ idContents ++ (opHeader ++ opData)).length ≤ contents.length := by
    have hzero : (newBERDecoder data).offset = 0 := rfl
    have hbound : (newBERDecoder data).bound = data.length := rfl
    have hlength : data.length = header.length + (contents.length + more.length) := by
      rw [hdata, length_append, length_append]
    rw [inside_element, inside_element, inside_walk, and_iff_right (inside_new data)]
    simp only [Decoder.element, Decoder.consume, Decoder.walk, Decoder.advance, hzero, hbound]
    omega
  have hall : idHeader ++ idContents ++ (opHeader ++ opData) <+: contents ++ more :=
    ⟨afterOp, by rw [hrest]; simp only [append_assoc]⟩
  refine hinside.trans ⟨fun hle => ?_, ?_⟩
  · exact ⟨header, contents, idHeader, idContents, opHeader, opData, haccepted, ⟨more, hmore⟩,
      hid.1, hop, prefix_of_prefix_length_le hall (prefix_append _ _) hle⟩
  · rintro ⟨header', contents', idHeader', idContents', opHeader', opData', haccepted', hstarts',
      hid', hop', hboth'⟩
    obtain ⟨rfl, rfl⟩ := haccepted'.unique haccepted hstarts' ⟨more, hmore⟩
    have hboth := hboth'.trans (prefix_append contents' more)
    obtain ⟨rfl, rfl⟩ := hid'.unique hid.1 ((prefix_append _ _).trans hboth)
      ((prefix_append _ _).trans hall)
    obtain ⟨rest, hrest'⟩ := hall
    rw [← hrest', append_assoc (idHeader' ++ idContents') _ rest] at hboth
    obtain ⟨rfl, rfl⟩ := hop'.unique hop ((prefix_append_right_inj _).mp hboth) ⟨rest, rfl⟩
    exact hboth'.length_le

/-! ## Messages and requests -/

/-- The decoder of the controls stays inside just if the bytes after the operation are such. -/
lemma controlsDecoder_inside {p : Parsed} (h : parseDecoders data = .ok p) :
    p.controlsDecoder.Inside ↔ ControlsInside p.controlsDecoder.data := by
  rcases controlsDecoder_cases h with hparse | ⟨hdecoder, hnone⟩
  · exact parseControls_inside hparse
  · refine iff_of_true (hdecoder ▸ inside_new _) ?_
    intro header contents more haccepted hbytes _
    exact absurd ⟨contents ++ more, hbytes.symm⟩ (hnone header contents haccepted)

/-- A strict decoder reads the request, too. -/
def strictlyRead (kind : RequestKind) (data : Bytes) : Bool :=
  (readRequest kind (newBERDecoder data).strict).1.isOk

lemma request_inside {r : Request} (h : parseRequest kind data = (.ok r, d)) :
    d.Inside ↔ strictlyRead kind data = true := by
  have hread : readRequest kind (newBERDecoder data) = (.ok r, d) := by
    unfold parseRequest at h
    split at h
    · cases h
    · exact h
  obtain ⟨hfollows, hleads⟩ := (agrees_readRequest kind).at_ _ (lenient_new data)
  unfold strictlyRead
  constructor
  · intro hinside
    rw [(hfollows r d hread hinside).2]
    rfl
  · intro hstrict
    cases hresult : readRequest kind (newBERDecoder data).strict with | mk result e =>
    rw [hresult] at hstrict
    cases result with
    | error err => cases hstrict
    | ok r' =>
      obtain ⟨d', hd', -, hinside, -⟩ := hleads r' e hresult (inside_new data)
      cases hread.symm.trans hd'
      exact hinside

/-- All elements of a message and of its request lie inside the ones around them just if the
operation and the controls do, and a strict decoder reads the request. -/
theorem elements_inside_iff (data : Bytes) (p : Parsed) (operation : RawOperation)
    (kind : RequestKind) (r : Request) (d : Decoder) (h : parseDecoders data = .ok p)
    (_hoperation : p.message.operation = some operation)
    (hrequest : parseRequest kind operation.data = (.ok r, d)) :
    (p.decoder.Inside ∧ p.controlsDecoder.Inside ∧ d.Inside) ↔
      EnvelopeInside data ∧ ControlsInside p.controlsDecoder.data ∧
        strictlyRead kind operation.data = true := by
  obtain ⟨msg, stop, henvelope, -⟩ := parseDecoders_ok.mp h
  rw [readEnvelope_inside henvelope, controlsDecoder_inside h, request_inside hrequest]

/-- Whether the three decoders have stayed inside, if a message and its request are accepted. -/
def stayedInside (kind : RequestKind) (data : Bytes) : Option (Bool × Bool × Bool) := do
  let p ← (parseDecoders data).toOption
  let operation ← p.message.operation
  let (result, d) := parseRequest kind operation.data
  if result.isOk then
    some (decide p.decoder.Inside, decide p.controlsDecoder.Inside, decide d.Inside)
  else none

/-- An Add request for an entry with one attribute, which has one value. -/
def addRequest : Bytes :=
  [0x30, 0x16, 0x02, 0x01, 0x01, 0x68, 0x11, 0x04, 0x04, 0x64, 0x63, 0x3D, 0x78, 0x30, 0x09, 0x30,
    0x07, 0x04, 0x01, 0x61, 0x31, 0x02, 0x04, 0x00]

theorem elements_inside_iff_add :
    ∃ (p : Parsed) (operation : RawOperation) (r : Request) (d : Decoder),
      parseDecoders addRequest = .ok p ∧ parseRequest .add operation.data = (.ok r, d) ∧
      ((p.decoder.Inside ∧ p.controlsDecoder.Inside ∧ d.Inside) ↔
        EnvelopeInside addRequest ∧ ControlsInside p.controlsDecoder.data ∧
          strictlyRead .add operation.data = true) :=
  ⟨_, _, _, _, rfl, rfl, elements_inside_iff addRequest _ _ .add _ _ rfl rfl rfl⟩

/-- In the first message the outer SEQUENCE ends before the operation. In the second one the list of
the attributes to return ends within its only element. -/
theorem elements_leave :
    stayedInside .add [0x30, 0x03, 0x02, 0x01, 0x01, 0x68, 0x04, 0x04, 0x00, 0x30, 0x00] =
      some (false, true, true) ∧
    stayedInside .search [0x30, 0x1C, 0x02, 0x01, 0x01, 0x63, 0x17, 0x04, 0x00, 0x0A, 0x01, 0x00,
        0x0A, 0x01, 0x00, 0x02, 0x01, 0x00, 0x02, 0x01, 0x00, 0x01, 0x01, 0x00, 0x87, 0x00, 0x30,
        0x01, 0x04, 0x00] = some (true, true, false) := by
  decide +kernel

end Oba.Ldap
