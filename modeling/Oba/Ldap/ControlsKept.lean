import Oba.Ber.Failures
import Oba.Ldap.Controls

/-! # Controls that are kept

The bytes between the operation and the end of the outer SEQUENCE are looked at by the decoder of
the controls. Up to where that decoder ends, every byte belongs to a control of the list or to the
tags and lengths around the controls; the bytes behind are dropped.
-/

namespace Oba.Ldap

open Ber List
open Storage (Bytes)

/-- Every byte after the operation belongs to a control of the list, or to the tags and lengths
around the controls. -/
def Parsed.KeepsControls (p : Parsed) : Prop :=
  ∀ i < p.controlsDecoder.data.length,
    (∃ e ∈ p.controlsDecoder.elements, e.walked = true ∧ e.start ≤ i ∧ i < e.contents) ∨
    ∃ read ∈ (p.controlsDecoder.elements.filter (!·.walked)).zip p.message.controls,
      read.1.start ≤ i ∧ i < read.1.stop

instance (p : Parsed) : Decidable p.KeepsControls := by
  unfold Parsed.KeepsControls
  infer_instance

/-! ## What a decoder has covered -/

/-- The end of the bytes that were taken as a whole, or of the tag and length. -/
def taken (e : Element) : Nat := if e.walked then e.contents else e.stop

/-- The decoder has covered the bytes before its offset, and has read a number of controls. -/
structure Tracked (d : Decoder) (count : Nat) : Prop where
  covered : ∀ i, i < d.offset ↔ ∃ e ∈ d.elements, e.start ≤ i ∧ i < taken e
  counted : (d.elements.filter (!·.walked)).length = count

variable {d d' : Decoder} {count : Nat} {l : List Control} {pieces : List Bytes} {c : Control}
  {more : Decoder → Bool} {p : Parsed} {piece bytes : Bytes}

lemma Tracked.extend (h : Tracked d count) (e : Element)
    (helements : d'.elements = d.elements ++ [e]) (hstart : e.start = d.offset)
    (htaken : taken e = d'.offset) (hle : d.offset ≤ d'.offset) :
    Tracked d' (count + if e.walked then 0 else 1) := by
  constructor
  · intro i
    rw [helements]
    constructor
    · intro hi
      by_cases hbefore : i < d.offset
      · obtain ⟨e', he', hcovers⟩ := (h.covered i).mp hbefore
        exact ⟨e', mem_append_left _ he', hcovers⟩
      · exact ⟨e, mem_append_right _ (mem_singleton_self e), by omega, by omega⟩
    · rintro ⟨e', he', hcovers⟩
      rcases mem_append.mp he' with he' | he'
      · have := (h.covered i).mpr ⟨e', he', hcovers⟩
        omega
      · obtain rfl := mem_singleton.mp he'
        omega
  · rw [helements, filter_append, length_append, h.counted]
    cases hwalked : e.walked <;> simp [hwalked]

lemma tracked_new (data : Bytes) : Tracked (newBERDecoder data) 0 := by
  constructor
  · simp [newBERDecoder]
  · rfl

lemma Tracked.walk (h : Tracked d count) (header length : Nat) :
    Tracked ((d.advance header).walk d.offset length) count :=
  h.extend ⟨d.offset, d.offset + header, d.offset + header + length, d.bound, true⟩ rfl rfl rfl
    (Nat.le_add_right _ _)

lemma Tracked.parseControl (h : Tracked d count) (hc : parseControl d = (.ok c, d')) :
    Tracked d' (count + 1) := by
  obtain ⟨header, contents, part, -, -, -, rfl⟩ := parseControl_ok.mp hc
  exact h.extend ⟨d.offset, d.offset + header.length, d.offset + header.length + contents.length,
    d.bound, false⟩ rfl rfl rfl ((Nat.le_add_right _ _).trans (Nat.le_add_right _ _))

lemma Tracked.giveUp {after : Decoder} (h : Tracked d count) : Tracked (giveUp d after) count :=
  ⟨h.covered, h.counted⟩

lemma Tracked.tries (h : Tracked d count)
    (htries : Scanner.Tries more Ldap.parseControl Ldap.giveUp d l d') :
    Tracked d' (count + l.length) := by
  induction htries generalizing count with
  | stop => exact h
  | failed => exact h.giveUp
  | step _ hc _ ih =>
    rw [length_cons, add_comm _ 1, ← add_assoc]
    exact ih (h.parseControl hc)

lemma Tracked.parseControls (hcut : d.cut = false) (h : Tracked d 0)
    (hparse : parseControls d = (.ok l, d')) : Tracked d' l.length := by
  obtain ⟨header, contents, -, -, hread⟩ := (parseControls_ok hcut).mp hparse
  have hw := h.walk header.length contents.length
  rcases hread with ⟨-, rfl, rfl⟩ | ⟨-, hread⟩
  · exact hw
  · cases hread with
    | direct hc htries =>
      have := (hw.parseControl hc).tries htries
      rw [length_cons, add_comm]
      rwa [zero_add] at this
    | wrapped _ _ hu _ hruns =>
      subst hu
      have := (hw.walk _ _).tries (hruns.tries _)
      rwa [zero_add] at this

/-- The controls are kept just if their decoder has come to the end of its data. -/
lemma keepsControls_iff_rest (h : Tracked p.controlsDecoder p.message.controls.length) :
    p.KeepsControls ↔ p.controlsDecoder.rest = [] := by
  have hzip : ∀ e ∈ p.controlsDecoder.elements, e.walked = false → ∃ c,
      (e, c) ∈ (p.controlsDecoder.elements.filter (!·.walked)).zip p.message.controls := by
    intro e he hwalked
    have hmem : e ∈ p.controlsDecoder.elements.filter (!·.walked) :=
      mem_filter.mpr ⟨he, by rw [hwalked]; rfl⟩
    obtain ⟨n, hn, rfl⟩ := getElem_of_mem hmem
    have hlength := h.counted
    exact ⟨p.message.controls[n], mem_iff_getElem.mpr ⟨n, by rw [length_zip]; omega, getElem_zip⟩⟩
  have hcovered : ∀ i, ((∃ e ∈ p.controlsDecoder.elements, e.walked = true ∧ e.start ≤ i ∧
      i < e.contents) ∨ ∃ read ∈ (p.controlsDecoder.elements.filter (!·.walked)).zip
        p.message.controls, read.1.start ≤ i ∧ i < read.1.stop) ↔
        i < p.controlsDecoder.offset := by
    intro i
    rw [h.covered i]
    constructor
    · rintro (⟨e, he, hwalked, hi⟩ | ⟨⟨e, c⟩, hec, hi⟩)
      · exact ⟨e, he, by rw [taken, if_pos hwalked]; exact hi⟩
      · obtain ⟨he, hwalked⟩ := mem_filter.mp (of_mem_zip hec).1
        exact ⟨e, he, by rw [taken, if_neg (by simpa using hwalked)]; exact hi⟩
    · rintro ⟨e, he, hi⟩
      unfold taken at hi
      split at hi
      next hwalked => exact .inl ⟨e, he, hwalked, hi⟩
      next hwalked =>
        obtain ⟨c, hc⟩ := hzip e he (by simpa using hwalked)
        exact .inr ⟨(e, c), hc, hi⟩
  rw [Decoder.rest, drop_eq_nil_iff]
  constructor
  · intro hkeeps
    by_contra hshort
    have := (hcovered _).mp (hkeeps p.controlsDecoder.offset (by omega))
    omega
  · intro hle i hi
    exact (hcovered i).mpr (by omega)

/-! ## Bytes that are whole controls -/

/-- The bytes of one control, for a decoder of their own. -/
def IsControl (piece : Bytes) : Prop :=
  ∃ header contents c part, piece = header ++ contents ∧ Accepted isSequence header contents ∧
    controlFields (newBERDecoder contents) = (.ok c, part)

lemma staysSnug_optionalField {α : Type} {number : Nat} {message : String} {p : Decode α}
    {absent : α} (hp : StaysSnug p) : StaysSnug (optionalField number message p absent) := by
  refine silent_here.staysSnug.bind fun d => ?_
  split
  · exact hp.mapError _
  · exact (silent_pure _).staysSnug

lemma staysSnug_controlFields : StaysSnug controlFields :=
  (staysSnug_readOctetString.mapError _).bind fun _ =>
    (staysSnug_optionalField staysSnug_readBoolean).bind fun _ =>
    (staysSnug_optionalField staysSnug_readOctetString).bind fun _ => (silent_pure _).staysSnug

/-- What is read from the contents of a control stays inside, also if it is not a control. -/
lemma inside_controlFields {contents : Bytes} {result : Except Error Control} {part : Decoder}
    (h : controlFields (newBERDecoder contents) = (result, part)) : part.Inside := by
  have hsnug := staysSnug_controlFields _ (snug_new contents)
  rw [h] at hsnug
  exact hsnug.inside

/-- A control that is read stands there as a whole. -/
lemma parseControl_piece (hcut : d.cut = false) (hc : parseControl d = (.ok c, d')) :
    ∃ piece, IsControl piece ∧ d.rest = piece ++ d'.rest ∧ d'.offset = d.offset + piece.length ∧
      d'.cut = false ∧ d'.bound = d.bound ∧
      (d'.Inside ↔ d.Inside ∧ d.offset + piece.length ≤ d.bound) := by
  obtain ⟨header, contents, part, haccepted, ⟨more, hmore⟩, hpart, rfl⟩ := parseControl_ok.mp hc
  rw [sub_eq hcut] at hpart
  refine ⟨header ++ contents, ⟨header, contents, c, part, rfl, haccepted, hpart⟩, ?_, ?_, hcut, rfl,
    ?_⟩
  · rw [← hmore]
    exact congrArg _ (Decoder.rest_element hmore).symm
  · rw [length_append, ← add_assoc]
    rfl
  · rw [inside_absorb, inside_element, length_append, add_assoc]
    exact and_iff_left (inside_controlFields hpart)

lemma parseControl_of_piece {rest : Bytes} (hcut : d.cut = false) (h : IsControl piece)
    (hrest : d.rest = piece ++ rest) :
    ∃ c d', parseControl d = (.ok c, d') ∧ d'.rest = rest ∧
      d'.offset = d.offset + piece.length ∧ d'.cut = false := by
  obtain ⟨header, contents, c, part, rfl, haccepted, hpart⟩ := h
  rw [← sub_eq hcut] at hpart
  refine ⟨c, _, parseControl_ok.mpr ⟨header, contents, part, haccepted, ⟨rest, hrest.symm⟩, hpart,
    rfl⟩, Decoder.rest_element hrest.symm, ?_, hcut⟩
  rw [length_append, ← add_assoc]
  rfl

lemma IsControl.ne_nil (h : IsControl piece) : piece ≠ [] := by
  obtain ⟨header, contents, c, part, rfl, haccepted, -⟩ := h
  exact append_ne_nil_of_left_ne_nil haccepted.ne_nil contents

/-- All pieces begin before a number of bytes. -/
def BeginBefore (pieces : List Bytes) (length : Nat) : Prop :=
  ∀ front piece back, pieces = front ++ piece :: back → front.flatten.length < length

lemma tries_pieces (hcut : d.cut = false) (h : Scanner.Tries more parseControl giveUp d l d') :
    ∃ pieces : List Bytes, (∀ piece ∈ pieces, IsControl piece) ∧
      d.rest = pieces.flatten ++ d'.rest ∧ ∀ stop,
        (∀ u : Decoder, more u = true → u.offset < stop) →
          BeginBefore pieces (stop - d.offset) := by
  induction h with
  | stop | failed => exact ⟨[], by simp, rfl, by simp [BeginBefore]⟩
  | @step s t u c l hmore hc _ ih =>
    obtain ⟨piece, hpiece, hrest, hoffset, hcut', -⟩ := parseControl_piece hcut hc
    obtain ⟨pieces, hpieces, hrest', hbegin⟩ := ih hcut'
    refine ⟨piece :: pieces, forall_mem_cons.mpr ⟨hpiece, hpieces⟩, ?_, ?_⟩
    · rw [hrest, hrest', flatten_cons, append_assoc]
    · intro stop hstop front piece' back hsplit
      have hbefore := hstop s hmore
      cases front with
      | nil =>
        rw [flatten_nil, length_nil]
        omega
      | cons first front =>
        obtain ⟨rfl, htail⟩ := cons.inj hsplit
        have := hbegin stop hstop front piece' back htail
        rw [flatten_cons, length_append]
        omega

/-- A loop reads all controls if it goes on wherever one begins. -/
lemma runs_of_pieces (hcut : d.cut = false) (hpieces : ∀ piece ∈ pieces, IsControl piece)
    (hrest : d.rest = pieces.flatten) (hstop : ∀ u : Decoder, u.rest = [] → more u = false)
    (hgo : ∀ u : Decoder, 0 < u.remaining → ∀ front piece back, pieces = front ++ piece :: back →
      u.offset = d.offset + front.flatten.length → more u = true) :
    ∃ l d', Scanner.Runs more parseControl d l d' ∧ d'.rest = [] := by
  induction pieces generalizing d with
  | nil => exact ⟨[], d, .stop (hstop d hrest), hrest⟩
  | cons piece pieces ih =>
    obtain ⟨hpiece, hpieces⟩ := forall_mem_cons.mp hpieces
    obtain ⟨c, u, hc, hu, hoffset, hcut'⟩ := parseControl_of_piece hcut hpiece hrest
    obtain ⟨l, d', hruns, hend⟩ := ih hcut' hpieces hu fun v hv front piece' back hsplit hat => by
      refine hgo v hv (piece :: front) piece' back (by rw [hsplit]; rfl) ?_
      rw [hat, hoffset, flatten_cons, length_append, add_assoc]
    have := parseControl_remaining hc
    exact ⟨c :: l, d', .step (hgo d (by omega) [] piece pieces rfl rfl) hc hruns, hend⟩

/-- The bytes are the field of the controls and nothing else: it is empty, it goes on with whole
controls up to the end, or with a SEQUENCE before whose declared end every one of them begins. -/
def WholeControls (bytes : Bytes) : Prop :=
  ∃ header contents, Accepted isControls header contents ∧ header ++ contents <+: bytes ∧
    ((contents = [] ∧ bytes = header) ∨
      contents ≠ [] ∧ ∃ pieces : List Bytes, (∀ piece ∈ pieces, IsControl piece) ∧
        (bytes = header ++ pieces.flatten ∨
          ∃ inner wrapped, Accepted isSequence inner wrapped ∧ wrapped <+: pieces.flatten ∧
            bytes = header ++ (inner ++ pieces.flatten) ∧ BeginBefore pieces wrapped.length))

/-- No OCTET STRING comes first where controls stand. -/
lemma not_octetString_of_pieces (hpieces : ∀ piece ∈ pieces, IsControl piece)
    (hrest : d.rest = pieces.flatten) :
    ¬ (0 < d.remaining ∧ nextIs classUniversal tagOctetString d = true) := by
  rintro ⟨hpos, hnext⟩
  cases pieces with
  | nil =>
    rw [Decoder.remaining_eq, hrest] at hpos
    exact absurd hpos (by simp)
  | cons piece pieces =>
    obtain ⟨header, contents, c, part, rfl, ⟨tag, hheader, haccepts⟩, -⟩ :=
      hpieces piece mem_cons_self
    rw [flatten_cons, append_assoc] at hrest
    rw [nextIs_header hheader ⟨_, hrest.symm⟩] at hnext
    simp only [isSequence, constructed, decide_eq_true_eq] at haccepts hnext
    exact absurd (haccepts.2.2.symm.trans hnext.2) (by decide)

/-- Whole controls are read up to the end. -/
lemma parseControls_of_whole (h : WholeControls bytes) :
    ∃ l d', parseControls (newBERDecoder bytes) = (.ok l, d') ∧ d'.rest = [] := by
  obtain ⟨header, contents, haccepted, hstarts, hwhole⟩ := h
  generalize hd : newBERDecoder bytes = d
  have hcut : d.cut = false := hd ▸ rfl
  have hrest : d.rest = bytes := hd ▸ rfl
  obtain ⟨w, hwalk⟩ : ∃ w, w = (d.advance header.length).walk d.offset contents.length := ⟨_, rfl⟩
  have hwcut : w.cut = false := hwalk ▸ hcut
  have hw : ∀ more, bytes = header ++ more → w.rest = more := fun more hmore =>
    hwalk ▸ walk_advance_rest hcut (hrest.trans hmore) _ _
  have hread : ∀ l d', (contents = [] ∧ l = [] ∧ d' = w) ∨ (contents ≠ [] ∧ ControlsRead w l d') →
      parseControls d = (.ok l, d') := by
    intro l d' hread
    rw [hwalk] at hread
    exact (parseControls_ok hcut).mpr ⟨header, contents, haccepted, hrest ▸ hstarts, hread⟩
  rcases hwhole with ⟨hnil, hbytes⟩ | ⟨hne, pieces, hpieces, hbytes | hwrapped⟩
  · exact ⟨[], w, hread _ _ (.inl ⟨hnil, rfl, rfl⟩), hw [] (hbytes.trans (append_nil _).symm)⟩
  · have hpiecesRest := hw _ hbytes
    cases pieces with
    | nil =>
      have hle := hstarts.length_le
      have hpos := length_pos_of_ne_nil hne
      rw [hbytes, flatten_nil, append_nil, length_append] at hle
      omega
    | cons piece pieces =>
      obtain ⟨hpiece, hpieces⟩ := forall_mem_cons.mp hpieces
      obtain ⟨c, u, hc, hu, -, hucut⟩ := parseControl_of_piece hwcut hpiece hpiecesRest
      obtain ⟨l, d', hruns, hend⟩ := runs_of_pieces hucut hpieces hu
        (fun v hv => by simp [Decoder.remaining_eq, hv]) fun v hv _ _ _ _ _ => decide_eq_true hv
      exact ⟨c :: l, d', hread _ _ (.inr ⟨hne, .direct hc (hruns.tries _)⟩), hend⟩
  · obtain ⟨inner, wrapped, hinner, ⟨more, hmore⟩, hbytes, hbegin⟩ := hwrapped
    obtain ⟨u, huwalk⟩ : ∃ u, u = (w.advance inner.length).walk w.offset wrapped.length := ⟨_, rfl⟩
    have hu : u.rest = pieces.flatten := huwalk ▸ walk_advance_rest hwcut (hw _ hbytes) _ _
    obtain ⟨l, d', hruns, hend⟩ := runs_of_pieces (huwalk ▸ hwcut) hpieces hu
      (fun v hv => by simp [before, Decoder.remaining_eq, hv])
      fun v hv front piece back hsplit hat =>
        show before (u.offset + wrapped.length) v = true from decide_eq_true
          ⟨hat.trans_lt (Nat.add_lt_add_left (hbegin front piece back hsplit) _), hv⟩
    refine ⟨l, d', hread _ _ (.inr ⟨hne, .wrapped hinner ⟨more, ?_⟩ huwalk
      (not_octetString_of_pieces hpieces hu) hruns⟩), hend⟩
    rw [hw _ hbytes, append_assoc, hmore]

lemma parseControls_read (h : parseControls (newBERDecoder bytes) = (.ok l, d')) :
    ∃ header contents more w, Accepted isControls header contents ∧
      bytes = header ++ (contents ++ more) ∧
      w = ((newBERDecoder bytes).advance header.length).walk 0 contents.length ∧
      w.rest = contents ++ more ∧
      (contents = [] ∧ l = [] ∧ d' = w ∨ contents ≠ [] ∧ ControlsRead w l d') := by
  obtain ⟨header, contents, haccepted, ⟨more, hmore⟩, hread⟩ := (parseControls_ok rfl).mp h
  rw [append_assoc] at hmore
  exact ⟨header, contents, more, _, haccepted, hmore.symm, rfl,
    walk_advance_rest rfl hmore.symm _ _, hread⟩

/-- Controls that are read up to the end are whole. -/
lemma whole_of_parseControls (h : parseControls (newBERDecoder bytes) = (.ok l, d'))
    (hend : d'.rest = []) : WholeControls bytes := by
  obtain ⟨header, contents, more, w, haccepted, hbytes, hwalk, hw, hread⟩ := parseControls_read h
  have hwcut : w.cut = false := hwalk ▸ rfl
  refine ⟨header, contents, haccepted, ⟨more, by rw [append_assoc, hbytes]⟩, ?_⟩
  rw [← hw] at hbytes
  rcases hread with ⟨hnil, -, rfl⟩ | ⟨hne, hread⟩
  · exact .inl ⟨hnil, by rw [hbytes, hend, append_nil]⟩
  · refine .inr ⟨hne, ?_⟩
    cases hread with
    | direct hc htries =>
      obtain ⟨piece, hpiece, hfirst, -, hcut', -⟩ := parseControl_piece hwcut hc
      obtain ⟨pieces, hpieces, hothers, -⟩ := tries_pieces hcut' htries
      refine ⟨piece :: pieces, forall_mem_cons.mpr ⟨hpiece, hpieces⟩, .inl ?_⟩
      rw [hbytes, hfirst, hothers, hend, append_nil, flatten_cons]
    | @wrapped inner wrapped _ u _ hinner hstarts huwalk hfirst hruns =>
      obtain ⟨after, hafter⟩ := hstarts
      rw [append_assoc] at hafter
      have hu : u.rest = wrapped ++ after := huwalk ▸ walk_advance_rest hwcut hafter.symm _ _
      obtain ⟨pieces, hpieces, hall, hbegin⟩ := tries_pieces (huwalk ▸ hwcut) (hruns.tries giveUp)
      have hbegin := hbegin _ fun _ hmore => (of_decide_eq_true hmore).1
      rw [hend, append_nil] at hall
      rw [Nat.add_sub_cancel_left] at hbegin
      refine ⟨pieces, hpieces, .inr ⟨inner, wrapped, hinner, ⟨after, ?_⟩, ?_, hbegin⟩⟩
      · rw [← hu, hall]
      · rw [hbytes, ← hafter, ← hu, hall]

/-! ## The bytes after the operation -/

lemma parseControl_data (h : parseControl d = (.ok c, d')) : d'.data = d.data := by
  obtain ⟨header, contents, part, -, -, -, rfl⟩ := parseControl_ok.mp h
  rfl

lemma tries_data (h : Scanner.Tries more parseControl giveUp d l d') : d'.data = d.data := by
  induction h with
  | stop | failed => rfl
  | step _ hc _ ih => exact ih.trans (parseControl_data hc)

/-- The decoder of the controls keeps its data. -/
lemma parseControls_data (hcut : d.cut = false) (h : parseControls d = (.ok l, d')) :
    d'.data = d.data := by
  obtain ⟨header, contents, -, -, hread⟩ := (parseControls_ok hcut).mp h
  have hw := walk_advance_data hcut header.length d.offset contents.length
  have hwcut : ((d.advance header.length).walk d.offset contents.length).cut = false := hcut
  rcases hread with ⟨-, -, rfl⟩ | ⟨-, hread⟩
  · exact hw
  · cases hread with
    | direct hc htries => exact (tries_data htries).trans ((parseControl_data hc).trans hw)
    | wrapped _ _ hu _ hruns =>
      rw [tries_data (hruns.tries giveUp), hu, walk_advance_data hwcut, hw]

/-- The decoder of the controls has read them, or none begin its data. -/
lemma controlsDecoder_cases {data : Bytes} (h : parseDecoders data = .ok p) :
    parseControls (newBERDecoder p.controlsDecoder.data) =
      (.ok p.message.controls, p.controlsDecoder) ∨
    p.controlsDecoder = newBERDecoder p.controlsDecoder.data ∧
      ∀ header contents, Accepted isControls header contents →
        ¬ header <+: p.controlsDecoder.data := by
  obtain ⟨msg, stop, -, hcontrols⟩ := parseDecoders_ok.mp h
  generalize remainingData data p.decoder.offset stop = bytes at hcontrols
  dsimp only at hcontrols
  split at hcontrols
  · left
    rw [parseControls_data rfl hcontrols.1]
    exact hcontrols.1
  next hnext =>
    rw [hcontrols.2]
    refine .inr ⟨rfl, ?_⟩
    rintro header contents ⟨tag, hheader, haccepts⟩ hfirst
    refine hnext ⟨hheader.remaining_pos hfirst, ?_⟩
    rw [isContextTag, nextIs_header (d := newBERDecoder bytes) hheader hfirst]
    exact haccepts

/-- Of the bytes between the operation and the end of the outer SEQUENCE none is dropped just if
they are the field of the controls and nothing else. -/
theorem keepsControls_iff (data : Bytes) (p : Parsed) (h : parseDecoders data = .ok p)
    (hsome : p.controlsDecoder.data ≠ []) :
    p.KeepsControls ↔ WholeControls p.controlsDecoder.data := by
  rcases controlsDecoder_cases h with hparse | ⟨hdecoder, hnone⟩
  · rw [keepsControls_iff_rest ((tracked_new _).parseControls rfl hparse)]
    constructor
    · exact whole_of_parseControls hparse
    · intro hwhole
      obtain ⟨l, d', hparse', hend⟩ := parseControls_of_whole hwhole
      cases hparse.symm.trans hparse'
      exact hend
  · constructor
    · intro hkeeps
      rcases hkeeps 0 (length_pos_of_ne_nil hsome) with ⟨e, he, -⟩ | ⟨read, hread, -⟩
      · rw [hdecoder] at he
        exact absurd he not_mem_nil
      · rw [hdecoder] at hread
        exact absurd (of_mem_zip hread).1 not_mem_nil
    · rintro ⟨header, contents, haccepted, hstarts, -⟩
      exact absurd ((prefix_append _ _).trans hstarts) (hnone header contents haccepted)

/-- An unbind request with a SEQUENCE of one control, which is critical. -/
def criticalUnbind : Bytes :=
  [0x30, 0x13, 0x02, 0x01, 0x01, 0x42, 0x00, 0xA0, 0x0C, 0x30, 0x0A, 0x30, 0x08, 0x04, 0x03, 0x31,
    0x2E, 0x32, 0x01, 0x01, 0xFF]

theorem keepsControls_iff_unbind : ∃ p, parseDecoders criticalUnbind = .ok p ∧
    (p.KeepsControls ↔ WholeControls p.controlsDecoder.data) ∧ p.KeepsControls :=
  ⟨_, rfl, keepsControls_iff criticalUnbind _ rfl (by decide +kernel), by decide +kernel⟩

/-- The same control behind an empty SEQUENCE, inside the field of the controls. -/
def emptyWrapper : Bytes :=
  [0x30, 0x13, 0x02, 0x01, 0x01, 0x42, 0x00, 0xA0, 0x0C, 0x30, 0x00, 0x30, 0x08, 0x04, 0x03, 0x31,
    0x2E, 0x32, 0x01, 0x01, 0xFF]

/-- The message is accepted without its critical control. -/
theorem keepsControls_fails :
    (parseDecoders emptyWrapper).toOption.map (fun p => (p.message.controls,
      p.controlsDecoder.data, decide p.KeepsControls)) =
      some ([], [0xA0, 0x0C, 0x30, 0x00, 0x30, 0x08, 0x04, 0x03, 0x31, 0x2E, 0x32, 0x01, 0x01,
        0xFF], false) := by
  decide +kernel

end Oba.Ldap
