import Oba.Ber.Reading
import Oba.Ldap.Message

/-! # How controls are read

The field of the controls is read in one of three ways: it is empty, it holds the controls one
after the other, or it holds a SEQUENCE of them.
-/

namespace Oba.Ldap

open Ber List
open Scanner (bind_of_ok bind_ok here_bind fail_ne_ok mapError_ok pure_ok)
open Storage (Bytes)

variable {d d' : Decoder} {c : Control} {l : List Control}

@[simp] lemma plainly_ok {α : Type} {p : Decode α} {a : α} :
    plainly p d = (.ok a, d') ↔ p d = (.ok a, d') :=
  mapError_ok

@[simp] lemma saying_ok {α : Type} {message : String} {p : Decode α} {a : α} :
    saying message p d = (.ok a, d') ↔ p d = (.ok a, d') :=
  mapError_ok

/-- A SEQUENCE, by its tag. -/
abbrev isSequence : Tag → Bool := constructed classUniversal tagSequence

/-- The field of the controls, by its tag. -/
abbrev isControls : Tag → Bool := either classContextSpecific contextTagControls

lemma parseControl_ok :
    parseControl d = (.ok c, d') ↔
      ∃ header contents part, Accepted isSequence header contents ∧
        header ++ contents <+: d.rest ∧ controlFields (d.sub contents) = (.ok c, part) ∧
        d' = (d.element header.length contents.length).absorb part := by
  unfold parseControl
  rw [bind_ok]
  constructor
  · rintro ⟨v, u, hseq, h⟩
    obtain ⟨header, contents, ⟨haccepted, rfl⟩, hstarts, rfl⟩ :=
      (readSequenceContents_elementary d v u).mp (plainly_ok.mp hseq)
    obtain ⟨part, hpart, rfl⟩ := inside_ok.mp h
    exact ⟨header, v, part, haccepted, hstarts, hpart, rfl⟩
  · rintro ⟨header, contents, part, haccepted, hstarts, hpart, rfl⟩
    refine ⟨contents, _, plainly_ok.mpr ((readSequenceContents_elementary d contents _).mpr
      ⟨header, contents, ⟨haccepted, rfl⟩, hstarts, rfl⟩), inside_ok.mpr ⟨part, hpart, rfl⟩⟩

/-- A control that is read is not empty. -/
lemma parseControl_remaining (h : parseControl d = (.ok c, d')) : d'.remaining < d.remaining := by
  obtain ⟨header, contents, part, haccepted, hstarts, -, rfl⟩ := parseControl_ok.mp h
  have hpos := length_pos_of_ne_nil haccepted.ne_nil
  have hremaining := Decoder.remaining_element hstarts
  have habsorb : ((d.element header.length contents.length).absorb part).remaining =
      (d.element header.length contents.length).remaining := rfl
  omega

/-- The contents of a control begin with an OCTET STRING. -/
lemma controlFields_first (h : controlFields d = (.ok c, d')) :
    ∃ header tag length, Header header tag length ∧ header <+: d.rest ∧
      tag.tagClass = classUniversal ∧ tag.number = tagOctetString := by
  obtain ⟨oid, u, hoid, -⟩ := bind_ok.mp h
  obtain ⟨header, contents, ⟨⟨tag, hheader, haccepts⟩, -⟩, hstarts, -⟩ :=
    (readOctetString_elementary d oid u).mp (saying_ok.mp hoid)
  simp only [primitive, decide_eq_true_eq] at haccepts
  exact ⟨header, tag, _, hheader, (prefix_append header contents).trans hstarts,
    haccepts.1, haccepts.2.2⟩

lemma many_parseControl_ok {stop : Nat} :
    Scanner.many (before stop) parseControl d.remaining d = (.ok l, d') ↔
      Scanner.Runs (before stop) parseControl d l d' := by
  refine Scanner.many_ok Decoder.remaining (fun s hs => ?_)
    (fun s a t _ h => parseControl_remaining h) le_rfl
  exact (of_decide_eq_true hs).2

lemma attempts_parseControl_ok :
    Scanner.attempts (fun d => decide (0 < d.remaining)) parseControl giveUp d.remaining d =
      (.ok l, d') ↔
      Scanner.Tries (fun d => decide (0 < d.remaining)) parseControl giveUp d l d' :=
  Scanner.attempts_ok Decoder.remaining (fun _ hs => of_decide_eq_true hs)
    (fun _ _ _ _ h => parseControl_remaining h) le_rfl

/-- How a field of controls that is not empty is read by a decoder that walks through it. -/
inductive ControlsRead (w : Decoder) : List Control → Decoder → Prop
  | direct {c : Control} {l : List Control} {w' d' : Decoder} : parseControl w = (.ok c, w') →
      Scanner.Tries (fun d => decide (0 < d.remaining)) parseControl giveUp w' l d' →
      ControlsRead w (c :: l) d'
  | wrapped {header contents : Bytes} {l : List Control} {u d' : Decoder} :
      Accepted isSequence header contents → header ++ contents <+: w.rest →
      u = (w.advance header.length).walk w.offset contents.length →
      ¬ (0 < u.remaining ∧ nextIs classUniversal tagOctetString u = true) →
      Scanner.Runs (before (u.offset + contents.length)) parseControl u l d' →
      ControlsRead w l d'

/-- The first element of a control that is read is seen by a decoder that walks through it. -/
lemma parseControl_first {w w' : Decoder} (hcut : w.cut = false)
    (h : parseControl w = (.ok c, w')) :
    ∃ header contents, Accepted isSequence header contents ∧ header ++ contents <+: w.rest ∧
      let u := (w.advance header.length).walk w.offset contents.length
      0 < u.remaining ∧ nextIs classUniversal tagOctetString u = true := by
  obtain ⟨header, contents, part, haccepted, ⟨rest, hrest⟩, hpart, -⟩ := parseControl_ok.mp h
  refine ⟨header, contents, haccepted, ⟨rest, hrest⟩, ?_⟩
  intro u
  have hu : u.rest = contents ++ rest :=
    walk_advance_rest hcut (by rw [← hrest, append_assoc]) _ _
  have hsub : (w.sub contents).rest = contents := rfl
  obtain ⟨first, tag, length, hheader, hstarts, htag⟩ := controlFields_first hpart
  have hfirst : first <+: u.rest := hu ▸ (hsub ▸ hstarts).trans (prefix_append _ _)
  refine ⟨hheader.remaining_pos hfirst, ?_⟩
  rw [nextIs_header hheader hfirst, decide_eq_true_eq]
  exact htag

/-- A header is seen before it is read. -/
lemma peekTag_of_accepted {accepts : Tag → Bool} {header contents : Bytes}
    (h : Accepted accepts header contents) (hstarts : header ++ contents <+: d.rest) :
    ∃ tag, accepts tag ∧ peekTag d = (.ok tag, d) := by
  obtain ⟨tag, hheader, haccepts⟩ := h
  refine ⟨tag, haccepts, ?_⟩
  unfold peekTag
  rw [readTag_header hheader ((prefix_append header contents).trans hstarts)]

lemma controlsContents_ok {w : Decoder} (hcut : w.cut = false) :
    controlsContents w w = (.ok l, d') ↔ ControlsRead w l d' := by
  unfold controlsContents
  rw [bind_ok]
  constructor
  · rintro ⟨tag, u, htag, h⟩
    have hu : u = w := (Prod.mk.inj (plainly_ok.mp htag)).2.symm
    subst hu
    split at h
    · obtain ⟨seqLength, u, hseq, h⟩ := bind_ok.mp h
      obtain ⟨header, contents, haccepted, hstarts, rfl, rfl⟩ :=
        expectSequence_ok.mp (plainly_ok.mp hseq)
      rw [here_bind] at h
      split at h
      · rw [bind_of_ok (Scanner.restore_eq _ _)] at h
        obtain ⟨c, w', hc, h⟩ := bind_ok.mp h
        rw [here_bind] at h
        obtain ⟨rest, d'', hrest, h⟩ := bind_ok.mp h
        obtain ⟨rfl, rfl⟩ := pure_ok.mp h
        exact .direct hc (attempts_parseControl_ok.mp hrest)
      next hfirst =>
        exact .wrapped haccepted hstarts rfl hfirst (many_parseControl_ok.mp h)
    · exact absurd h fail_ne_ok
  · intro hread
    have hstart : ∃ header contents, Accepted isSequence header contents ∧
        header ++ contents <+: w.rest := by
      cases hread with
      | direct hc =>
        obtain ⟨header, contents, haccepted, hstarts, -⟩ := parseControl_first hcut hc
        exact ⟨header, contents, haccepted, hstarts⟩
      | wrapped haccepted hstarts => exact ⟨_, _, haccepted, hstarts⟩
    obtain ⟨header, contents, haccepted, hstarts⟩ := hstart
    obtain ⟨tag, haccepts, htag⟩ := peekTag_of_accepted haccepted hstarts
    simp only [isSequence, constructed, decide_eq_true_eq] at haccepts
    refine ⟨tag, w, plainly_ok.mpr htag, ?_⟩
    rw [if_pos ⟨haccepts.1, haccepts.2.2⟩]
    cases hread with
    | direct hc hrest =>
      obtain ⟨header, contents, haccepted, hstarts, hfirst⟩ := parseControl_first hcut hc
      rw [bind_of_ok (plainly_ok.mpr (expectSequence_ok.mpr
        ⟨header, contents, haccepted, hstarts, rfl, rfl⟩)), here_bind]
      rw [if_pos hfirst, bind_of_ok (Scanner.restore_eq _ _), bind_of_ok hc,
        here_bind,
        bind_of_ok (attempts_parseControl_ok.mpr hrest)]
      rfl
    | wrapped haccepted hstarts hu hfirst hruns =>
      subst hu
      rw [bind_of_ok (plainly_ok.mpr (expectSequence_ok.mpr
        ⟨_, _, haccepted, hstarts, rfl, rfl⟩)), here_bind]
      rw [if_neg hfirst]
      exact many_parseControl_ok.mpr hruns

lemma parseControls_ok (hcut : d.cut = false) :
    parseControls d = (.ok l, d') ↔ ∃ header contents, Accepted isControls header contents ∧
      header ++ contents <+: d.rest ∧
      let w := (d.advance header.length).walk d.offset contents.length
      (contents = [] ∧ l = [] ∧ d' = w) ∨ (contents ≠ [] ∧ ControlsRead w l d') := by
  have hwalked : ∀ header contents : Bytes,
      ((d.advance header.length).walk d.offset contents.length).cut = false := fun _ _ => hcut
  unfold parseControls
  rw [bind_ok]
  constructor
  · rintro ⟨length, w, hfield, h⟩
    obtain ⟨header, contents, haccepted, hstarts, rfl, rfl⟩ :=
      expectElement_ok.mp (plainly_ok.mp hfield)
    refine ⟨header, contents, haccepted, hstarts, ?_⟩
    split at h
    next hzero =>
      obtain ⟨rfl, rfl⟩ := pure_ok.mp h
      exact Or.inl ⟨length_eq_zero_iff.mp hzero, rfl, rfl⟩
    next hsome =>
      exact Or.inr ⟨fun hnil => hsome (by rw [hnil]; rfl), (controlsContents_ok (hwalked _ _)).mp h⟩
  · rintro ⟨header, contents, haccepted, hstarts, hread⟩
    refine ⟨_, _, plainly_ok.mpr (expectElement_ok.mpr
      ⟨header, contents, haccepted, hstarts, rfl, rfl⟩), ?_⟩
    rcases hread with ⟨hnil, rfl, rfl⟩ | ⟨hne, hread⟩
    · rw [if_pos (length_eq_zero_iff.mpr hnil)]
      rfl
    · rw [if_neg fun hzero => hne (length_eq_zero_iff.mp hzero)]
      exact (controlsContents_ok (hwalked _ _)).mpr hread

/-! ## The envelope -/

/-- The number of a message, by its element. -/
def IsMessageID (header contents : Bytes) : Prop :=
  Accepted (primitive classUniversal tagInteger) header contents ∧ contents ≠ [] ∧
    contents.length ≤ 8 ∧ minMessageID ≤ decodeInteger contents ∧
    decodeInteger contents ≤ maxMessageID

lemma readEnvelope_ok {r : LDAPMessage × Nat} :
    readEnvelope d = (.ok r, d') ↔ ∃ header contents, Accepted isSequence header contents ∧
      header ++ contents <+: d.rest ∧
      let w := (d.advance header.length).walk d.offset contents.length
      ∃ idHeader idContents, IsMessageID idHeader idContents ∧ idHeader ++ idContents <+: w.rest ∧
      let v := w.element idHeader.length idContents.length
      ∃ opHeader opData tag, Header opHeader tag opData.length ∧ tag.tagClass = classApplication ∧
        opHeader ++ opData <+: v.rest ∧
        r = (⟨decodeInteger idContents, some ⟨tag.number, opData⟩, []⟩,
          w.offset + contents.length) ∧
        d' = v.element opHeader.length opData.length := by
  unfold readEnvelope
  rw [bind_ok]
  constructor
  · rintro ⟨seqLength, w, hseq, h⟩
    obtain ⟨header, contents, haccepted, hstarts, rfl, rfl⟩ :=
      expectSequence_ok.mp (mapError_ok.mp hseq)
    rw [here_bind] at h
    obtain ⟨msgID, v, hid, h⟩ := bind_ok.mp h
    obtain ⟨idHeader, idContents, ⟨hidAccepted, hne, height, rfl⟩, hidPrefix, rfl⟩ :=
      (readInteger_elementary _ msgID v).mp (saying_ok.mp hid)
    split at h
    · exact absurd h fail_ne_ok
    next hrange =>
      rw [here_bind] at h
      obtain ⟨tag, u, htag, h⟩ := bind_ok.mp h
      split at h
      · exact absurd h fail_ne_ok
      next hclass =>
        obtain ⟨opLength, u', hlength, h⟩ := bind_ok.mp h
        obtain ⟨opData, d'', hdata, h⟩ := bind_ok.mp h
        obtain ⟨rfl, rfl⟩ := pure_ok.mp h
        obtain ⟨-, opHeader, hheader, hopPrefix, hd'⟩ := element_ok.mp
          ⟨u, u', mapError_ok.mp htag, saying_ok.mp hlength, saying_ok.mp hdata⟩
        rw [not_or, not_lt, not_lt] at hrange
        exact ⟨header, contents, haccepted, hstarts, idHeader, idContents,
          ⟨hidAccepted, hne, height, hrange⟩, hidPrefix, opHeader, opData, tag, hheader,
          not_not.mp hclass, hopPrefix, rfl, hd'⟩
  · rintro ⟨header, contents, haccepted, hstarts, idHeader, idContents,
      ⟨hidAccepted, hne, height, hrange⟩, hidPrefix, opHeader, opData, tag, hheader, hclass,
      hopPrefix, rfl, rfl⟩
    refine ⟨_, _, mapError_ok.mpr (expectSequence_ok.mpr
      ⟨header, contents, haccepted, hstarts, rfl, rfl⟩), ?_⟩
    have hid := (readInteger_elementary _ _ _).mpr
      ⟨idHeader, idContents, ⟨hidAccepted, hne, height, rfl⟩, hidPrefix, rfl⟩
    obtain ⟨u, u', htag, hlength, hdata⟩ := element_ok.mpr ⟨rfl, opHeader, hheader, hopPrefix, rfl⟩
    rw [here_bind, bind_of_ok (saying_ok.mpr hid),
      if_neg (by rw [not_or, not_lt, not_lt]; exact hrange),
      here_bind, bind_of_ok (mapError_ok.mpr htag),
      if_neg (not_not.mpr hclass), bind_of_ok (saying_ok.mpr hlength),
      bind_of_ok (saying_ok.mpr hdata)]
    rfl

/-- The parser reads the envelope and then, if the field of the controls comes next, the controls
from the bytes that are left. -/
lemma parseDecoders_ok {data : Bytes} {p : Parsed} :
    parseDecoders data = .ok p ↔ ∃ msg stop,
      readEnvelope (newBERDecoder data) = (.ok (msg, stop), p.decoder) ∧
      let d := newBERDecoder (remainingData data p.decoder.offset stop)
      if 0 < d.remaining ∧ isContextTag contextTagControls d then
        parseControls d = (.ok p.message.controls, p.controlsDecoder) ∧
          p.message = { msg with controls := p.message.controls }
      else p.message = msg ∧ p.controlsDecoder = d := by
  unfold parseDecoders
  constructor
  · intro h
    split at h
    · cases h
    · split at h
      · cases h
      next msg stop decoder henvelope =>
        dsimp only at h
        split at h
        next hnext =>
          split at h
          · cases h
          next controls controlsDecoder hcontrols =>
            cases h
            refine ⟨msg, stop, henvelope, ?_⟩
            rw [if_pos hnext]
            exact ⟨hcontrols, rfl⟩
        next hnext =>
          cases h
          refine ⟨msg, stop, henvelope, ?_⟩
          rw [if_neg hnext]
          exact ⟨rfl, rfl⟩
  · rintro ⟨msg, stop, henvelope, h⟩
    have hdata : data ≠ [] := by
      rintro rfl
      obtain ⟨header, contents, haccepted, hstarts, -⟩ := readEnvelope_ok.mp henvelope
      exact haccepted.ne_nil (append_eq_nil_iff.mp (prefix_nil.mp hstarts)).1
    rw [if_neg (length_eq_zero_iff.not.mpr hdata), henvelope]
    dsimp only at h ⊢
    split at h
    next hnext =>
      rw [if_pos hnext, h.1]
      dsimp only
      rw [← h.2]
    next hnext => rw [if_neg hnext, ← h.1, ← h.2]

end Oba.Ldap
