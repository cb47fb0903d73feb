import Oba.Ber.Reading

/-! # Reading no further than an element

A decoder checks lengths against the end of its data, so an element may reach beyond the one it is
in. A strict decoder ends the data at the declared end of the element that it walks through. This
module relates the two: a scanner reads only elements that lie inside the one around them just if
a strict decoder reads the same.
-/

namespace Oba.Ber

open List Decoder

open Storage (Bytes)
open Scanner (bind_ok fail_ne_ok mapError_ok)

variable {ε ε' α β : Type}

/-- Every element that was read lies inside the element around it. -/
def Decoder.Inside (d : Decoder) : Prop := ∀ e ∈ d.elements ++ d.inner, e.stop ≤ e.bound

instance (d : Decoder) : Decidable d.Inside := by
  unfold Decoder.Inside
  infer_instance

/-- The strict decoder in the same place. -/
def Decoder.strict (d : Decoder) : Decoder := { d with data := d.data.take d.bound, cut := true }

/-- A decoder of the program, with the element that it walks through inside its data. -/
structure Decoder.Lenient (d : Decoder) : Prop where
  cut : d.cut = false
  bound : d.bound ≤ d.data.length

/-- Nothing that was read is forgotten. -/
def Grows (p : Scanner Decoder ε α) : Prop :=
  ∀ d a d', p d = (.ok a, d') → d'.Inside → d.Inside

/-- From a decoder on, the scanner stays inside just if a strict decoder reads the same. -/
structure AgreesAt (p : Scanner Decoder ε α) (d : Decoder) : Prop where
  follows : ∀ a d', p d = (.ok a, d') → d'.Inside → d'.Lenient ∧ p d.strict = (.ok a, d'.strict)
  leads : ∀ a e, p d.strict = (.ok a, e) → d.Inside →
    ∃ d', p d = (.ok a, d') ∧ e = d'.strict ∧ d'.Inside ∧ d'.Lenient

structure Agrees (p : Scanner Decoder ε α) : Prop where
  grows : Grows p
  at_ : ∀ d : Decoder, d.Lenient → AgreesAt p d

/-! ## Sequences -/

variable {p : Scanner Decoder ε α} {f : α → Scanner Decoder ε β} {d : Decoder} {length header : Nat}
  {look : Decoder → α} {d' : Decoder} {kind : Bytes → Bytes → α → Prop} {as : List α}

lemma Grows.bind (hp : Grows p) (hf : ∀ a, Grows (f a)) : Grows (p >>= f) := by
  intro d b d' h hinside
  obtain ⟨a, u, ha, hb⟩ := bind_ok.mp h
  exact hp d a u ha (hf a u b d' hb hinside)

lemma AgreesAt.bind (hp : AgreesAt p d) (hgrows : ∀ a, Grows (f a))
    (hf : ∀ a u, p d = (.ok a, u) → u.Lenient → AgreesAt (f a) u) : AgreesAt (p >>= f) d := by
  constructor
  · intro b d' h hinside
    obtain ⟨a, u, ha, hb⟩ := bind_ok.mp h
    obtain ⟨hlenient, hstrict⟩ := hp.follows a u ha (hgrows a u b d' hb hinside)
    obtain ⟨hlenient', hstrict'⟩ := (hf a u ha hlenient).follows b d' hb hinside
    exact ⟨hlenient', bind_ok.mpr ⟨a, u.strict, hstrict, hstrict'⟩⟩
  · intro b e h hinside
    obtain ⟨a, e', ha, hb⟩ := bind_ok.mp h
    obtain ⟨u, hu, rfl, huinside, hlenient⟩ := hp.leads a e' ha hinside
    obtain ⟨d', hd', he, hinside', hlenient'⟩ := (hf a u hu hlenient).leads b e hb huinside
    exact ⟨d', bind_ok.mpr ⟨a, u, hu, hd'⟩, he, hinside', hlenient'⟩

lemma Agrees.bind (hp : Agrees p) (hf : ∀ a, Agrees (f a)) : Agrees (p >>= f) :=
  ⟨hp.grows.bind fun a => (hf a).grows, fun d hd =>
    (hp.at_ d hd).bind (fun a => (hf a).grows) fun a u _ hu => (hf a).at_ u hu⟩

/-- A scanner that only looks at what a strict decoder has as well. -/
lemma agrees_look (hlook : ∀ d, look d.strict = look d) :
    Agrees (fun d => (.ok (look d), d) : Scanner Decoder ε α) := by
  refine ⟨?_, fun d hd => ⟨?_, ?_⟩⟩
  · intro d b d' h hinside
    cases h
    exact hinside
  · intro b d' h _
    cases h
    exact ⟨hd, by rw [hlook]⟩
  · intro b e h hinside
    cases h
    exact ⟨d, by rw [hlook], rfl, hinside, hd⟩

lemma agrees_pure (a : α) : Agrees (pure a : Scanner Decoder ε α) := agrees_look fun _ => rfl

lemma agrees_fail (err : ε) : Agrees (Scanner.fail err : Scanner Decoder ε α) :=
  ⟨fun _ _ _ h => absurd h fail_ne_ok, fun _ _ =>
    ⟨fun _ _ h => absurd h fail_ne_ok, fun _ _ h => absurd h fail_ne_ok⟩⟩

lemma AgreesAt.mapError (h : AgreesAt p d) (f : Decoder → ε → ε') :
    AgreesAt (Scanner.mapError f p) d := by
  constructor
  · intro a d' ha hinside
    obtain ⟨hlenient, hstrict⟩ := h.follows a d' (mapError_ok.mp ha) hinside
    exact ⟨hlenient, mapError_ok.mpr hstrict⟩
  · intro a e he hinside
    obtain ⟨d', hd', hrest⟩ := h.leads a e (mapError_ok.mp he) hinside
    exact ⟨d', mapError_ok.mpr hd', hrest⟩

lemma Agrees.mapError (h : Agrees p) (f : Decoder → ε → ε') : Agrees (Scanner.mapError f p) :=
  ⟨fun d a d' ha => h.grows d a d' (mapError_ok.mp ha), fun d hd => (h.at_ d hd).mapError f⟩

/-! ## Elements -/

/-- A strict decoder sees the bytes up to the end of the element that it walks through. -/
lemma prefix_strict {used : Bytes} (hne : used ≠ []) :
    used <+: d.strict.rest ↔ used <+: d.rest ∧ d.offset + used.length ≤ d.bound := by
  have hrest : d.strict.rest = d.rest.take (d.bound - d.offset) := by
    exact drop_take
  have hpos := length_pos_of_ne_nil hne
  rw [hrest]
  constructor
  · intro h
    have hle := h.length_le
    rw [length_take] at hle
    exact ⟨h.trans ( take_prefix _ _), by omega⟩
  · rintro ⟨h, hle⟩
    exact prefix_take_iff.mpr ⟨h, by omega⟩

lemma Decoder.Lenient.remaining_strict (h : d.Lenient) :
    d.strict.remaining = d.bound - d.offset := by
  unfold remaining strict
  rw [length_take, min_eq_left h.bound]

lemma inside_append {e : Element} (helements : d'.elements = d.elements ++ [e])
    (hinner : d'.inner = d.inner) : d'.Inside ↔ d.Inside ∧ e.stop ≤ e.bound := by
  unfold Decoder.Inside
  rw [helements, hinner]
  simp only [mem_append, mem_singleton]
  constructor
  · intro h
    exact ⟨fun x hx => h x (hx.imp_left .inl), h e (.inl (.inr rfl))⟩
  · rintro ⟨h, he⟩ x ((hx | rfl) | hx)
    · exact h x (.inl hx)
    · exact he
    · exact h x (.inr hx)

lemma inside_consume {start : Nat} :
    (d.consume start length).Inside ↔ d.Inside ∧ d.offset + length ≤ d.bound :=
  inside_append (e := ⟨start, d.offset, d.offset + length, d.bound, false⟩) rfl rfl

lemma inside_element :
    (d.element header length).Inside ↔ d.Inside ∧ d.offset + header + length ≤ d.bound :=
  inside_consume

lemma inside_walk :
    ((d.advance header).walk d.offset length).Inside ↔
      d.Inside ∧ d.offset + header + length ≤ d.bound :=
  inside_append (e := ⟨d.offset, d.offset + header, d.offset + header + length, d.bound, true⟩)
    rfl rfl

lemma Elementary.agrees {p : Decode α} (hp : Elementary p kind)
    (hkind : ∀ header contents a, kind header contents a → header ≠ []) : Agrees p := by
  refine ⟨?_, fun d hd => ⟨?_, ?_⟩⟩
  · intro d a d' h hinside
    obtain ⟨header, contents, -, -, rfl⟩ := (hp d a d').mp h
    exact (inside_element.mp hinside).1
  · intro a d' h hinside
    obtain ⟨header, contents, hk, hstarts, rfl⟩ := (hp d a d').mp h
    have hne : header ++ contents ≠ [] :=
      append_ne_nil_of_left_ne_nil (hkind _ _ _ hk) _
    refine ⟨⟨hd.cut, hd.bound⟩, (hp _ _ _).mpr ⟨header, contents, hk, ?_, rfl⟩⟩
    refine (prefix_strict hne).mpr ⟨hstarts, ?_⟩
    have := (inside_element.mp hinside).2
    rw [length_append]
    omega
  · intro a e h hinside
    obtain ⟨header, contents, hk, hstarts, rfl⟩ := (hp _ a e).mp h
    have hne : header ++ contents ≠ [] :=
      append_ne_nil_of_left_ne_nil (hkind _ _ _ hk) _
    obtain ⟨hstarts, hle⟩ := (prefix_strict hne).mp hstarts
    rw [length_append, ← add_assoc] at hle
    exact ⟨_, (hp _ _ _).mpr ⟨header, contents, hk, hstarts, rfl⟩, rfl,
      inside_element.mpr ⟨hinside, hle⟩, ⟨hd.cut, hd.bound⟩⟩

/-- Walking on strictly, from inside an element. -/
lemma strict_walk (hcut : d.cut = false) (hle : d.offset + header + length ≤ d.bound) :
    (d.strict.advance header).walk d.strict.offset length =
      ((d.advance header).walk d.offset length).strict := by
  unfold walk strict advance
  rw [hcut, if_pos rfl, if_neg Bool.false_ne_true, take_take, min_eq_left hle]

lemma agrees_expectElement (accepts : Tag → Bool) (expectedClass expectedNumber : Nat)
    (message : String) :
    Agrees (expectElement accepts expectedClass expectedNumber message) := by
  refine ⟨?_, fun d hd => ⟨?_, ?_⟩⟩
  · intro d n d' h hinside
    obtain ⟨header, contents, -, -, -, rfl⟩ := expectElement_ok.mp h
    exact (inside_walk.mp hinside).1
  · intro n d' h hinside
    obtain ⟨header, contents, haccepted, hstarts, rfl, rfl⟩ := expectElement_ok.mp h
    have hle := (inside_walk.mp hinside).2
    have hne : header ++ contents ≠ [] :=
      append_ne_nil_of_left_ne_nil haccepted.ne_nil _
    refine ⟨⟨hd.cut, ?_⟩, expectElement_ok.mpr ⟨header, contents, haccepted, ?_, rfl,
      (strict_walk hd.cut hle).symm⟩⟩
    · rw [walk_advance_data hd.cut]
      exact hle.trans hd.bound
    · rw [prefix_strict hne, length_append]
      exact ⟨hstarts, by omega⟩
  · intro n e h hinside
    obtain ⟨header, contents, haccepted, hstarts, rfl, rfl⟩ := expectElement_ok.mp h
    have hne : header ++ contents ≠ [] :=
      append_ne_nil_of_left_ne_nil haccepted.ne_nil _
    obtain ⟨hstarts, hle⟩ := (prefix_strict hne).mp hstarts
    rw [length_append, ← add_assoc] at hle
    refine ⟨_, expectElement_ok.mpr ⟨header, contents, haccepted, hstarts, rfl, rfl⟩,
      strict_walk hd.cut hle, inside_walk.mpr ⟨hinside, hle⟩, ⟨hd.cut, ?_⟩⟩
    rw [walk_advance_data hd.cut]
    exact hle.trans hd.bound

/-! ## Parts -/

lemma lenient_new (contents : Bytes) : (newBERDecoder contents).Lenient := ⟨rfl, le_rfl⟩

lemma inside_new (contents : Bytes) : (newBERDecoder contents).Inside := by
  intro e he
  cases he

/-- A part that is read strictly is all there. -/
lemma sub_strict (d : Decoder) (contents : Bytes) :
    d.strict.sub contents = (newBERDecoder contents).strict := by
  unfold sub strict
  rw [show (newBERDecoder contents).data.take (newBERDecoder contents).bound = contents from
    take_length]
  rfl

lemma inside_absorb {part : Decoder} : (d.absorb part).Inside ↔ d.Inside ∧ part.Inside := by
  unfold Decoder.Inside absorb
  simp only [mem_append]
  constructor
  · intro h
    exact ⟨fun e he => h e (by tauto), fun e he => h e (by tauto)⟩
  · rintro ⟨h, hpart⟩ e he
    rcases he with he | (he | he) | he
    · exact h e (.inl he)
    · exact h e (.inr he)
    · exact hpart e (.inl he)
    · exact hpart e (.inr he)

lemma agrees_inside {contents : Bytes} (hp : AgreesAt p (newBERDecoder contents)) :
    Agrees (inside contents p) := by
  refine ⟨?_, fun d hd => ⟨?_, ?_⟩⟩
  · intro d a d' h hinside
    obtain ⟨part, -, rfl⟩ := inside_ok.mp h
    exact (inside_absorb.mp hinside).1
  · intro a d' h hinside
    obtain ⟨part, hpart, rfl⟩ := inside_ok.mp h
    rw [sub_eq hd.cut] at hpart
    obtain ⟨-, hstrict⟩ := hp.follows a part hpart (inside_absorb.mp hinside).2
    refine ⟨⟨hd.cut, hd.bound⟩, inside_ok.mpr ⟨part.strict, ?_, rfl⟩⟩
    rw [sub_strict, hstrict]
  · intro a e h hinside
    obtain ⟨part, hpart, rfl⟩ := inside_ok.mp h
    rw [sub_strict] at hpart
    obtain ⟨part', hpart', rfl, hinside', -⟩ := hp.leads a part hpart (inside_new contents)
    refine ⟨d.absorb part', inside_ok.mpr ⟨part', ?_, rfl⟩, rfl,
      inside_absorb.mpr ⟨hinside, hinside'⟩, ⟨hd.cut, hd.bound⟩⟩
    rw [sub_eq hd.cut, hpart']

/-! ## Loops -/

/-- The scanner reads on in the same data, inside the same element. -/
def Steady (p : Scanner Decoder ε α) : Prop :=
  ∀ d a d', p d = (.ok a, d') →
    d'.bound = d.bound ∧ d'.data = d.data ∧ d.offset < d'.offset ∧ d'.remaining < d.remaining

lemma Elementary.steady {p : Decode α} (hp : Elementary p kind)
    (hkind : ∀ header contents a, kind header contents a → header ≠ []) : Steady p := by
  intro d a d' h
  obtain ⟨header, contents, hk, hstarts, rfl⟩ := (hp d a d').mp h
  have hpos := length_pos_of_ne_nil (hkind _ _ _ hk)
  have hremaining := remaining_element hstarts
  have hoffset : (d.element header.length contents.length).offset =
      d.offset + header.length + contents.length := rfl
  exact ⟨rfl, rfl, by omega, by omega⟩

lemma Steady.mapError (h : Steady p) (f : Decoder → ε → ε') : Steady (Scanner.mapError f p) :=
  fun d a d' ha => h d a d' (mapError_ok.mp ha)

/-- The scanner leaves the decoder where it is. -/
def Still (p : Scanner Decoder ε α) : Prop :=
  ∀ d a d', p d = (.ok a, d') → d'.bound = d.bound ∧ d'.data = d.data ∧ d'.offset = d.offset

lemma still_look : Still (fun d => (.ok (look d), d) : Scanner Decoder ε α) := by
  intro d b d' h
  cases h
  exact ⟨rfl, rfl, rfl⟩

lemma still_pure (a : α) : Still (pure a : Scanner Decoder ε α) := still_look

lemma still_fail (err : ε) : Still (Scanner.fail err : Scanner Decoder ε α) :=
  fun _ _ _ h => absurd h fail_ne_ok

lemma still_inside (contents : Bytes) (p : Scanner Decoder ε α) : Still (inside contents p) := by
  intro d a d' h
  obtain ⟨part, -, rfl⟩ := inside_ok.mp h
  exact ⟨rfl, rfl, rfl⟩

lemma Still.bind (hp : Still p) (hf : ∀ a, Still (f a)) : Still (p >>= f) := by
  intro d b d' h
  obtain ⟨a, u, ha, hb⟩ := bind_ok.mp h
  obtain ⟨hbound, hdata, hoffset⟩ := hp d a u ha
  obtain ⟨hbound', hdata', hoffset'⟩ := hf a u b d' hb
  exact ⟨hbound'.trans hbound, hdata'.trans hdata, hoffset'.trans hoffset⟩

lemma Steady.bind (hp : Steady p) (hf : ∀ a, Still (f a)) : Steady (p >>= f) := by
  intro d b d' h
  obtain ⟨a, u, ha, hb⟩ := bind_ok.mp h
  obtain ⟨hbound, hdata, hoffset, hremaining⟩ := hp d a u ha
  obtain ⟨hbound', hdata', hoffset'⟩ := hf a u b d' hb
  have hsame : d'.remaining = u.remaining := by
    unfold remaining
    rw [hdata', hoffset']
  exact ⟨hbound'.trans hbound, hdata'.trans hdata, by omega, by omega⟩

lemma runs_grows {more : Decoder → Bool} (hp : Grows p) (h : Scanner.Runs more p d as d')
    (hinside : d'.Inside) : d.Inside := by
  induction h with
  | stop => exact hinside
  | step _ ha _ ih => exact hp _ _ _ ha (ih hinside)

lemma Grows.many {more : Decoder → Bool} (hp : Grows p) (fuel : Nat) :
    Grows (Scanner.many more p fuel) := by
  induction fuel with
  | zero => exact (agrees_pure []).grows
  | succ fuel ih =>
    intro d as d' h hinside
    rw [Scanner.many_succ] at h
    split at h
    · exact hp.bind (fun a => ih.bind fun as => (agrees_pure _).grows) d as d' h hinside
    · cases h
      exact hinside

section Runs

variable {more : Decoder → Bool} {p : Scanner Decoder ε α}

section

variable (hp : Agrees p) (hsteady : Steady p)
include hp hsteady

lemma runs_follow {d : Decoder} (h : Scanner.Runs more p d as d')
    (hmore : ∀ u : Decoder, u.Lenient → u.bound = d.bound → u.data = d.data →
      more u.strict = more u)
    (hd : d.Lenient) (hinside : d'.Inside) :
    d'.Lenient ∧ Scanner.Runs more p d.strict as d'.strict := by
  induction h with
  | @stop s hstop => exact ⟨hd, .stop ((hmore s hd rfl rfl).trans hstop)⟩
  | @step s t u a as hgo ha hrest ih =>
    obtain ⟨hbound, hdata, -⟩ := hsteady s a t ha
    obtain ⟨ht, hstrict⟩ := (hp.at_ s hd).follows a t ha (runs_grows hp.grows hrest hinside)
    obtain ⟨hu, hruns⟩ := ih (fun v hv hvbound hvdata =>
      hmore v hv (hvbound.trans hbound) (hvdata.trans hdata)) ht hinside
    exact ⟨hu, .step ((hmore s hd rfl rfl).trans hgo) hstrict hruns⟩

lemma runs_lead {c e : Decoder} (h : Scanner.Runs more p c as e) {d : Decoder} (hc : c = d.strict)
    (hmore : ∀ u : Decoder, u.Lenient → u.bound = d.bound → u.data = d.data →
      more u.strict = more u)
    (hd : d.Lenient) (hinside : d.Inside) :
    ∃ d', Scanner.Runs more p d as d' ∧ e = d'.strict ∧ d'.Inside ∧ d'.Lenient := by
  induction h generalizing d with
  | stop hstop =>
    subst hc
    exact ⟨d, .stop ((hmore d hd rfl rfl).symm.trans hstop), rfl, hinside, hd⟩
  | @step s t u a as hgo ha hrest ih =>
    subst hc
    obtain ⟨v, hv, rfl, hvinside, hvlenient⟩ := (hp.at_ d hd).leads a t ha hinside
    obtain ⟨hbound, hdata, -⟩ := hsteady d a v hv
    obtain ⟨d', hruns, he, hinside', hlenient⟩ := ih rfl (fun w hw hwbound hwdata =>
      hmore w hw (hwbound.trans hbound) (hwdata.trans hdata)) hvlenient hvinside
    exact ⟨d', .step ((hmore d hd rfl rfl).symm.trans hgo) hv hruns, he, hinside', hlenient⟩

/-- A loop agrees where the strict decoder goes on just as long. -/
lemma agreesAt_of_runs {loop : Scanner Decoder ε (List α)} {d : Decoder} (hd : d.Lenient)
    (hloop : ∀ as d', loop d = (.ok as, d') ↔ Scanner.Runs more p d as d')
    (hstrict : ∀ as d', loop d.strict = (.ok as, d') ↔ Scanner.Runs more p d.strict as d')
    (hmore : ∀ u : Decoder, u.Lenient → u.bound = d.bound → u.data = d.data →
      more u.strict = more u) :
    AgreesAt loop d := by
  constructor
  · intro as d' h hinside
    obtain ⟨hlenient, hruns⟩ :=
      runs_follow hp hsteady ((hloop as d').mp h) hmore hd hinside
    exact ⟨hlenient, (hstrict as _).mpr hruns⟩
  · intro as e h hinside
    obtain ⟨d', hruns, he, hinside', hlenient⟩ :=
      runs_lead hp hsteady ((hstrict as e).mp h) rfl hmore hd hinside
    exact ⟨d', (hloop as d').mpr hruns, he, hinside', hlenient⟩

end

end Runs

end Oba.Ber
