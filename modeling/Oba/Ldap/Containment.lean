import Oba.Ber.Strict
import Oba.Ldap.Controls
import Oba.Ldap.Requests

/-! # Requests that stay inside their elements

Each of the functions that read a request goes from one element to the next, walks through one, or
reads the contents of one from a decoder of its own, and so does with a strict decoder what it
does with a lenient one as long as it stays inside.
-/

namespace Oba.Ldap

open Ber
open Scanner (fail_ne_ok mapError_ok bind_eq)
open Storage (Bytes)

variable {α : Type}

/-! ## The elements -/

lemma agrees_readOctetString : Agrees readOctetString :=
  readOctetString_elementary.agrees fun _ _ _ h => h.1.ne_nil

lemma agrees_readInteger : Agrees readInteger :=
  readInteger_elementary.agrees fun _ _ _ h => h.1.ne_nil

lemma agrees_readEnumerated : Agrees readEnumerated :=
  (readNumber_elementary _ _).agrees fun _ _ _ h => h.1.ne_nil

lemma agrees_readBoolean : Agrees readBoolean :=
  readBoolean_elementary.agrees fun _ _ _ h => h.1.ne_nil

lemma agrees_readTaggedValue : Agrees readTaggedValue :=
  readTaggedValue_elementary.agrees fun _ _ _ ⟨_, h, _⟩ => h.ne_nil

lemma agrees_readSequenceContents : Agrees readSequenceContents :=
  readSequenceContents_elementary.agrees fun _ _ _ h => h.1.ne_nil

lemma steady_readOctetString : Steady readOctetString :=
  readOctetString_elementary.steady fun _ _ _ h => h.1.ne_nil

lemma steady_readTaggedValue : Steady readTaggedValue :=
  readTaggedValue_elementary.steady fun _ _ _ ⟨_, h, _⟩ => h.ne_nil

lemma steady_readSequenceContents : Steady readSequenceContents :=
  readSequenceContents_elementary.steady fun _ _ _ h => h.1.ne_nil

lemma agrees_position : Agrees position := agrees_look fun _ => rfl

lemma still_position : Still position := still_look

/-! ## Loops -/

variable {p : Parse α} {message : String} {more : Decoder → Bool} {d : Decoder} {holds : Bool}
  {offset : Nat}

lemma repeatWhile_ok (hsteady : Steady p) (hmore : ∀ d, more d = true → 0 < d.remaining)
    {d' : Decoder} {as : List α} :
    repeatWhile more p d = (.ok as, d') ↔ Scanner.Runs more p d as d' :=
  Scanner.many_ok Decoder.remaining hmore (fun s a t _ h => (hsteady s a t h).2.2.2) le_rfl

lemma grows_repeatWhile (hp : Grows p) : Grows (repeatWhile more p) :=
  fun d as d' h => hp.many d.remaining d as d' h

lemma before_remaining {stop : Nat} (d : Decoder) (h : before stop d = true) :
    0 < d.remaining :=
  (of_decide_eq_true h).2

/-- A loop that ends with the element that is walked. -/
lemma agreesAt_before (hp : Agrees p) (hsteady : Steady p) (hd : d.Lenient) :
    AgreesAt (repeatWhile (before d.bound) p) d := by
  refine agreesAt_of_runs hp hsteady hd (fun _ _ => repeatWhile_ok hsteady before_remaining)
    (fun _ _ => repeatWhile_ok hsteady before_remaining) ?_
  intro u hu hbound hdata
  have hle := hu.bound
  have hremaining : u.remaining = u.data.length - u.offset := rfl
  have hoffset : u.strict.offset = u.offset := rfl
  refine decide_eq_decide.mpr ?_
  rw [hu.remaining_strict]
  omega

/-- A loop over all of a part. -/
lemma agreesAt_part (hp : Agrees p) (hsteady : Steady p) (contents : Bytes) :
    AgreesAt (repeatWhile (fun d => 0 < d.remaining) p) (newBERDecoder contents) := by
  refine agreesAt_of_runs hp hsteady (lenient_new contents)
    (fun _ _ => repeatWhile_ok hsteady fun _ h => of_decide_eq_true h)
    (fun _ _ => repeatWhile_ok hsteady fun _ h => of_decide_eq_true h) ?_
  intro u hu hbound hdata
  have hlength : u.bound = u.data.length := by
    rw [hbound, hdata]
    rfl
  have hremaining : u.remaining = u.data.length - u.offset := rfl
  rw [hu.remaining_strict, hremaining, hlength]

/-- What walks through an element gives the length up to its end. -/
def Walks (expect : Parse Nat) : Prop :=
  ∀ d n u, expect d = (.ok n, u) → u.bound = u.offset + n

section

variable {accepts : Tag → Bool} {expectedClass expectedNumber : Nat}
  {f : Decoder → Ber.Error → Error}

lemma walks_expectElement :
    Walks (Scanner.mapError f (expectElement accepts expectedClass expectedNumber message)) := by
  intro d n u h
  obtain ⟨header, contents, -, -, rfl, rfl⟩ := expectElement_ok.mp (mapError_ok.mp h)
  rfl

lemma agrees_elementsOf (hp : Agrees p) (hsteady : Steady p) : Agrees (elementsOf
    (Scanner.mapError f (expectElement accepts expectedClass expectedNumber message)) p) := by
  have hexpect := (agrees_expectElement accepts expectedClass expectedNumber message).mapError f
  have hloop : ∀ n, Grows (position >>= fun offset => repeatWhile (before (offset + n)) p) :=
    fun n => agrees_position.grows.bind fun offset =>
      grows_repeatWhile hp.grows
  refine ⟨hexpect.grows.bind hloop, fun d hd => (hexpect.at_ d hd).bind hloop ?_⟩
  intro n u hu hlenient
  refine (agrees_position.at_ u hlenient).bind (fun offset => grows_repeatWhile hp.grows) ?_
  intro offset v hv hvlenient
  obtain ⟨hoffset, rfl⟩ := Prod.mk.inj hv
  cases hoffset
  rw [← walks_expectElement d n u hu]
  exact agreesAt_before hp hsteady hvlenient

end

/-! ## Filters -/

lemma agrees_demand {p : Parse SearchFilter} (hp : Agrees p) :
    Agrees (demand holds offset message p) := by
  unfold demand
  split
  · exact hp
  · exact agrees_fail _

lemma still_demand {p : Parse SearchFilter} (hp : Still p) :
    Still (demand holds offset message p) := by
  unfold demand
  split
  · exact hp
  · exact still_fail _

lemma agrees_comparisonFields (type : Comparison) (offset : Nat) :
    Agrees (comparisonFields type offset) :=
  (agrees_readOctetString.mapError _).bind fun _ =>
    (agrees_readOctetString.mapError _).bind fun _ => agrees_pure _

lemma agrees_substringComponent : Agrees substringComponent := by
  refine (agrees_readTaggedValue.mapError _).bind fun ⟨tagNum, _, value⟩ =>
    agrees_position.bind fun offset => ?_
  split
  · exact agrees_pure _
  · exact agrees_pure _
  · exact agrees_pure _
  · exact agrees_fail _

lemma steady_substringComponent : Steady substringComponent := by
  refine (steady_readTaggedValue.mapError _).bind fun ⟨tagNum, _, value⟩ =>
    still_position.bind fun offset => ?_
  split
  · exact still_pure _
  · exact still_pure _
  · exact still_pure _
  · exact still_fail _

lemma agrees_substringComponents (length : Nat) : Agrees (substringComponents length) := by
  have hloop : ∀ offset : Nat, Grows (Scanner.many (fun d => decide (d.offset < offset + length))
      substringComponent length >>= fun components =>
      pure (components.foldl (fun components put => put components)
        (⟨[], [], []⟩ : SubstringComponents))) :=
    fun offset => (agrees_substringComponent.grows.many _).bind fun _ => (agrees_pure _).grows
  refine ⟨agrees_position.grows.bind hloop, fun d hd => (agrees_position.at_ d hd).bind hloop ?_⟩
  intro offset u hu hlenient
  obtain ⟨hoffset, rfl⟩ := Prod.mk.inj hu
  cases hoffset
  have hruns : ∀ (e : Decoder) (as : List (SubstringComponents → SubstringComponents))
      (e' : Decoder),
      e.offset = d.offset →
      (Scanner.many (fun e => decide (e.offset < d.offset + length)) substringComponent length e =
        (.ok as, e') ↔ Scanner.Runs (fun e => decide (e.offset < d.offset + length))
          substringComponent e as e') := by
    intro e as e' he
    refine Scanner.many_ok (fun e => d.offset + length - e.offset) (fun s hs => ?_)
      (fun s a t hs ht => ?_) (by omega)
    · have := of_decide_eq_true hs
      omega
    · have := of_decide_eq_true hs
      have := (steady_substringComponent s a t ht).2.2.1
      omega
  refine (agreesAt_of_runs agrees_substringComponent steady_substringComponent hd
    (fun as e' => hruns d as e' rfl) (fun as e' => hruns d.strict as e' rfl)
    fun _ _ _ _ => rfl).bind (fun _ => (agrees_pure _).grows)
      fun _ u _ hu => (agrees_pure _).at_ u hu

lemma agrees_parseSubstringFilter : Agrees parseSubstringFilter :=
  (agrees_readOctetString.mapError _).bind fun _ =>
    ((agrees_expectElement _ _ _ _).mapError _).bind fun length =>
      (agrees_substringComponents length).bind fun _ => agrees_pure _

lemma agrees_extensibleComponent : Agrees extensibleComponent := by
  refine (agrees_readTaggedValue.mapError _).bind fun ⟨tagNum, _, value⟩ => ?_
  dsimp only
  split <;> exact agrees_pure _

lemma steady_extensibleComponent : Steady extensibleComponent := by
  refine (steady_readTaggedValue.mapError _).bind fun ⟨tagNum, _, value⟩ => ?_
  dsimp only
  split <;> exact still_pure _

lemma agreesAt_parseExtensibleMatch (contents : Bytes) :
    AgreesAt parseExtensibleMatch (newBERDecoder contents) :=
  (agreesAt_part agrees_extensibleComponent steady_extensibleComponent contents).bind
    (fun _ => (agrees_pure _).grows) fun _ u _ hu => (agrees_pure _).at_ u hu

section Child

variable {child : Parse SearchFilter}

lemma still_filterBody (offset tagNum : Nat) (constructed : Bool) (filterData : Bytes) :
    Still (filterBody child offset tagNum constructed filterData) := by
  unfold filterBody comparisonFilter
  split
  iterate 3 exact still_demand ((still_inside _ _).bind fun _ => still_pure _)
  iterate 4 exact still_demand (still_inside _ _)
  · exact still_demand (still_pure _)
  iterate 2 exact still_demand (still_inside _ _)
  · exact still_fail _

lemma agrees_filterBody (hchild : Agrees child) (hsteady : Steady child) (offset tagNum : Nat)
    (constructed : Bool) (filterData : Bytes) :
    Agrees (filterBody child offset tagNum constructed filterData) := by
  have hchildren : Agrees (inside filterData (childFilters child)) :=
    agrees_inside (agreesAt_part hchild hsteady filterData)
  have hcomparison : ∀ type, Agrees (comparisonFilter type offset constructed filterData) :=
    fun type => agrees_demand (agrees_inside
      ((agrees_comparisonFields type offset).at_ _ (lenient_new _)))
  unfold filterBody
  split
  iterate 2 exact agrees_demand (hchildren.bind fun _ => agrees_pure _)
  · exact agrees_demand ((agrees_inside (hchild.at_ _ (lenient_new _))).bind fun _ => agrees_pure _)
  · exact hcomparison _
  · exact agrees_demand (agrees_inside (agrees_parseSubstringFilter.at_ _ (lenient_new _)))
  iterate 2 exact hcomparison _
  · exact agrees_demand (agrees_pure _)
  · exact hcomparison _
  · exact agrees_demand (agrees_inside (agreesAt_parseExtensibleMatch _))
  · exact agrees_fail _

end Child

lemma steady_parseFilterTo (depth : Nat) : Steady (parseFilterTo depth) := by
  cases depth with
  | zero => exact fun _ _ _ h => absurd h fail_ne_ok
  | succ depth =>
    exact (steady_readTaggedValue.mapError _).bind fun ⟨tagNum, constructed, filterData⟩ =>
      still_position.bind fun offset => still_filterBody _ _ _ _

lemma agrees_parseFilterTo (depth : Nat) : Agrees (parseFilterTo depth) := by
  induction depth with
  | zero => exact agrees_fail _
  | succ depth ih =>
    exact (agrees_readTaggedValue.mapError _).bind fun ⟨tagNum, constructed, filterData⟩ =>
      agrees_position.bind fun offset =>
        agrees_filterBody ih (steady_parseFilterTo depth) _ _ _ _

/-- Filters inside a filter are read alike by what reads shorter data alike. -/
lemma filterBody_congr {child child' : Parse SearchFilter} {filterData : Bytes}
    (heq : ∀ e : Decoder, e.remaining ≤ filterData.length → child e = child' e)
    (hsteady : Steady child) (offset tagNum : Nat) (constructed : Bool) (d : Decoder) :
    filterBody child offset tagNum constructed filterData d =
      filterBody child' offset tagNum constructed filterData d := by
  have hsub : (d.sub filterData).remaining ≤ filterData.length := le_rfl
  have hone : inside filterData child d = inside filterData child' d := by
    unfold inside
    rw [heq _ hsub]
  have hmany : inside filterData (childFilters child) d =
      inside filterData (childFilters child') d := by
    unfold inside childFilters repeatWhile
    have hloop := Scanner.many_congr (fun d : Decoder => decide (0 < d.remaining)) heq
      (fun s a t hs ht => ((hsteady s a t ht).2.2.2.le.trans hs)) hsub
    rw [hloop]
  unfold filterBody demand
  split
  case h_1 | h_2 =>
    split
    · rw [bind_eq, bind_eq, hmany]
    · rfl
  · split
    · rw [bind_eq, bind_eq, hone]
    · rfl
  all_goals rfl

/-- The depth does not matter once it is larger than what is left of the data. -/
lemma parseFilterTo_depth {n m : Nat} (hn : d.remaining < n) (hm : d.remaining < m) :
    parseFilterTo n d = parseFilterTo m d := by
  induction n generalizing m d with
  | zero => omega
  | succ n ih =>
    obtain ⟨m, rfl⟩ : ∃ k, m = k + 1 := ⟨m - 1, by omega⟩
    rw [parseFilterTo, parseFilterTo, bind_eq, bind_eq]
    cases htagged : plainly readTaggedValue d with | mk result u =>
    cases result with
    | error err => rfl
    | ok value =>
      obtain ⟨tagNum, constructed, filterData⟩ := value
      obtain ⟨header, contents, ⟨tag, hheader, -, hvalue⟩, hstarts, -⟩ :=
        (readTaggedValue_elementary d _ u).mp (plainly_ok.mp htagged)
      have hdata : filterData = contents := congrArg (fun a => a.2.2) hvalue
      have hlength := Decoder.remaining_element hstarts
      have hpos := List.length_pos_of_ne_nil hheader.ne_nil
      refine filterBody_congr (fun e he => ih ?_ ?_) (steady_parseFilterTo n) _ _ _ _
      · rw [hdata] at he
        omega
      · rw [hdata] at he
        omega

lemma parseSearchFilter_eq {depth : Nat} (h : d.remaining < depth) :
    parseSearchFilter d = parseFilterTo depth d :=
  parseFilterTo_depth (lt_add_one _) h

lemma agrees_parseSearchFilter : Agrees parseSearchFilter := by
  refine ⟨fun d a d' h => (agrees_parseFilterTo _).grows d a d' h, fun d hd => ?_⟩
  have hstrict : d.strict.remaining < d.remaining + 1 := by
    have hle := hd.bound
    have hremaining : d.remaining = d.data.length - d.offset := rfl
    rw [hd.remaining_strict]
    omega
  obtain ⟨hfollows, hleads⟩ := (agrees_parseFilterTo (d.remaining + 1)).at_ d hd
  constructor
  · intro a d' h hinside
    rw [parseSearchFilter_eq hstrict]
    exact hfollows a d' h hinside
  · intro a e h hinside
    rw [parseSearchFilter_eq hstrict] at h
    exact hleads a e h hinside

/-! ## Requests -/

lemma agrees_enumeratedTo (largest : Int) (message : String) (err : Error) :
    Agrees (enumeratedTo largest message err) := by
  refine (agrees_readEnumerated.mapError _).bind fun value => ?_
  split
  · exact agrees_fail _
  · exact agrees_pure _

lemma agrees_readSearchRequest : Agrees readSearchRequest :=
  (agrees_readOctetString.mapError _).bind fun _ =>
    (agrees_enumeratedTo _ _ _).bind fun _ => (agrees_enumeratedTo _ _ _).bind fun _ =>
    (agrees_readInteger.mapError _).bind fun _ => (agrees_readInteger.mapError _).bind fun _ =>
    (agrees_readBoolean.mapError _).bind fun _ =>
    (agrees_parseSearchFilter.mapError _).bind fun _ =>
    (agrees_elementsOf (agrees_readOctetString.mapError _)
      (steady_readOctetString.mapError _)).bind fun _ => agrees_pure _

lemma agrees_attributeFields (offset : Nat) : Agrees (attributeFields offset) :=
  (agrees_readOctetString.mapError _).bind fun _ =>
    (agrees_elementsOf (agrees_readOctetString.mapError _)
      (steady_readOctetString.mapError _)).bind fun _ => agrees_pure _

lemma agrees_attributeAfter (message : String) : Agrees (attributeAfter message) :=
  (agrees_readSequenceContents.mapError _).bind fun _ => agrees_position.bind fun offset =>
    agrees_inside ((agrees_attributeFields offset).at_ _ (lenient_new _))

lemma steady_attributeAfter (message : String) : Steady (attributeAfter message) :=
  (steady_readSequenceContents.mapError _).bind fun _ => still_position.bind fun _ =>
    still_inside _ _

lemma agrees_readAddRequest : Agrees readAddRequest :=
  (agrees_readOctetString.mapError _).bind fun _ =>
    (agrees_elementsOf (agrees_attributeAfter _) (steady_attributeAfter _)).bind fun _ =>
      agrees_pure _

lemma agrees_modificationFields (offset : Nat) : Agrees (modificationFields offset) := by
  refine (agrees_readEnumerated.mapError _).bind fun operation => ?_
  split
  · exact agrees_fail _
  · exact (agrees_attributeAfter _).bind fun _ => agrees_pure _

lemma agrees_parseModification : Agrees parseModification :=
  (agrees_readSequenceContents.mapError _).bind fun _ => agrees_position.bind fun offset =>
    agrees_inside ((agrees_modificationFields offset).at_ _ (lenient_new _))

lemma steady_parseModification : Steady parseModification :=
  (steady_readSequenceContents.mapError _).bind fun _ => still_position.bind fun _ =>
    still_inside _ _

lemma agrees_readModifyRequest : Agrees readModifyRequest :=
  (agrees_readOctetString.mapError _).bind fun _ =>
    (agrees_elementsOf agrees_parseModification steady_parseModification).bind fun _ =>
      agrees_pure _

lemma agrees_readRequest (kind : RequestKind) : Agrees (readRequest kind) := by
  cases kind with
  | search => exact agrees_readSearchRequest.bind fun _ => agrees_pure _
  | add => exact agrees_readAddRequest.bind fun _ => agrees_pure _
  | modify => exact agrees_readModifyRequest.bind fun _ => agrees_pure _

end Oba.Ldap
