import Oba.Storage.Entry

/-! # Wildcards

The table that `matchWildcard` fills has a row for every front of the value and a column for every
front of the pattern. A cell says whether the two match.
-/

namespace Oba.Storage.Wildcard

open List

/-- The row of the empty value. -/
def firstRow (pattern : Bytes) : Nat → Bool
  | 0 => true
  | j + 1 => pattern[j]? = some 42 && firstRow pattern j

/-- The row of a value that is longer by a byte than that of the row above. -/
def nextRow (pattern : Bytes) (above : Nat → Bool) (b : UInt8) : Nat → Bool
  | 0 => false
  | j + 1 =>
    if pattern[j]? = some 42 then nextRow pattern above b j || above (j + 1)
    else (pattern[j]? = some 63 || pattern[j]? = some b) && above j

def matchWildcard (value pattern : Bytes) : Bool :=
  value.foldl (nextRow pattern) (firstRow pattern) pattern.length

/-! ## What a pattern stands for -/

/-- What a byte of a pattern is replaced with. -/
def StandsFor (x : UInt8) (piece : Bytes) : Prop :=
  if x = 42 then True else if x = 63 then piece.length = 1 else piece = [x]

/-- The value is what the pattern becomes when its bytes are replaced. -/
def Matches : Bytes → Bytes → Prop
  | [], value => value = []
  | x :: rest, value => ∃ piece more, StandsFor x piece ∧ Matches rest more ∧ value = piece ++ more

variable {b x : UInt8} {front value pattern : Bytes}

lemma matches_concat :
    Matches (front ++ [x]) value ↔
      ∃ more piece, Matches front more ∧ StandsFor x piece ∧ value = more ++ piece := by
  induction front generalizing value with
  | nil => simp [Matches]
  | cons y front ih =>
    simp only [cons_append, Matches, ih]
    constructor
    · rintro ⟨piece, _, hpiece, ⟨more, last, hmore, hlast, rfl⟩, rfl⟩
      exact ⟨piece ++ more, last, ⟨piece, more, hpiece, hmore, rfl⟩, hlast, (append_assoc ..).symm⟩
    · rintro ⟨_, last, ⟨piece, more, hpiece, hmore, rfl⟩, hlast, rfl⟩
      exact ⟨piece, more ++ last, hpiece, ⟨more, last, hmore, hlast, rfl⟩, append_assoc ..⟩

/-- Anything but a star stands for one byte. -/
lemma standsFor_of_ne (hx : x ≠ 42) {piece : Bytes} :
    StandsFor x piece ↔ ∃ c, piece = [c] ∧ (x = 63 ∨ x = c) := by
  unfold StandsFor
  rw [if_neg hx]
  split
  next hany => simp [hany, length_eq_one_iff]
  next hany => simp [hany]

lemma matches_nil : Matches (front ++ [x]) [] ↔ x = 42 ∧ Matches front [] := by
  rw [matches_concat]
  by_cases hx : x = 42
  · subst hx
    simp [StandsFor]
  · simp [standsFor_of_ne hx, hx]

lemma matches_star : Matches (front ++ [42]) (value ++ [b]) ↔
    Matches front (value ++ [b]) ∨ Matches (front ++ [42]) value := by
  rw [matches_concat, matches_concat]
  constructor
  · rintro ⟨more, piece, hmore, -, heq⟩
    rcases eq_nil_or_concat piece with rfl | ⟨piece, c, rfl⟩
    · rw [append_nil] at heq
      exact .inl (heq ▸ hmore)
    · rw [concat_eq_append, ← append_assoc] at heq
      exact .inr ⟨more, piece, hmore, trivial, (append_inj' heq rfl).1⟩
  · rintro (hmore | ⟨more, piece, hmore, -, rfl⟩)
    · exact ⟨_, [], hmore, trivial, (append_nil _).symm⟩
    · exact ⟨more, piece ++ [b], hmore, trivial, append_assoc ..⟩

lemma matches_byte (hx : x ≠ 42) :
    Matches (front ++ [x]) (value ++ [b]) ↔ (x = 63 ∨ x = b) ∧ Matches front value := by
  simp only [matches_concat, standsFor_of_ne hx]
  constructor
  · rintro ⟨more, _, hmore, ⟨c, rfl, hc⟩, heq⟩
    obtain ⟨rfl, hb⟩ := append_inj' heq rfl
    exact ⟨singleton_inj.mp hb ▸ hc, hmore⟩
  · rintro ⟨hb, hmore⟩
    exact ⟨value, [b], hmore, ⟨b, rfl, hb⟩, rfl⟩

/-! ## The table -/

lemma firstRow_iff {j : Nat} (hj : j ≤ pattern.length) :
    firstRow pattern j = true ↔ Matches (pattern.take j) [] := by
  induction j with
  | zero => simp [firstRow, Matches]
  | succ j ih =>
    rw [firstRow, getElem?_eq_getElem hj, ← take_concat_get' _ _ hj, matches_nil]
    simp [ih (Nat.le_of_lt hj)]

lemma nextRow_iff {above : Nat → Bool}
    (habove : ∀ j ≤ pattern.length, above j = true ↔ Matches (pattern.take j) value) {j : Nat}
    (hj : j ≤ pattern.length) :
    nextRow pattern above b j = true ↔ Matches (pattern.take j) (value ++ [b]) := by
  induction j with
  | zero => simp [nextRow, Matches]
  | succ j ih =>
    have hleft := ih (Nat.le_of_lt hj)
    have hup := habove (j + 1) hj
    have hdiagonal := habove j (Nat.le_of_lt hj)
    rw [← take_concat_get' _ _ hj] at hup ⊢
    rw [nextRow, getElem?_eq_getElem hj]
    by_cases hstar : pattern[j] = 42
    · rw [hstar] at hup ⊢
      simp [hleft, hup, matches_star]
    · rw [matches_byte hstar]
      simp [hstar, hdiagonal]

/-- A pattern matches just the values that it can be turned into. -/
theorem matchWildcard_iff (value pattern : Bytes) :
    matchWildcard value pattern = true ↔ Matches pattern value := by
  suffices hrows : ∀ j ≤ pattern.length,
      value.foldl (nextRow pattern) (firstRow pattern) j = true ↔ Matches (pattern.take j) value by
    simpa [matchWildcard] using hrows _ le_rfl
  induction value using reverseRecOn with
  | nil => exact fun j hj => firstRow_iff hj
  | append_singleton value b ih =>
    rw [foldl_append]
    exact fun j hj => nextRow_iff ih hj

end Oba.Storage.Wildcard
