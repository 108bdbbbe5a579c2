import ChunkArchive.Chunk.Path
import ChunkArchive.Proofs.Lists
import ChunkArchive.Proofs.Reader
import ChunkArchive.Proofs.Text.Numeral
import ChunkArchive.Proofs.Text.Pieces

/-!
# Paths as text

A path is read from decimal numerals with single slashes between them and blanks around the whole,
and from nothing else (`Path.parse_eq_ok_numerals`). The text of a path is one of those that it is read
from, with neither signs nor leading zeros nor blanks (`Path.parse_toText`).
-/

set_option autoImplicit false

namespace ChunkArchive.Path

open Text

/-- Every position is below the limit. -/
def Fits (path : Path) : Prop := ∀ i ∈ path.positions, i < positionLimit

theorem toList_toText (path : Path) :
    path.toText.toList = ['/'].intercalate (path.positions.map (Nat.toDigits 10)) :=
  String.toList_ofList

/-! ## Reading -/

theorem slash_notMem {numeral : List Char} {n : Nat}
    (h : Numeral.Denotes 10 positionLimit numeral n) : '/' ∉ numeral := by
  obtain ⟨-, digits, hnumeral, hvalue⟩ := h
  have hdigits : '/' ∉ digits := hvalue.notMem (by simp)
  rcases hnumeral with rfl | rfl
  · exact hdigits
  · simpa using hdigits

/-- The numerals read are the positions, in order. -/
theorem mapM_parse?_eq_some_iff {numerals : List (List Char)} {positions : List Nat} :
    numerals.mapM (Numeral.parse? 10 positionLimit) = some positions
      ↔ List.Forall₂ (Numeral.Denotes 10 positionLimit) numerals positions := by
  have hread (numeral : List Char) (n : Nat) : Numeral.parse? 10 positionLimit numeral = some n
      ↔ Numeral.Denotes 10 positionLimit numeral n := Numeral.parse?_eq_some_iff (by decide)
  rw [mapM_eq_some, ← List.forall₂_eq_eq_eq, List.forall₂_map_left_iff, List.forall₂_map_right_iff]
  simp only [hread]

theorem parse_eq_ok_positions {text : String} {path : Path} :
    parse text = .ok path
      ↔ ((trim text.toList).splitOn '/').mapM (Numeral.parse? 10 positionLimit)
          = some path.positions := by
  rw [parse]
  constructor
  · intro h
    split at h
    case h_1 root steps hread =>
      cases h
      exact hread
    case h_2 => cases h
  · intro h
    rw [h]
    rfl

/-- **What a path is read from.** -/
theorem parse_eq_ok_numerals {text : String} {path : Path} :
    parse text = .ok path ↔ ∃ numerals, Trims text.toList (['/'].intercalate numerals)
      ∧ List.Forall₂ (Numeral.Denotes 10 positionLimit) numerals path.positions := by
  rw [parse_eq_ok_positions, mapM_parse?_eq_some_iff]
  constructor
  · intro h
    refine ⟨(trim text.toList).splitOn '/', ?_, h⟩
    rw [List.intercalate_splitOn]
    exact trims_trim text.toList
  · rintro ⟨numerals, htrims, h⟩
    have hslash : ∀ numeral ∈ numerals, '/' ∉ numeral :=
      ((List.forall₂_and_left ..).mp (h.imp fun _ _ hn => ⟨slash_notMem hn, hn⟩)).1
    have hne : numerals ≠ [] := by
      rintro rfl
      cases h
    rw [trim_eq_iff.mpr htrims, List.splitOn_intercalate '/' hslash hne]
    exact h

/-! ## The text of a path -/

theorem isBlank_of_isDigit {c : Char} (h : c.isDigit = true) : isBlank c = false := by
  rw [Char.isDigit, Bool.and_eq_true, decide_eq_true_eq, decide_eq_true_eq] at h
  have hlow : 48 ≤ c.toNat := h.1
  have hhigh : c.toNat ≤ 57 := h.2
  simp only [isBlank, blankRanges, List.any_cons, List.any_nil, Bool.or_false, Bool.or_eq_false_iff,
    Bool.and_eq_false_iff, decide_eq_false_iff_not]
  omega

theorem notBlank_toText (path : Path) : ∀ c ∈ path.toText.toList, isBlank c = false := by
  intro c hc
  rw [toList_toText] at hc
  rcases mem_intercalate_cases hc with hc | ⟨numeral, hnumeral, hc⟩
  · obtain rfl := List.mem_singleton.mp hc
    decide
  · obtain ⟨n, -, rfl⟩ := List.mem_map.mp hnumeral
    exact isBlank_of_isDigit (Nat.isDigit_of_mem_toDigits (by decide) (by decide) hc)

theorem parse_toText {path : Path} (h : path.Fits) : parse path.toText = .ok path := by
  refine parse_eq_ok_numerals.mpr ⟨path.positions.map (Nat.toDigits 10), ?_, ?_⟩
  · rw [← toList_toText, ← trim_eq_iff]
    exact trim_of_forall (notBlank_toText path)
  · rw [List.forall₂_map_left_iff, List.forall₂_same]
    exact fun n hn => Numeral.denotes_toDigits (h n hn)

theorem fits_of_parse {text : String} {path : Path} (h : parse text = .ok path) : path.Fits := by
  obtain ⟨numerals, -, hnumerals⟩ := parse_eq_ok_numerals.mp h
  exact ((List.forall₂_and_left ..).mp (hnumerals.flip.imp fun _ _ hn => ⟨hn.1, hn⟩)).1

/-- **Paths and their texts.** The text of a path whose positions are below the limit is read as that
path. A text is read exactly if, without the blanks around it, it is a row of numerals with single
slashes between them, and the path read has a text that is read as the same path. -/
theorem parse_toText_and_isOk_iff (path : Path) (text : String) :
    (path.Fits → parse path.toText = .ok path)
      ∧ ((∃ read, parse text = .ok read) ↔ ∃ numerals : List (List Char), numerals ≠ []
          ∧ Trims text.toList (['/'].intercalate numerals)
          ∧ ∀ numeral ∈ numerals, ∃ n, Numeral.Denotes 10 positionLimit numeral n)
      ∧ (parse text = .ok path → parse path.toText = .ok path) := by
  refine ⟨parse_toText, ⟨?_, ?_⟩, fun h => parse_toText (fits_of_parse h)⟩
  · rintro ⟨read, hread⟩
    obtain ⟨numerals, htrims, hnumerals⟩ := parse_eq_ok_numerals.mp hread
    refine ⟨numerals, ?_, htrims, exists_forall₂_iff.mp ⟨_, hnumerals⟩⟩
    rintro rfl
    cases hnumerals
  · rintro ⟨numerals, hne, htrims, hnumerals⟩
    obtain ⟨positions, hpositions⟩ := exists_forall₂_iff.mpr hnumerals
    cases hpositions with
    | nil => exact absurd rfl hne
    | cons hroot hsteps => exact ⟨⟨_, _⟩, parse_eq_ok_numerals.mpr ⟨_, htrims, .cons hroot hsteps⟩⟩

/-- A path with the largest position there is, from a text with all that may be left out. -/
theorem parse_toText_and_isOk_iff_largest :
    Fits ⟨3, [0, 18446744073709551615]⟩
      ∧ parse "\u3000+003/0/0018446744073709551615\r\n" = .ok ⟨3, [0, 18446744073709551615]⟩
      ∧ parse (toText ⟨3, [0, 18446744073709551615]⟩) = .ok ⟨3, [0, 18446744073709551615]⟩ := by
  have hfits : Fits ⟨3, [0, 18446744073709551615]⟩ := by
    unfold Fits
    decide
  have hread : parse "\u3000+003/0/0018446744073709551615\r\n"
      = .ok ⟨3, [0, 18446744073709551615]⟩ := by
    decide +kernel
  obtain ⟨-, -, hagain⟩ := parse_toText_and_isOk_iff ⟨3, [0, 18446744073709551615]⟩
    "\u3000+003/0/0018446744073709551615\r\n"
  exact ⟨hfits, hread, hagain hread⟩

end ChunkArchive.Path
