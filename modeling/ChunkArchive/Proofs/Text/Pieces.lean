import ChunkArchive.Text.Basic
import Mathlib.Data.List.TakeWhile
import Mathlib.Tactic

/-!
# Trimmed texts, pieces and lines

What trimming leaves of a text is determined by what it takes away: blanks at either end, and all of
them (`trim_eq_iff`). The pieces between separators are those of `List.splitOn`, and the first two are
told apart by the first separator (`splitOnce?_eq_some_iff`). Lines are the pieces between line feeds
but for a carriage return at the end and an empty last one (`exists_lines_eq`).
-/

set_option autoImplicit false

namespace ChunkArchive.Text

/-! ## Trimmed texts -/

/-- What is left of the text without the blanks at either end. -/
structure Trims (text middle : List Char) : Prop where
  around : ∃ front behind, text = front ++ middle ++ behind
    ∧ (∀ c ∈ front, isBlank c = true) ∧ ∀ c ∈ behind, isBlank c = true
  head : ∀ c, middle.head? = some c → isBlank c = false
  last : ∀ c, middle.getLast? = some c → isBlank c = false

variable {text middle behind : List Char}

theorem head?_dropWhile_isBlank {c : Char} (h : (text.dropWhile isBlank).head? = some c) :
    isBlank c = false := by
  have hnot := List.head?_dropWhile_not isBlank text
  rw [h] at hnot
  simpa using hnot

theorem exists_append_dropWhile_isBlank (text : List Char) :
    ∃ front, text = front ++ text.dropWhile isBlank ∧ ∀ c ∈ front, isBlank c = true :=
  ⟨text.takeWhile isBlank, List.takeWhile_append_dropWhile.symm, fun _ => List.mem_takeWhile_imp⟩

theorem trims_trim (text : List Char) : Trims text (trim text) := by
  obtain ⟨front, htext, hfront⟩ := exists_append_dropWhile_isBlank text
  obtain ⟨behind, hrest, hbehind⟩ :=
    exists_append_dropWhile_isBlank (text.dropWhile isBlank).reverse
  have hmiddle : text.dropWhile isBlank = trim text ++ behind.reverse := by
    rw [← List.reverse_inj, List.reverse_append, List.reverse_reverse, trim, List.reverse_reverse]
    exact hrest
  constructor
  · refine ⟨front, behind.reverse, ?_, hfront, fun c hc => hbehind c (List.mem_reverse.mp hc)⟩
    rw [List.append_assoc, ← hmiddle]
    exact htext
  · intro c hc
    have hhead : (text.dropWhile isBlank).head? = some c := by
      rw [hmiddle, List.head?_append]
      exact Option.or_eq_some_iff.mpr (Or.inl hc)
    exact head?_dropWhile_isBlank hhead
  · intro c hc
    rw [trim, List.getLast?_reverse] at hc
    exact head?_dropWhile_isBlank hc

/-- Blanks in front of a text that begins with none, or of nothing, are dropped. -/
theorem dropWhile_blanks {front : List Char} (hfront : ∀ c ∈ front, isBlank c = true)
    (htext : ∀ c, text.head? = some c → isBlank c = false) :
    (front ++ text).dropWhile isBlank = text := by
  rw [List.dropWhile_append_of_pos hfront]
  cases text with
  | nil => rfl
  | cons c text => exact List.dropWhile_cons_of_neg (by simp [htext c rfl])

theorem trim_eq_iff : trim text = middle ↔ Trims text middle := by
  constructor
  · rintro rfl
    exact trims_trim text
  · rintro ⟨⟨front, behind, rfl, hfront, hbehind⟩, hhead, hlast⟩
    rw [trim, List.append_assoc]
    cases middle with
    -- where nothing is left, all of the text is dropped from the front
    | nil =>
        have hall : ∀ c ∈ front ++ ([] ++ behind), isBlank c = true := by
          intro c hc
          exact (List.mem_append.mp hc).elim (hfront c) (hbehind c)
        rw [List.dropWhile_eq_nil_iff.mpr hall]
        rfl
    | cons c middle =>
        have hbody : ∀ d, ((c :: middle) ++ behind).head? = some d → isBlank d = false := hhead
        rw [dropWhile_blanks hfront hbody, List.reverse_append, dropWhile_blanks, List.reverse_reverse]
        · simpa using hbehind
        · intro d hd
          exact hlast d (by rwa [← List.head?_reverse])

/-- A text without any blanks is trimmed. -/
theorem trim_of_forall (h : ∀ c ∈ text, isBlank c = false) : trim text = text :=
  trim_eq_iff.mpr ⟨⟨[], [], by simp, by simp, by simp⟩, fun c hc => h c (List.mem_of_mem_head? hc),
    fun c hc => h c (List.mem_of_getLast? hc)⟩

theorem trim_append_blanks (h : ∀ c ∈ behind, isBlank c = true) :
    trim (text ++ behind) = trim text := by
  obtain ⟨⟨front, rest, htext, hfront, hrest⟩, hhead, hlast⟩ := trims_trim text
  refine trim_eq_iff.mpr ⟨⟨front, rest ++ behind, ?_, hfront, ?_⟩, hhead, hlast⟩
  · rw [← List.append_assoc, ← htext]
  · intro c hc
    exact (List.mem_append.mp hc).elim (hrest c) (h c)

theorem Trims.mem {c : Char} (h : Trims text middle) (hc : c ∈ middle) : c ∈ text := by
  obtain ⟨front, behind, rfl, -, -⟩ := h.around
  simp [hc]

/-! ## Pieces -/

variable {separator : Char}

theorem splitOnce?_append_cons {before after : List Char} (h : separator ∉ before) :
    splitOnce? separator (before ++ separator :: after) = some (before, after) := by
  have hbefore : ∀ c ∈ before, decide (c ≠ separator) = true := by
    intro c hc
    exact decide_eq_true fun heq => h (heq ▸ hc)
  have hdrop : (before ++ separator :: after).dropWhile (· ≠ separator) = separator :: after := by
    rw [List.dropWhile_append_of_pos hbefore, List.dropWhile_cons_of_neg (by simp)]
  have htake : (before ++ separator :: after).takeWhile (· ≠ separator) = before := by
    rw [List.takeWhile_append_of_pos hbefore, List.takeWhile_cons_of_neg (by simp), List.append_nil]
  rw [splitOnce?, hdrop, htake]

theorem splitOnce?_of_notMem (h : separator ∉ text) : splitOnce? separator text = none := by
  have hdrop : text.dropWhile (· ≠ separator) = [] := by
    rw [List.dropWhile_eq_nil_iff]
    intro c hc
    exact decide_eq_true fun heq => h (heq ▸ hc)
  rw [splitOnce?, hdrop]

theorem splitOnce?_eq_some_iff {before after : List Char} :
    splitOnce? separator text = some (before, after)
      ↔ text = before ++ separator :: after ∧ separator ∉ before := by
  constructor
  · intro h
    by_cases hmem : separator ∈ text
    · obtain ⟨front, rest, rfl, hfront⟩ := List.eq_append_cons_of_mem hmem
      rw [splitOnce?_append_cons hfront] at h
      cases h
      exact ⟨rfl, hfront⟩
    · rw [splitOnce?_of_notMem hmem] at h
      cases h
  · rintro ⟨rfl, hbefore⟩
    exact splitOnce?_append_cons hbefore

/-! ## Lines -/

/-- Every piece in front of a line feed is a line, without the carriage return that it may end in. The
piece behind the last line feed is a line if it is not empty. -/
theorem exists_lines_eq (text : List Char) : ∃ ended last,
    text.splitOn '\n' = ended ++ [last]
      ∧ lines text = ended.map dropReturn ++ if last = [] then [] else [last] := by
  have hne := List.splitOn_ne_nil '\n' text
  refine ⟨(text.splitOn '\n').dropLast, (text.splitOn '\n').getLast hne,
    (List.dropLast_append_getLast hne).symm, ?_⟩
  rw [lines]
  simp only [List.getLast?_eq_some_getLast hne]
  cases h : (text.splitOn '\n').getLast hne with
  | nil => simp
  | cons c rest => simp

end ChunkArchive.Text
