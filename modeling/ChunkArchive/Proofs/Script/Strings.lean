import ChunkArchive.Proofs.Bytes
import ChunkArchive.Script.Module

/-!
# The strings of a module

A string table is read in two ways. The list of a module's strings splits the whole table at its zero
bytes, while an instruction names the offset at which a string begins and reads on to the next zero
byte. `ScriptData.strings_eq_stringAt` says that the two agree: a string of the list is found at the
offset where its piece begins.
-/

set_option autoImplicit false

namespace ChunkArchive

/-! ## Pieces and where they begin -/

namespace Bytes

/-- The offset at which piece `k` begins: behind the earlier pieces, each with its zero byte. -/
def pieceOffset (pieces : List Bytes) (k : Nat) : Nat :=
  ((pieces.take k).map fun piece => piece.length + 1).sum

@[simp] theorem pieceOffset_zero (pieces : List Bytes) : pieceOffset pieces 0 = 0 := by
  simp [pieceOffset]

@[simp] theorem pieceOffset_cons_succ (piece : Bytes) (pieces : List Bytes) (k : Nat) :
    pieceOffset (piece :: pieces) (k + 1) = piece.length + 1 + pieceOffset pieces k := by
  simp [pieceOffset]

/-- From the offset where it begins, a piece reaches to the next zero byte or to the end. -/
theorem takeWhile_drop_pieceOffset {bytes behind : Bytes} (hbehind : behind = [] ∨ behind = [0])
    {k : Nat} {piece : Bytes} (h : (bytes.splitOn 0)[k]? = some piece) :
    ((bytes ++ behind).drop (pieceOffset (bytes.splitOn 0) k)).takeWhile (· ≠ 0) = piece := by
  induction bytes generalizing k piece with
  | nil =>
      -- there is only the empty piece
      cases k with
      | zero =>
          obtain rfl : [] = piece := by simpa using h
          rcases hbehind with rfl | rfl <;> rfl
      | succ k => simp at h
  | cons b bytes ih =>
      rw [List.splitOn_cons_eq_if_modifyHead] at h ⊢
      by_cases hb : b = 0
      · -- a zero byte ends an empty piece, behind which the others are as before
        rw [if_pos (by simp [hb])] at h ⊢
        cases k with
        | zero =>
            obtain rfl : [] = piece := by simpa using h
            simp [hb]
        | succ k =>
            have hoffset : pieceOffset ([] :: bytes.splitOn 0) (k + 1)
                = pieceOffset (bytes.splitOn 0) k + 1 := by
              rw [pieceOffset_cons_succ, List.length_nil]
              omega
            rw [hoffset, List.cons_append, List.drop_succ_cons]
            exact ih (by simpa using h)
      · -- another byte makes the first piece longer and moves the others
        obtain ⟨first, others, hsplit⟩ :=
          List.exists_cons_of_ne_nil (List.splitOn_ne_nil (0 : UInt8) bytes)
        rw [hsplit] at ih
        rw [if_neg (by simp [hb]), hsplit, List.modifyHead_cons] at h ⊢
        cases k with
        | zero =>
            have hfirst : ((bytes ++ behind).drop (pieceOffset (first :: others) 0)).takeWhile
                (· ≠ 0) = first := ih rfl
            obtain rfl : b :: first = piece := by simpa using h
            rw [pieceOffset_zero, List.drop_zero] at hfirst ⊢
            rw [List.cons_append, List.takeWhile_cons_of_pos (by simp [hb]), hfirst]
        | succ k =>
            have hoffset : pieceOffset ((b :: first) :: others) (k + 1)
                = pieceOffset (first :: others) (k + 1) + 1 := by
              rw [pieceOffset_cons_succ, pieceOffset_cons_succ, List.length_cons]
              omega
            rw [hoffset, List.cons_append, List.drop_succ_cons]
            exact ih (by simpa using h)

/-- The bytes without the zero byte at their end, if there is one. -/
def dropLastZero (bytes : Bytes) : Bytes :=
  if bytes.getLast? = some 0 then bytes.dropLast else bytes

theorem exists_dropLastZero_append (bytes : Bytes) :
    ∃ behind, bytes = bytes.dropLastZero ++ behind ∧ (behind = [] ∨ behind = [0]) := by
  unfold dropLastZero
  by_cases hlast : bytes.getLast? = some 0
  · rw [if_pos hlast]
    exact ⟨[0], (List.dropLast_append_getLast? 0 hlast).symm, Or.inr rfl⟩
  · rw [if_neg hlast]
    exact ⟨[], (List.append_nil bytes).symm, Or.inl rfl⟩

end Bytes

/-! ## The two ways -/

namespace ScriptData

/-- **The list of strings and the strings that are fetched agree.** The table, without a zero byte at
its end, is split at every zero byte. The list has the pieces in order, read as UTF-8 with
replacements where they are ill-formed, and fetching a string at the offset where a piece begins gives
the same. The empty table and the single zero byte have one empty piece but no strings. -/
theorem strings_eq_stringAt (d : ScriptData) (hempty : d.stringTable ≠ [])
    (hzero : d.stringTable ≠ [0]) :
    let pieces := (Bytes.dropLastZero d.stringTable).splitOn 0
    d.strings.length = pieces.length
      ∧ ∀ k piece, pieces[k]? = some piece →
          d.strings[k]? = some (Utf8.decodeLossy piece)
            ∧ d.strings[k]? = some (stringAt d.stringTable (Bytes.pieceOffset pieces k)) := by
  intro pieces
  obtain ⟨behind, htable, hbehind⟩ := Bytes.exists_dropLastZero_append d.stringTable
  have hne : Bytes.dropLastZero d.stringTable ≠ [] := by
    intro hnil
    rw [hnil, List.nil_append] at htable
    rcases hbehind with rfl | rfl
    · exact hempty htable
    · exact hzero htable
  have hstrings : d.strings = pieces.map Utf8.decodeLossy := by
    show (if (Bytes.dropLastZero d.stringTable).isEmpty then []
      else ((Bytes.dropLastZero d.stringTable).splitOn 0).map Utf8.decodeLossy) = _
    rw [if_neg (by simpa using hne)]
  refine ⟨by rw [hstrings, List.length_map], fun k piece hpiece => ?_⟩
  have hentry : d.strings[k]? = some (Utf8.decodeLossy piece) := by
    rw [hstrings, List.getElem?_map, hpiece]
    rfl
  have hfetch : stringAt d.stringTable (Bytes.pieceOffset pieces k) = Utf8.decodeLossy piece := by
    have hscan := Bytes.takeWhile_drop_pieceOffset hbehind hpiece
    rw [← htable] at hscan
    rw [stringAt, hscan]
  exact ⟨hentry, by rw [hfetch, hentry]⟩

/-- A string, two empty ones, one with a byte that is no UTF-8, and an empty one at the end. -/
theorem strings_eq_stringAt_illFormed :
    let table : Bytes := [0x61, 0x62, 0, 0, 0, 0x63, 0xFF, 0, 0]
    let d : ScriptData := ⟨0, #[], [], table, [], 9, 0⟩
    table ≠ [] ∧ table ≠ [0]
      ∧ d.strings = ["ab", "", "", "c\uFFFD", ""]
      ∧ d.strings[3]? = some (stringAt table 5) ∧ d.strings[4]? = some (stringAt table 8) := by
  intro table d
  have hempty : table ≠ [] := by decide
  have hzero : table ≠ [0] := by decide
  obtain ⟨-, hfetch⟩ := strings_eq_stringAt d hempty hzero
  refine ⟨hempty, hzero, by decide +kernel, ?_, ?_⟩
  · exact (hfetch 3 [0x63, 0xFF] (by decide)).2
  · exact (hfetch 4 [] (by decide)).2

end ScriptData

end ChunkArchive
