import ChunkArchive.Proofs.Lists
import ChunkArchive.Proofs.Text.Numeral
import ChunkArchive.Proofs.Text.Pieces
import ChunkArchive.Single
import ChunkArchive.Text.Quoted

/-!
# Texts on one line

A text without a line feed stays on the line that it is written on. Numbers in all their forms are
such texts, and so is whatever stands between quotes. A list of such texts, each ended by a line feed,
has the texts for its lines (`splitOn_lines`).
-/

set_option autoImplicit false

namespace ChunkArchive.Text

def OneLine (text : String) : Prop := '\n' ∉ text.toList

instance (text : String) : Decidable (OneLine text) := inferInstanceAs (Decidable (¬ _))

theorem OneLine.append {a b : String} (ha : OneLine a) (hb : OneLine b) : OneLine (a ++ b) := by
  rw [OneLine, String.toList_append, List.mem_append]
  exact not_or.mpr ⟨ha, hb⟩

theorem OneLine.between {a b c : String} (ha : OneLine a) (hb : OneLine b) (hc : OneLine c) :
    OneLine (a ++ b ++ c) :=
  (ha.append hb).append hc

theorem oneLine_intercalate {separator : String} (hseparator : OneLine separator)
    {items : List String} (h : ∀ item ∈ items, OneLine item) :
    OneLine (separator.intercalate items) := by
  rw [OneLine, String.toList_intercalate]
  intro hmem
  rcases mem_intercalate_cases hmem with hmem | ⟨piece, hpiece, hmem⟩
  · exact hseparator hmem
  · obtain ⟨item, hitem, rfl⟩ := List.mem_map.mp hpiece
    exact h item hitem hmem

/-! ## Numbers -/

theorem newline_notMem_toDigits {base : Nat} (hbase : 1 < base) (hbase' : base ≤ 16) (n : Nat) :
    '\n' ∉ Nat.toDigits base n :=
  (Numeral.hasValue_toDigits hbase hbase' n).notMem (by simp)

theorem newline_notMem_decimal (n : Nat) : '\n' ∉ Nat.toDigits 10 n :=
  newline_notMem_toDigits (by decide) (by decide) n

theorem oneLine_nat (n : Nat) : OneLine (toString n) := by
  rw [OneLine, Nat.toString_eq_repr, Nat.toList_repr]
  exact newline_notMem_decimal n

theorem oneLine_int (n : Int) : OneLine (toString n) := by
  cases n with
  | ofNat n => exact oneLine_nat n
  | negSucc n => exact OneLine.append (by decide) (oneLine_nat (n + 1))

/-- A letter in upper case is no line feed. -/
theorem toUpper_ne_newline {c : Char} (h : c ≠ '\n') : c.toUpper ≠ '\n' := by
  intro hupper
  unfold Char.toUpper at hupper
  split at hupper
  case isTrue hlower =>
    have hval := congrArg (fun d : Char => d.val.toNat) hupper
    have hlow : 97 ≤ c.val.toNat := hlower.1
    have hhigh : c.val.toNat ≤ 122 := hlower.2
    simp only [UInt32.toNat_add] at hval
    change (c.val.toNat + 4294967264) % 4294967296 = 10 at hval
    omega
  case isFalse => exact h hupper

theorem oneLine_hex (width n : Nat) : OneLine (Numeral.hex width n) := by
  rw [OneLine, Numeral.hex, String.toList_ofList, List.mem_append, not_or]
  constructor
  · rw [List.mem_replicate, not_and]
    exact fun _ => by decide
  · rw [List.mem_map]
    rintro ⟨c, hc, hupper⟩
    have hnewline : c ≠ '\n' := by
      rintro rfl
      exact newline_notMem_toDigits (by decide) (by decide) n hc
    exact toUpper_ne_newline hnewline hupper

theorem oneLine_prefixedHex (width n : Nat) : OneLine (Numeral.prefixedHex width n) :=
  OneLine.append (by decide) (oneLine_hex width n)

/-! ### Numbers with a fraction -/

theorem newline_notMem_shortest (tie : Decimal.Tie) (b : Decimal.Binary) :
    '\n' ∉ (Decimal.shortest tie b).digits := by
  intro hmem
  rw [Decimal.shortest, List.mem_reverse] at hmem
  have hdigits := List.mem_reverse.mp ((List.dropWhile_sublist _).mem hmem)
  exact newline_notMem_decimal _ hdigits

theorem newline_notMem_exponent (layout : Decimal.Layout) (e : Int) :
    '\n' ∉ layout.exponent e := by
  rw [Decimal.Layout.exponent, List.mem_append, not_or]
  refine ⟨?_, oneLine_int e⟩
  split <;> decide

theorem oneLine_write (layout : Decimal.Layout) {x : Decimal.Digits} (h : '\n' ∉ x.digits) :
    OneLine (layout.write x) := by
  have htake (n : Nat) : '\n' ∉ x.digits.take n := fun hmem => h (List.mem_of_mem_take hmem)
  have hdrop (n : Nat) : '\n' ∉ x.digits.drop n := fun hmem => h (List.mem_of_mem_drop hmem)
  have hexponent := newline_notMem_exponent layout (x.point - 1)
  have hzeros (n : Nat) : '\n' ∉ List.replicate n '0' := by simp
  rw [OneLine, Decimal.Layout.write, String.toList_ofList]
  split
  · split
    · simp [hzeros, h]
    · simp only [List.mem_append, List.mem_cons, not_or]
      refine ⟨⟨htake _, hzeros _⟩, by decide, ?_⟩
      split
      · decide
      · exact hdrop _
  · simp only [List.mem_append, List.mem_cons, not_or]
    refine ⟨⟨htake _, ?_⟩, by decide, hexponent⟩
    split
    · exact List.not_mem_nil
    · rw [List.mem_cons, not_or]
      exact ⟨by decide, hdrop _⟩

theorem oneLine_single (x : Single) : OneLine x.text := by
  have hsign : OneLine x.signText := by
    unfold Single.signText
    split <;> decide
  unfold Single.text
  split
  · decide
  · split
    · exact hsign.append (by decide)
    · split
      · exact hsign.append (by decide)
      · exact hsign.append (oneLine_write _ (newline_notMem_shortest _ _))

/-! ## Quoted texts -/

/-- No character is written as a line feed, and the line feed least of all. -/
theorem newline_notMem_quoteChar (c : Char) : '\n' ∉ quoteChar c := by
  unfold quoteChar
  split
  -- a character without an escape of its own, shown as it is or by its code point
  case h_7 hnewline _ _ =>
    have hne : '\n' ≠ c := fun h => hnewline h.symm
    split
    · simpa using hne
    · split
      · simp [newline_notMem_toDigits]
      · simpa using hne
  all_goals decide

theorem oneLine_quote (text : String) : OneLine (quote text) := by
  rw [OneLine, quote, String.toList_ofList]
  simp [newline_notMem_quoteChar]

/-! ## Lines -/

theorem splitOn_lines {lines : List String} (h : ∀ line ∈ lines, OneLine line) :
    (String.join (lines.map fun line => line ++ "\n")).toList.splitOn '\n'
      = lines.map String.toList ++ [[]] := by
  rw [String.toList_join]
  induction lines with
  | nil => rfl
  | cons line lines ih =>
      rw [List.forall_mem_cons] at h
      have hline : (line ++ "\n").toList = line.toList ++ ['\n'] := String.toList_append
      rw [List.map_cons, List.flatMap_cons, hline, List.append_assoc, List.singleton_append,
        List.splitOn_append_cons_self_of_not_mem h.1, ih h.2]
      rfl

theorem count_newline_lines {lines : List String} (h : ∀ line ∈ lines, OneLine line) :
    (String.join (lines.map fun line => line ++ "\n")).toList.count '\n' = lines.length := by
  rw [String.toList_join]
  induction lines with
  | nil => rfl
  | cons line lines ih =>
      rw [List.forall_mem_cons] at h
      have hline : (line ++ "\n").toList.count '\n' = 1 := by
        rw [String.toList_append, List.count_append, List.count_eq_zero.mpr h.1]
        rfl
      rw [List.map_cons, List.flatMap_cons, List.count_append, hline, ih h.2, List.length_cons]
      omega

end ChunkArchive.Text
