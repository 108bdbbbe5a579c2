import ChunkArchive.Text.Basic
import Mathlib.Data.Nat.Digits.Defs
import Mathlib.Tactic

/-!
# What numerals denote

The value of a row of digits is defined without a reader, from `Nat.digitChar` and `Nat.ofDigits`.
Reading is exact for it: `parse?` accepts the numerals that denote a number below the limit, and no
other texts (`parse?_eq_some_iff`). Printed digits denote the number that was printed.
-/

set_option autoImplicit false

namespace ChunkArchive.Numeral

/-! ## Values -/

/-- The row of digits, each of either case, has the value `n`. -/
def HasValue (base : Nat) (digits : List Char) (n : Nat) : Prop :=
  ∃ values : List Nat, values ≠ [] ∧ (∀ v ∈ values, v < base)
    ∧ digits.map Char.toLower = values.map Nat.digitChar ∧ Nat.ofDigits base values.reverse = n

/-- The text is a row of digits, perhaps behind a plus sign, and its value `n` is below the limit.
There may be zeros in front. -/
def Denotes (base limit : Nat) (text : List Char) (n : Nat) : Prop :=
  n < limit ∧ ∃ digits, (text = digits ∨ text = '+' :: digits) ∧ HasValue base digits n

variable {base limit : Nat} {digits text : List Char}

theorem HasValue.ne_nil {n : Nat} (h : HasValue base digits n) : digits ≠ [] := by
  obtain ⟨values, hne, -, hdigits, -⟩ := h
  rintro rfl
  exact hne (List.map_eq_nil_iff.mp hdigits.symm)

/-- A character that is no digit of any base is not in the row. -/
theorem HasValue.notMem {n : Nat} (h : HasValue base digits n) {c : Char}
    (hc : ∀ v, c.toLower ≠ Nat.digitChar v) : c ∉ digits := by
  intro hmem
  obtain ⟨values, -, -, hdigits, -⟩ := h
  have hlower : c.toLower ∈ values.map Nat.digitChar := hdigits ▸ List.mem_map_of_mem hmem
  obtain ⟨v, -, hv⟩ := List.mem_map.mp hlower
  exact hc v hv.symm

/-! ## Digits -/

theorem toNat_lt_of_toLower {c : Char} {v : Nat} (hv : v < 16)
    (h : c.toLower = Nat.digitChar v) : c.toNat < 128 := by
  have hdigit : ∀ w < 16, (Nat.digitChar w).toNat < 128 := by decide
  have hlower := hdigit v hv
  rw [← h] at hlower
  unfold Char.toLower at hlower
  split at hlower
  case isTrue hupper => exact hupper.2.trans_lt (by decide)
  case isFalse => exact hlower

theorem toNat_lt_of_digit? {c : Char} {v : Nat} (h : digit? 16 c = some v) : c.toNat < 128 := by
  rw [digit?] at h
  split at h
  case isTrue hdigit =>
    rw [Char.isDigit, Bool.and_eq_true, decide_eq_true_eq, decide_eq_true_eq] at hdigit
    exact hdigit.2.trans_lt (by decide)
  case isFalse =>
    split at h
    case isTrue hlower =>
      have hle : c.toNat ≤ 'f'.toNat := hlower.2
      exact hle.trans_lt (by decide)
    case isFalse =>
      split at h
      case isTrue hupper =>
        have hle : c.toNat ≤ 'F'.toNat := hupper.2
        exact hle.trans_lt (by decide)
      case isFalse => cases h

theorem digit?_sixteen_eq_some_iff {c : Char} {v : Nat} (hv : v < 16) :
    digit? 16 c = some v ↔ c.toLower = Nat.digitChar v := by
  -- what is read as a digit, or written as one, is an ASCII character: these are gone through
  have hascii : ∀ k < 128, ∀ w < 16,
      digit? 16 (Char.ofNat k) = some w ↔ (Char.ofNat k).toLower = Nat.digitChar w := by
    decide +kernel
  have hc (hlt : c.toNat < 128) : digit? 16 c = some v ↔ c.toLower = Nat.digitChar v := by
    simpa using hascii c.toNat hlt v hv
  exact ⟨fun h => (hc (toNat_lt_of_digit? h)).mp h, fun h => (hc (toNat_lt_of_toLower hv h)).mpr h⟩

/-- A digit of a base up to sixteen, of either case. -/
theorem digit?_eq_some_iff (hbase : base ≤ 16) {c : Char} {v : Nat} :
    digit? base c = some v ↔ v < base ∧ c.toLower = Nat.digitChar v := by
  have hfilter : digit? base c = (digit? 16 c).filter (· < base) := by
    rw [digit?, digit?, Option.filter_filter]
    congr 1
    funext w
    simp only [← Bool.decide_and]
    congr 1
    exact propext ⟨fun h => ⟨h.trans_le hbase, h⟩, And.right⟩
  rw [hfilter, Option.filter_eq_some_iff, decide_eq_true_eq]
  constructor
  · rintro ⟨hread, hv⟩
    exact ⟨hv, (digit?_sixteen_eq_some_iff (hv.trans_le hbase)).mp hread⟩
  · rintro ⟨hv, hlower⟩
    exact ⟨(digit?_sixteen_eq_some_iff (hv.trans_le hbase)).mpr hlower, hv⟩

/-! ## Reading -/

theorem ofDigits_reverse_eq_foldl (values : List Nat) :
    Nat.ofDigits base values.reverse = values.foldl (fun value v => base * value + v) 0 := by
  rw [Nat.ofDigits_eq_foldr, List.foldr_reverse]
  simp only [Nat.cast_id, Nat.add_comm]

/-- The value read so far comes in front of the digits. -/
theorem digits?_eq_some_iff (hbase : base ≤ 16) {value n : Nat} :
    digits? base value digits = some n ↔ ∃ values : List Nat, (∀ v ∈ values, v < base)
      ∧ digits.map Char.toLower = values.map Nat.digitChar
      ∧ values.foldl (fun value v => base * value + v) value = n := by
  induction digits generalizing value with
  | nil =>
      rw [digits?, Option.some.injEq]
      constructor
      · rintro rfl
        exact ⟨[], by simp, rfl, rfl⟩
      · rintro ⟨values, -, hdigits, hn⟩
        obtain rfl : values = [] := List.map_eq_nil_iff.mp hdigits.symm
        exact hn
  | cons c digits ih =>
      rw [digits?, Option.bind_eq_some_iff]
      constructor
      · rintro ⟨v, hv, hrest⟩
        obtain ⟨hlt, hc⟩ := (digit?_eq_some_iff hbase).mp hv
        obtain ⟨values, hvalues, hdigits, hn⟩ := ih.mp hrest
        refine ⟨v :: values, List.forall_mem_cons.mpr ⟨hlt, hvalues⟩, ?_, hn⟩
        rw [List.map_cons, List.map_cons, hc, hdigits]
      · rintro ⟨values, hvalues, hdigits, hn⟩
        obtain ⟨v, values, rfl⟩ : ∃ v rest, values = v :: rest := by
          apply List.exists_cons_of_ne_nil
          rintro rfl
          cases hdigits
        rw [List.map_cons, List.map_cons, List.cons.injEq] at hdigits
        rw [List.forall_mem_cons] at hvalues
        exact ⟨v, (digit?_eq_some_iff hbase).mpr ⟨hvalues.1, hdigits.1⟩,
          ih.mpr ⟨values, hvalues.2, hdigits.2, hn⟩⟩

theorem isSome_digits? (value : Nat) :
    (digits? base value digits).isSome = digits.all fun c => (digit? base c).isSome := by
  induction digits generalizing value with
  | nil => rfl
  | cons c digits ih =>
      rw [digits?, List.all_cons]
      cases digit? base c with
      | none => rfl
      | some d => exact ih (base * value + d)

theorem hasValue_iff (hbase : base ≤ 16) {n : Nat} :
    HasValue base digits n ↔ digits ≠ [] ∧ digits? base 0 digits = some n := by
  rw [digits?_eq_some_iff hbase]
  constructor
  · intro h
    have hne := h.ne_nil
    obtain ⟨values, -, hvalues, hdigits, hn⟩ := h
    exact ⟨hne, values, hvalues, hdigits, by rw [← ofDigits_reverse_eq_foldl, hn]⟩
  · rintro ⟨hne, values, hvalues, hdigits, hn⟩
    refine ⟨values, ?_, hvalues, hdigits, by rw [ofDigits_reverse_eq_foldl, hn]⟩
    rintro rfl
    exact hne (List.map_eq_nil_iff.mp hdigits)

/-- Digits that are all of the base have a value. -/
theorem exists_hasValue_iff (hbase : base ≤ 16) : (∃ n, HasValue base digits n)
    ↔ digits ≠ [] ∧ digits.all (fun c => (digit? base c).isSome) = true := by
  simp only [hasValue_iff hbase, exists_and_left, ← isSome_digits? 0, Option.isSome_iff_exists]

theorem HasValue.lt {n : Nat} (hbase : 1 < base) (h : HasValue base digits n) :
    n < base ^ digits.length := by
  obtain ⟨values, -, hvalues, hdigits, rfl⟩ := h
  have hlength : digits.length = values.reverse.length := by
    simpa using congrArg List.length hdigits
  rw [hlength]
  exact Nat.ofDigits_lt_base_pow_length hbase fun v hv => hvalues v (List.mem_reverse.mp hv)

/-- A plus sign is no digit, so that what stands behind it can not be mistaken. -/
theorem not_hasValue_plus {n : Nat} : ¬ HasValue base ('+' :: digits) n := fun h =>
  h.notMem (by simp) List.mem_cons_self

theorem parse?_eq_some_iff (hbase : base ≤ 16) {n : Nat} :
    parse? base limit text = some n ↔ Denotes base limit text n := by
  have hparse (digits : List Char) :
      (if digits.isEmpty then none else (digits? base 0 digits).filter (· < limit)) = some n
        ↔ n < limit ∧ HasValue base digits n := by
    rw [hasValue_iff hbase]
    cases digits with
    | nil => simp
    | cons c digits =>
        simp [Option.filter_eq_some_iff, and_comm]
  -- one plus sign in front is dropped before the digits are read
  by_cases hplus : ∃ digits, text = '+' :: digits
  · obtain ⟨digits, rfl⟩ := hplus
    refine (hparse digits).trans ⟨fun h => ⟨h.1, digits, Or.inr rfl, h.2⟩, ?_⟩
    rintro ⟨hlt, row, rfl | htext, hvalue⟩
    · exact absurd hvalue not_hasValue_plus
    · obtain rfl : digits = row := (List.cons.inj htext).2
      exact ⟨hlt, hvalue⟩
  · have hread : parse? base limit text
        = if text.isEmpty then none else (digits? base 0 text).filter (· < limit) := by
      unfold parse?
      split
      case h_1 rest => exact absurd ⟨rest, rfl⟩ hplus
      case h_2 => rfl
    rw [hread, hparse text]
    refine ⟨fun h => ⟨h.1, text, Or.inl rfl, h.2⟩, ?_⟩
    rintro ⟨hlt, row, rfl | htext, hvalue⟩
    · exact ⟨hlt, hvalue⟩
    · exact absurd ⟨row, htext⟩ hplus

/-! ## Printing -/

theorem hasValue_toDigits (hbase : 1 < base) (hbase' : base ≤ 16) (n : Nat) :
    HasValue base (Nat.toDigits base n) n := by
  have hlower : ∀ v < 16, (Nat.digitChar v).toLower = Nat.digitChar v := by decide
  induction n using Nat.strong_induction_on with
  | _ n ih =>
      rw [Nat.toDigits_eq_if hbase]
      split
      case isTrue hlt =>
        refine ⟨[n], by simp, by simpa using hlt, ?_, by simp⟩
        rw [List.map_singleton, List.map_singleton, hlower n (hlt.trans_le hbase')]
      case isFalse hle =>
        have hpos : 0 < n := by omega
        obtain ⟨values, -, hvalues, hdigits, hvalue⟩ := ih (n / base) (Nat.div_lt_self hpos hbase)
        have hlast : n % base < base := Nat.mod_lt n (by omega)
        refine ⟨values ++ [n % base], by simp, ?_, ?_, ?_⟩
        · intro v hv
          rcases List.mem_append.mp hv with hv | hv
          · exact hvalues v hv
          · rwa [List.mem_singleton.mp hv]
        · rw [List.map_append, List.map_append, hdigits, List.map_singleton, List.map_singleton,
            hlower _ (hlast.trans_le hbase')]
        · rw [List.reverse_append, List.reverse_singleton, List.singleton_append,
            Nat.ofDigits_cons, hvalue]
          exact Nat.mod_add_div n base

theorem denotes_toDigits {n : Nat} (h : n < limit) : Denotes 10 limit (Nat.toDigits 10 n) n :=
  ⟨h, _, Or.inl rfl, hasValue_toDigits (by decide) (by decide) n⟩

end ChunkArchive.Numeral
