import ChunkArchive.NameTable
import ChunkArchive.Proofs.Lists
import ChunkArchive.Proofs.Text.Numeral
import ChunkArchive.Proofs.Text.Pieces
import Mathlib.Data.Set.Card

/-!
# What a name table says

`Entry line hash name` says that a line names a hash, without a reader: by the first colon in it, the
blanks around its two parts and the numeral in front. A table has for every hash the name of the last
line that names it, and nothing else (`NameTable.get?_parse_and_size`). A carriage return at the
end of a line is a blank, so that it does not matter which of the two line ends a text has.
-/

set_option autoImplicit false

namespace ChunkArchive

open Text

namespace NameTable

/-! ## Lines -/

/-- Eight hexadecimal digits and nothing else. -/
def IsBare (numeral : List Char) : Prop :=
  numeral.length = 8 ∧ ∃ n, Numeral.HasValue 16 numeral n

/-- What a numeral says about a hash: it is hexadecimal behind `0x` or `0X` and where it is bare, and
decimal otherwise. -/
inductive Denotes : List Char → Nat → Prop
  | prefixed {x : Char} {digits : List Char} {n : Nat} (hx : x = 'x' ∨ x = 'X')
      (h : Numeral.Denotes 16 0x100000000 digits n) : Denotes ('0' :: x :: digits) n
  | bare {numeral : List Char} {n : Nat} (hlength : numeral.length = 8)
      (h : Numeral.HasValue 16 numeral n) : Denotes numeral n
  | decimal {numeral : List Char} {n : Nat} (hbare : ¬ IsBare numeral)
      (h : Numeral.Denotes 10 0x100000000 numeral n) : Denotes numeral n

/-- The line names the hash: in front of its first colon there is a numeral for it, behind it there
is the name, and both may have blanks around them. -/
def Entry (line : List Char) (hash : UInt32) (name : String) : Prop :=
  ∃ before behind numeral, line = before ++ ':' :: behind ∧ ':' ∉ before
    ∧ Trims before numeral ∧ Denotes numeral hash.toNat ∧ Trims behind name.toList

/-- The line names the hash in some way. -/
def Names (line : List Char) (hash : UInt32) : Prop := ∃ name, Entry line hash name

/-! ## Reading a line -/

/-- An `x` is a digit of no base. -/
theorem not_hasValue_of_mem {x : Char} (hx : x = 'x' ∨ x = 'X') {base : Nat} {digits : List Char}
    {n : Nat} (hmem : x ∈ digits) : ¬ Numeral.HasValue base digits n := by
  intro h
  refine h.notMem ?_ hmem
  rcases hx with rfl | rfl <;> simp

theorem denotes_prefixed_iff {x : Char} (hx : x = 'x' ∨ x = 'X') {digits : List Char} {n : Nat} :
    Denotes ('0' :: x :: digits) n ↔ Numeral.Denotes 16 0x100000000 digits n := by
  refine ⟨fun h => ?_, .prefixed hx⟩
  generalize hnumeral : '0' :: x :: digits = numeral at h
  cases h with
  | prefixed hx' h =>
      cases hnumeral
      exact h
  | bare hlength h =>
      subst hnumeral
      exact absurd h (not_hasValue_of_mem hx (by simp))
  | decimal hbare h =>
      obtain ⟨-, row, rfl | hplus, hvalue⟩ := h
      · subst hnumeral
        exact absurd hvalue (not_hasValue_of_mem hx (by simp))
      · rw [← hnumeral] at hplus
        cases hplus

theorem isBare_iff {numeral : List Char} : IsBare numeral
    ↔ numeral.length = 8 ∧ numeral.all (fun c => (Numeral.digit? 16 c).isSome) = true := by
  rw [IsBare, Numeral.exists_hasValue_iff (by decide)]
  refine and_congr_right fun hlength => and_iff_right ?_
  rintro rfl
  cases hlength

theorem denotes_iff {numeral : List Char}
    (hx : ∀ x digits, numeral = '0' :: x :: digits → x ≠ 'x' ∧ x ≠ 'X') {n : Nat} :
    Denotes numeral n ↔ (IsBare numeral ∧ Numeral.HasValue 16 numeral n)
      ∨ (¬ IsBare numeral ∧ Numeral.Denotes 10 0x100000000 numeral n) := by
  constructor
  · intro h
    cases h with
    | prefixed hx' h =>
        obtain ⟨hlower, hupper⟩ := hx _ _ rfl
        exact absurd hx' (not_or.mpr ⟨hlower, hupper⟩)
    | bare hlength h => exact Or.inl ⟨⟨hlength, n, h⟩, h⟩
    | decimal hbare h => exact Or.inr ⟨hbare, h⟩
  · rintro (⟨hbare, h⟩ | ⟨hbare, h⟩)
    · exact .bare hbare.1 h
    · exact .decimal hbare h

/-- Numbers below the limit are those of 32 bits. -/
theorem map_parse?_eq_some_iff {base : Nat} (hbase : base ≤ 16) {digits : List Char}
    {hash : UInt32} : (Numeral.parse? base 0x100000000 digits).map UInt32.ofNat = some hash
      ↔ Numeral.Denotes base 0x100000000 digits hash.toNat := by
  rw [Option.map_eq_some_iff]
  constructor
  · rintro ⟨n, hread, rfl⟩
    have hdenotes := (Numeral.parse?_eq_some_iff hbase).mp hread
    rwa [UInt32.toNat_ofNat_of_lt' hdenotes.1]
  · intro h
    exact ⟨hash.toNat, (Numeral.parse?_eq_some_iff hbase).mpr h, UInt32.ofNat_toNat⟩

/-- Eight digits need no sign and never lead beyond the limit. -/
theorem hasValue_iff_of_isBare {numeral : List Char} (hbare : IsBare numeral) {n : Nat} :
    Numeral.HasValue 16 numeral n ↔ Numeral.Denotes 16 0x100000000 numeral n := by
  obtain ⟨hlength, m, hm⟩ := hbare
  constructor
  · intro h
    have hlt := h.lt (by decide)
    rw [hlength] at hlt
    exact ⟨hlt, numeral, Or.inl rfl, h⟩
  · rintro ⟨-, row, rfl | rfl, h⟩
    · exact h
    · exact absurd hm Numeral.not_hasValue_plus

theorem hash?_eq_some_iff {numeral : List Char} {hash : UInt32} :
    hash? numeral = some hash ↔ Denotes numeral hash.toNat := by
  unfold hash?
  split
  case h_1 digits =>
    rw [denotes_prefixed_iff (Or.inl rfl)]
    exact map_parse?_eq_some_iff (by decide)
  case h_2 digits =>
    rw [denotes_prefixed_iff (Or.inr rfl)]
    exact map_parse?_eq_some_iff (by decide)
  case h_3 hlower hupper =>
    rw [denotes_iff fun x digits h => ⟨fun hx => hlower digits (hx ▸ h), fun hx =>
      hupper digits (hx ▸ h)⟩]
    -- without a prefix the numeral is hexadecimal exactly if it is bare
    by_cases hbare : IsBare numeral
    · simp only [hbare, not_true_eq_false, false_and, or_false, true_and]
      rw [if_pos (isBare_iff.mp hbare), hasValue_iff_of_isBare hbare]
      exact map_parse?_eq_some_iff (by decide)
    · simp only [hbare, not_false_eq_true, false_and, false_or, true_and]
      rw [if_neg (mt isBare_iff.mpr hbare)]
      exact map_parse?_eq_some_iff (by decide)

theorem entry?_eq_some_iff {line : List Char} {hash : UInt32} {name : String} :
    entry? line = some (hash, name) ↔ Entry line hash name := by
  unfold entry?
  rw [Option.bind_eq_some_iff]
  constructor
  · rintro ⟨⟨before, behind⟩, hsplit, hentry⟩
    obtain ⟨rfl, hcolon⟩ := splitOnce?_eq_some_iff.mp hsplit
    obtain ⟨read, hread, hpair⟩ := Option.map_eq_some_iff.mp hentry
    cases hpair
    refine ⟨before, behind, trim before, rfl, hcolon, trims_trim before,
      hash?_eq_some_iff.mp hread, ?_⟩
    rw [String.toList_ofList]
    exact trims_trim behind
  · rintro ⟨before, behind, numeral, rfl, hcolon, hnumeral, hdenotes, hname⟩
    refine ⟨(before, behind), splitOnce?_eq_some_iff.mpr ⟨rfl, hcolon⟩, ?_⟩
    rw [Option.map_eq_some_iff]
    refine ⟨hash, ?_, ?_⟩
    · rw [trim_eq_iff.mpr hnumeral]
      exact hash?_eq_some_iff.mpr hdenotes
    · rw [trim_eq_iff.mpr hname, String.ofList_toList]

/-- A carriage return is one of the blanks behind the name. -/
theorem entry?_append_return (line : List Char) : entry? (line ++ ['\r']) = entry? line := by
  unfold entry?
  by_cases hcolon : ':' ∈ line
  · obtain ⟨before, behind, rfl, hbefore⟩ := List.eq_append_cons_of_mem hcolon
    have hblank : ∀ c ∈ ['\r'], isBlank c = true := List.forall_mem_singleton.mpr (by decide)
    rw [List.append_assoc, List.cons_append, splitOnce?_append_cons hbefore,
      splitOnce?_append_cons hbefore]
    simp only [Option.bind_some, trim_append_blanks hblank]
  · have hreturn : ':' ∉ line ++ ['\r'] := by
      rw [List.mem_append, not_or]
      exact ⟨hcolon, by decide⟩
    rw [splitOnce?_of_notMem hcolon, splitOnce?_of_notMem hreturn]

theorem entry?_dropReturn (line : List Char) : entry? (dropReturn line) = entry? line := by
  rw [dropReturn]
  split
  case isTrue hreturn =>
    rw [← entry?_append_return, List.dropLast_append_getLast? _ hreturn]
  case isFalse => rfl

/-- The lines of a text and the pieces between its line feeds have the same entries. -/
theorem filterMap_entry?_lines (text : List Char) :
    (lines text).filterMap entry? = (text.splitOn '\n').filterMap entry? := by
  obtain ⟨ended, last, hpieces, hlines⟩ := exists_lines_eq text
  have hended : (ended.map dropReturn).filterMap entry? = ended.filterMap entry? := by
    rw [List.filterMap_map]
    exact congrArg (List.filterMap · ended) (funext entry?_dropReturn)
  rw [hpieces, hlines, List.filterMap_append, List.filterMap_append, hended]
  split
  case isTrue hempty => rw [hempty]; rfl
  case isFalse => rfl

/-! ## The table -/

/-- The name that a line gives to the hash, if it gives it one. -/
def nameIn? (hash : UInt32) (line : List Char) : Option String :=
  match entry? line with
  | some (other, name) => if other = hash then some name else none
  | none => none

theorem nameIn?_eq_some_iff {hash : UInt32} {line : List Char} {name : String} :
    nameIn? hash line = some name ↔ Entry line hash name := by
  rw [← entry?_eq_some_iff, nameIn?]
  constructor
  · intro h
    split at h
    case h_1 other found hentry =>
      by_cases hother : other = hash
      · obtain rfl : found = name := by simpa [hother] using h
        rw [hentry, hother]
      · simp [hother] at h
    case h_2 => cases h
  · intro hentry
    rw [hentry]
    exact if_pos rfl

theorem nameIn?_eq_none_iff {hash : UInt32} {line : List Char} :
    nameIn? hash line = none ↔ ¬ Names line hash := by
  rw [Names, Option.eq_none_iff_forall_ne_some, not_exists]
  exact forall_congr' fun name => not_congr nameIn?_eq_some_iff

theorem get?_insert (names : NameTable) (other hash : UInt32) (name : String) :
    (names.insert other name).get? hash = if other = hash then some name else names.get? hash := by
  rw [get?, insert, Std.TreeMap.getElem?_insert]
  simp only [Std.LawfulEqOrd.compare_eq_iff_eq]
  rfl

/-- Lines that are read one after the other: the last one that names a hash counts. -/
theorem get?_foldl_insert (lines : List (List Char)) (names : NameTable) (hash : UInt32) :
    ((lines.filterMap entry?).foldl (fun names (hash, name) => names.insert hash name) names).get?
        hash
      = (lines.reverse.findSome? (nameIn? hash)).or (names.get? hash) := by
  induction lines generalizing names with
  | nil => rfl
  | cons line lines ih =>
      rw [List.reverse_cons, List.findSome?_append, Option.or_assoc, List.filterMap_cons]
      cases hentry : entry? line with
      | none =>
          have hnone : nameIn? hash line = none := by rw [nameIn?, hentry]
          rw [List.findSome?_singleton, hnone, Option.none_or]
          exact ih names
      | some entry =>
          obtain ⟨other, name⟩ := entry
          have hname : nameIn? hash line = if other = hash then some name else none := by
            rw [nameIn?, hentry]
          rw [List.findSome?_singleton, hname]
          -- the lines behind are read into a table that this entry is already in
          refine (ih (names.insert other name)).trans ?_
          rw [get?_insert]
          split <;> rfl

theorem get?_parse (text : String) (hash : UInt32) :
    (parse text).get? hash = (text.toList.splitOn '\n').reverse.findSome? (nameIn? hash) := by
  rw [parse, filterMap_entry?_lines, get?_foldl_insert]
  exact Option.or_none

theorem get?_parse_eq_some_iff {text : String} {hash : UInt32} {name : String} :
    (parse text).get? hash = some name ↔ ∃ earlier line later,
      text.toList.splitOn '\n' = earlier ++ line :: later ∧ Entry line hash name
        ∧ ∀ other ∈ later, ¬ Names other hash := by
  rw [get?_parse, List.findSome?_eq_some_iff]
  constructor
  · rintro ⟨later, line, earlier, hlines, hline, hlater⟩
    refine ⟨earlier.reverse, line, later.reverse, ?_, nameIn?_eq_some_iff.mp hline, ?_⟩
    · rw [← List.reverse_inj, hlines]
      simp
    · intro other hother
      exact nameIn?_eq_none_iff.mp (hlater other (List.mem_reverse.mp hother))
  · rintro ⟨earlier, line, later, hlines, hline, hlater⟩
    refine ⟨later.reverse, line, earlier.reverse, ?_, nameIn?_eq_some_iff.mpr hline, ?_⟩
    · rw [hlines]
      simp
    · intro other hother
      exact nameIn?_eq_none_iff.mpr (hlater other (List.mem_reverse.mp hother))

theorem get?_parse_eq_none_iff {text : String} {hash : UInt32} :
    (parse text).get? hash = none
      ↔ ∀ line ∈ text.toList.splitOn '\n', ¬ Names line hash := by
  rw [get?_parse, List.findSome?_eq_none_iff]
  simp only [List.mem_reverse, nameIn?_eq_none_iff]

theorem size_eq_ncard (names : NameTable) : names.size = {hash | names.get? hash ≠ none}.ncard := by
  have hkeys : {hash | names.get? hash ≠ none} = ↑names.entries.keys.toFinset := by
    ext hash
    rw [Set.mem_ofPred_eq, List.coe_toFinset, Set.mem_ofPred_eq, Std.TreeMap.mem_keys,
      Std.TreeMap.mem_iff_isSome_getElem?, Option.isSome_iff_ne_none]
    rfl
  rw [hkeys, Set.ncard_coe_finset, List.toFinset_card_of_nodup Std.TreeMap.nodup_keys,
    Std.TreeMap.length_keys]
  rfl

theorem get?_parse_append (text behind : String) (hash : UInt32) :
    (parse (text ++ "\n" ++ behind)).get? hash
      = ((parse behind).get? hash).or ((parse text).get? hash) := by
  have hlines : (text ++ "\n" ++ behind).toList.splitOn '\n'
      = text.toList.splitOn '\n' ++ behind.toList.splitOn '\n' := by
    rw [String.toList_append, String.toList_append, List.append_assoc]
    exact List.splitOn_append_cons_self ..
  rw [get?_parse, get?_parse, get?_parse, hlines, List.reverse_append, List.findSome?_append]

/-- **What a name table says.** A hash has the name that the last line for it gives it, and none if no
line names it; the size is the number of hashes that are named. Of two texts with a line feed between
them the second one counts where it names the hash. -/
theorem get?_parse_and_size (text behind : String) (hash : UInt32) :
    (∀ name, (parse text).get? hash = some name ↔ ∃ earlier line later,
        text.toList.splitOn '\n' = earlier ++ line :: later ∧ Entry line hash name
          ∧ ∀ other ∈ later, ¬ Names other hash)
      ∧ ((parse text).get? hash = none
          ↔ ∀ line ∈ text.toList.splitOn '\n', ¬ Names line hash)
      ∧ (parse text).size = {h | ∃ line ∈ text.toList.splitOn '\n', Names line h}.ncard
      ∧ (parse (text ++ "\n" ++ behind)).get? hash
          = ((parse behind).get? hash).or ((parse text).get? hash) := by
  refine ⟨fun name => get?_parse_eq_some_iff, get?_parse_eq_none_iff, ?_,
    get?_parse_append text behind hash⟩
  rw [size_eq_ncard]
  congr 1
  ext h
  rw [Set.mem_ofPred_eq, Set.mem_ofPred_eq, ne_eq, get?_parse_eq_none_iff]
  push Not
  rfl

/-- The last line for a hash counts, whichever form its numeral has; eight digits are hexadecimal. -/
example : (parse "12345678: a b \r\n0x+12345678:c\n+012:d\n12:\n1:2:3").get? 0x12345678
    = some "c" := by
  decide +kernel

/-- A name has no line feed. -/
theorem newline_notMem_of_get?_parse {text : String} {hash : UInt32} {name : String}
    (h : (parse text).get? hash = some name) : '\n' ∉ name.toList := by
  obtain ⟨earlier, line, later, hlines, hentry, -⟩ := get?_parse_eq_some_iff.mp h
  obtain ⟨before, behind, numeral, rfl, -, -, -, hname⟩ := hentry
  have hline : '\n' ∉ before ++ ':' :: behind :=
    notMem_of_mem_splitOn (show _ ∈ text.toList.splitOn '\n' by rw [hlines]; simp)
  intro hmem
  exact hline (List.mem_append_right before (List.mem_cons_of_mem ':' (hname.mem hmem)))

end NameTable

end ChunkArchive
