import ChunkArchive.Script.Instruction
import Mathlib.Tactic

/-!
# Listing code and writing it again

`Lists offset words is e` says how a row of words is listed, instruction by instruction. Writing a
listing gives back the words that it was read from, but for those that belong to no instruction,
so that it is listed the same way at any other place of any other code (`Lists.relocate`): all
offsets move along with the start, and a listing that the end of the code had cut off now ends in
an `END`.
-/

set_option autoImplicit false

namespace ChunkArchive

/-! ## Words -/

namespace Opcode

theorem code_ofCode (c : UInt8) : (ofCode c).code = c := by
  have hall : ∀ n : Fin 256, (ofCode (UInt8.ofFin n)).code = UInt8.ofFin n := by decide +kernel
  exact hall c.toFin

theorem operandOfWord_toNat (w : UInt16) : (operandOfWord w).toNat = w.toNat % 0x400 := by
  have hmask := Nat.and_two_pow_sub_one_eq_mod w.toNat 10
  rw [operandOfWord, UInt16.toNat_toUInt32, UInt16.toNat_and]
  exact hmask

theorem code_ofWord_toNat (w : UInt16) : (ofWord w).code.toNat = w.toNat / 0x400 := by
  have hw := w.toNat_lt
  rw [ofWord, code_ofCode, UInt16.toNat_toUInt8, UInt16.toNat_shiftRight, Nat.shiftRight_eq_div_pow]
  show w.toNat / 2 ^ 10 % 2 ^ 8 = _
  omega

/-- The two parts of a word have no bit in common. -/
theorem word_toNat (op : Opcode) (operand : UInt32) :
    (op.word operand).toNat = op.code.toNat % 0x40 * 0x400 + operand.toNat % 0x400 := by
  have hlow : (operand &&& 0x3FF).toUInt16.toNat = operand.toNat % 0x400 := by
    have hmask := Nat.and_two_pow_sub_one_eq_mod operand.toNat 10
    rw [UInt32.toNat_toUInt16, UInt32.toNat_and]
    show (operand.toNat &&& 2 ^ 10 - 1) % 2 ^ 16 = _
    omega
  have hhigh : (op.code.toUInt16 <<< 10).toNat = (op.code.toNat % 0x40) <<< 10 := by
    have hcode := op.code.toNat_lt
    rw [UInt16.toNat_shiftLeft, UInt8.toNat_toUInt16, Nat.shiftLeft_eq, Nat.shiftLeft_eq]
    show op.code.toNat * 2 ^ 10 % 2 ^ 16 = _
    omega
  have hlt : operand.toNat % 0x400 < 2 ^ 10 := Nat.mod_lt _ (by decide)
  rw [word, UInt16.toNat_or, hlow, hhigh, Nat.or_comm, ← Nat.shiftLeft_add_eq_or_of_lt hlt,
    Nat.shiftLeft_eq]

/-- A word is put together again from its operation and its operand. -/
@[simp] theorem word_ofWord (w : UInt16) : (ofWord w).word (operandOfWord w) = w := by
  apply UInt16.toNat_inj.mp
  have hw := w.toNat_lt
  rw [word_toNat, code_ofWord_toNat, operandOfWord_toNat]
  omega

@[simp] theorem ofWord_stop : ofWord (stop.word 0) = .stop := by decide

end Opcode

/-! ## Listings -/

/-- The words, the first of which stands at `offset`, are listed as the instructions, and the
listing ends in the given way. -/
inductive Listing.Lists : Nat → List UInt16 → List Instruction → Ending → Prop where
  | out (offset : Nat) : Lists offset [] [] (.truncated offset)
  /-- The word that would belong to the last one is not there. -/
  | cut {offset : Nat} {w : UInt16} (hext : (Opcode.ofWord w).hasExtension = true) :
      Lists offset [w] [] (.truncated (offset + 2))
  | wide {offset : Nat} {w x : UInt16} {rest : List UInt16} {is : List Instruction} {e : Ending}
      (hext : (Opcode.ofWord w).hasExtension = true) (hrest : Lists (offset + 4) rest is e) :
      Lists offset (w :: x :: rest)
        (⟨offset, Opcode.ofWord w, Opcode.operandOfWord w, x.toUInt32⟩ :: is) e
  | stop {offset : Nat} {w : UInt16} (rest : List UInt16) (hstop : Opcode.ofWord w = .stop) :
      Lists offset (w :: rest) [⟨offset, Opcode.ofWord w, Opcode.operandOfWord w, 0⟩] .finished
  | narrow {offset : Nat} {w : UInt16} {rest : List UInt16} {is : List Instruction} {e : Ending}
      (hext : (Opcode.ofWord w).hasExtension = false) (hgo : Opcode.ofWord w ≠ .stop)
      (hrest : Lists (offset + 2) rest is e) :
      Lists offset (w :: rest) (⟨offset, Opcode.ofWord w, Opcode.operandOfWord w, 0⟩ :: is) e

namespace Listing

theorem readFrom_of_lists {offset : Nat} {words : List UInt16} {is : List Instruction} {e : Ending}
    (h : Lists offset words is e) (done : List Instruction) :
    readFrom done offset words = ⟨done.reverse ++ is, e⟩ := by
  induction h generalizing done with
  | out offset => rw [readFrom, List.append_nil]
  | cut hext => simp [readFrom, hext]
  | wide hext hrest ih => simp [readFrom, hext, ih]
  | stop rest hstop =>
      unfold readFrom
      simp [hstop, Opcode.hasExtension]
  | narrow hext hgo hrest ih =>
      unfold readFrom
      simp [hext, hgo, ih]

/-- Every row of words is listed. -/
theorem exists_lists (words : List UInt16) :
    ∀ offset, ∃ is e, Lists offset words is e := by
  -- an instruction takes up to two words, so the induction is on the length
  induction words using List.twoStepInduction with
  | nil => exact fun offset => ⟨[], _, .out offset⟩
  | singleton w =>
      intro offset
      by_cases hext : (Opcode.ofWord w).hasExtension = true
      · exact ⟨[], _, .cut hext⟩
      · by_cases hstop : Opcode.ofWord w = .stop
        · exact ⟨_, _, .stop [] hstop⟩
        · exact ⟨_, _, .narrow (Bool.eq_false_iff.mpr hext) hstop (.out _)⟩
  | cons_cons w x rest hrest hx =>
      intro offset
      by_cases hext : (Opcode.ofWord w).hasExtension = true
      · obtain ⟨is, e, h⟩ := hrest (offset + 4)
        exact ⟨_, e, .wide hext h⟩
      · by_cases hstop : Opcode.ofWord w = .stop
        · exact ⟨_, _, .stop (x :: rest) hstop⟩
        · obtain ⟨is, e, h⟩ := hx x (offset + 2)
          exact ⟨_, e, .narrow (Bool.eq_false_iff.mpr hext) hstop h⟩

theorem lists_read (code : List UInt16) (start : Nat) :
    Lists (2 * start) (code.drop start) (read code start).instructions
      (read code start).ending := by
  obtain ⟨is, e, h⟩ := exists_lists (code.drop start) (2 * start)
  have hread : read code start = ⟨is, e⟩ := readFrom_of_lists h []
  rw [hread]
  exact h

/-! ## Writing a listing -/

/-- What follows a listing to end it: nothing where it ends by itself. -/
def closing : Ending → (offset : Nat) → List Instruction
  | .finished, _ => []
  | .truncated _, offset => [⟨offset, .stop, 0, 0⟩]

end Listing

namespace Instruction

/-- The instruction in a function whose start is moved. -/
def relocate (start start' : Nat) (i : Instruction) : Instruction :=
  { i with offset := i.offset - start + start' }

theorem words_wide {w x : UInt16} (hext : (Opcode.ofWord w).hasExtension = true) (offset : Nat) :
    (⟨offset, Opcode.ofWord w, Opcode.operandOfWord w, x.toUInt32⟩ : Instruction).words
      = [w, x] := by
  rw [words, if_pos hext, Opcode.word_ofWord, UInt16.toUInt16_toUInt32]

theorem words_narrow {w : UInt16} (hext : (Opcode.ofWord w).hasExtension = false) (offset : Nat)
    (x : UInt32) :
    (⟨offset, Opcode.ofWord w, Opcode.operandOfWord w, x⟩ : Instruction).words = [w] := by
  rw [words, if_neg (by simp [hext]), Opcode.word_ofWord]

end Instruction

namespace Listing

/-- No instruction stands before the start of the function. -/
theorem Lists.le_offset {offset : Nat} {words : List UInt16} {is : List Instruction} {e : Ending}
    (h : Lists offset words is e) : ∀ i ∈ is, offset ≤ i.offset := by
  induction h with
  | out offset => exact fun i hi => absurd hi List.not_mem_nil
  | cut hext => exact fun i hi => absurd hi List.not_mem_nil
  | wide hext hrest ih =>
      intro i hi
      rcases List.mem_cons.mp hi with rfl | hi
      · exact Nat.le_refl _
      · have := ih i hi
        omega
  | stop rest hstop =>
      intro i hi
      rw [List.mem_singleton.mp hi]
  | narrow hext hgo hrest ih =>
      intro i hi
      rcases List.mem_cons.mp hi with rfl | hi
      · exact Nat.le_refl _
      · have := ih i hi
        omega

/-- A listing ends by itself exactly when its last instruction is an `END`. -/
theorem Lists.finished_iff {offset : Nat} {words : List UInt16} {is : List Instruction} {e : Ending}
    (h : Lists offset words is e) :
    e = .finished ↔ is.getLast?.map Instruction.opcode = some .stop := by
  induction h with
  | out offset => simp
  | cut hext => simp
  | stop rest hstop => simp [hstop]
  | wide hext hrest ih =>
      rename_i w x rest is e
      cases is with
      | nil =>
          -- the only instruction has an extension, which an END has not
          have hgo : Opcode.ofWord w ≠ .stop := by
            intro hstop
            rw [hstop] at hext
            cases hext
          simp [ih, hgo]
      | cons i is => rw [ih, List.getLast?_cons_cons]
  | narrow hext hgo hrest ih =>
      rename_i w rest is e
      cases is with
      | nil => simp [ih, hgo]
      | cons i is => rw [ih, List.getLast?_cons_cons]

/-- **What a listing is written out as is listed the same way at any other place**: the offsets
move along with the start, and the listing ends in an `END` even if the end of the code had cut it
off. -/
theorem Lists.relocate {offset : Nat} {words : List UInt16} {is : List Instruction} {e : Ending}
    (h : Lists offset words is e) {start start' offset' : Nat} (hle : start ≤ offset)
    (hoffset : offset' = offset - start + start') (behind : List UInt16) :
    Lists offset'
      (is.flatMap Instruction.words ++ (closing e 0).flatMap Instruction.words ++ behind)
      (is.map (Instruction.relocate start start')
        ++ closing e (offset' + 2 * (is.flatMap Instruction.words).length)) .finished := by
  induction h generalizing offset' with
  -- where the code had run out, the reader now finds the END that was put there
  | out offset => exact .stop behind Opcode.ofWord_stop
  | cut hext => exact .stop behind Opcode.ofWord_stop
  | @stop offset w rest hstop =>
      -- the END of the listing itself stops the reader, and nothing is put behind it
      have hext : (Opcode.ofWord w).hasExtension = false := by rw [hstop]; rfl
      subst hoffset
      rw [List.flatMap_singleton, Instruction.words_narrow hext]
      exact .stop behind hstop
  | @wide offset w x rest is e hext hrest ih =>
      have hnext : offset' + 4 = offset + 4 - start + start' := by omega
      have htail := ih (by omega) hnext
      have hlen : offset' + 2 * (w :: x :: is.flatMap Instruction.words).length
          = offset' + 4 + 2 * (is.flatMap Instruction.words).length := by
        rw [List.length_cons, List.length_cons]
        omega
      rw [List.flatMap_cons, Instruction.words_wide hext]
      simp only [List.cons_append, List.nil_append, List.map_cons, hlen]
      rw [Instruction.relocate, ← hoffset]
      exact .wide hext htail
  | @narrow offset w rest is e hext hgo hrest ih =>
      have hnext : offset' + 2 = offset + 2 - start + start' := by omega
      have htail := ih (by omega) hnext
      have hlen : offset' + 2 * (w :: is.flatMap Instruction.words).length
          = offset' + 2 + 2 * (is.flatMap Instruction.words).length := by
        rw [List.length_cons]
        omega
      rw [List.flatMap_cons, Instruction.words_narrow hext]
      simp only [List.cons_append, List.nil_append, List.map_cons, hlen]
      rw [Instruction.relocate, ← hoffset]
      exact .narrow hext hgo htail

/-- The listing ends by itself exactly when its last instruction is an `END`. -/
def Proper (l : Listing) : Prop :=
  l.ending = .finished ↔ l.instructions.getLast?.map Instruction.opcode = some .stop

theorem proper_read (code : List UInt16) (start : Nat) : (read code start).Proper :=
  (lists_read code start).finished_iff

/-- The words of a listing, with those that end it. -/
def words (l : Listing) : List UInt16 :=
  l.instructions.flatMap Instruction.words ++ (closing l.ending 0).flatMap Instruction.words

/-- The listing as it is read when its words stand at word number `start'`. -/
def relocated (l : Listing) (start start' : Nat) : Listing :=
  ⟨l.instructions.map (Instruction.relocate (2 * start) (2 * start'))
    ++ closing l.ending (2 * start' + 2 * (l.instructions.flatMap Instruction.words).length),
    .finished⟩

/-- Where the words of a listing stand the listing is read again. -/
theorem read_words {code code' behind : List UInt16} {start start' : Nat}
    (hcode : code'.drop start' = (read code start).words ++ behind) :
    read code' start' = (read code start).relocated start start' := by
  have hstart : 2 * start' = 2 * start - 2 * start + 2 * start' := by omega
  have h := (lists_read code start).relocate (Nat.le_refl _) hstart behind
  show readFrom [] (2 * start') (code'.drop start') = _
  rw [hcode]
  exact readFrom_of_lists h []

end Listing

end ChunkArchive
