import ChunkArchive.Proofs.Script.Relocation

/-!
# What a listing leaves out

Written out in order, the instructions of a listing are the words of the code from the start of the
function on (`Lists.words_append`), each of them stands where the words before it end
(`Lists.behind`), and an `END` is the last of them (`Lists.first`). What is left of the code behind
a listing that no `END` closes is one word at most, which would need another one. Together with the
first move of a width that does not exist, this says what the status of a body is
(`Body.decode_lossless`).
-/

set_option autoImplicit false

namespace ChunkArchive

/-! ## Bad moves -/

theorem Instruction.isBadMove_iff (i : Instruction) :
    i.isBadMove = true ↔ i.opcode = .move8 ∧ i.operand ∉ [(1 : UInt32), 2, 4] := by
  simp [isBadMove, and_assoc]

namespace Listing

/-! ## The words of a listing -/

/-- What may be left behind a listing that the end of the code has cut off: nothing, or a word whose
extension is missing. -/
def Stub (rest : List UInt16) : Prop :=
  rest = [] ∨ ∃ w, rest = [w] ∧ (Opcode.ofWord w).hasExtension = true

/-- The instructions are written out as the words that they were read from. Where the end of the
code has cut off the listing, all words but a stub are accounted for. -/
theorem Lists.words_append {offset : Nat} {words : List UInt16} {is : List Instruction} {e : Ending}
    (h : Lists offset words is e) :
    ∃ rest, words = is.flatMap Instruction.words ++ rest
      ∧ (e = .finished ∨ e = .truncated (offset + 2 * words.length) ∧ Stub rest) := by
  induction h with
  | out offset => exact ⟨[], rfl, Or.inr ⟨rfl, Or.inl rfl⟩⟩
  | @cut offset w hext => exact ⟨[w], rfl, Or.inr ⟨rfl, Or.inr ⟨w, rfl, hext⟩⟩⟩
  | @stop offset w rest hstop =>
      have hext : (Opcode.ofWord w).hasExtension = false := by rw [hstop]; rfl
      refine ⟨rest, ?_, Or.inl rfl⟩
      rw [List.flatMap_singleton, Instruction.words_narrow hext]
      rfl
  | @wide offset w x rest is e hext hrest ih =>
      obtain ⟨left, hleft, hend⟩ := ih
      refine ⟨left, ?_, ?_⟩
      · rw [List.flatMap_cons, Instruction.words_wide hext, List.append_assoc, ← hleft]
        rfl
      · -- the end of the code stays where it is, two words further on from here
        have hlen : offset + 2 * (w :: x :: rest).length = offset + 4 + 2 * rest.length := by
          rw [List.length_cons, List.length_cons]
          omega
        rwa [hlen]
  | @narrow offset w rest is e hext hgo hrest ih =>
      obtain ⟨left, hleft, hend⟩ := ih
      refine ⟨left, ?_, ?_⟩
      · rw [List.flatMap_cons, Instruction.words_narrow hext, List.append_assoc, ← hleft]
        rfl
      · have hlen : offset + 2 * (w :: rest).length = offset + 2 + 2 * rest.length := by
          rw [List.length_cons]
          omega
        rwa [hlen]

/-- From one of its instructions on, a listing lists what stands behind the words of those before. -/
theorem Lists.behind {offset : Nat} {words : List UInt16} {is : List Instruction} {e : Ending}
    (h : Lists offset words is e) {before behind : List Instruction} {i : Instruction}
    (his : is = before ++ i :: behind) :
    ∃ words', Lists (offset + 2 * (before.flatMap Instruction.words).length) words'
      (i :: behind) e := by
  induction h generalizing before with
  | out offset => simp at his
  | cut hext => simp at his
  | stop rest hstop =>
      cases before with
      | nil =>
          cases his
          exact ⟨_, .stop rest hstop⟩
      | cons j before => simp at his
  | @wide offset w x rest is e hext hrest ih =>
      cases before with
      | nil =>
          cases his
          exact ⟨_, .wide hext hrest⟩
      | cons j before =>
          cases his
          obtain ⟨words', h'⟩ := ih rfl
          refine ⟨words', ?_⟩
          rw [List.flatMap_cons, Instruction.words_wide hext, List.length_append, Nat.mul_add,
            ← Nat.add_assoc]
          exact h'
  | @narrow offset w rest is e hext hgo hrest ih =>
      cases before with
      | nil =>
          cases his
          exact ⟨_, .narrow hext hgo hrest⟩
      | cons j before =>
          cases his
          obtain ⟨words', h'⟩ := ih rfl
          refine ⟨words', ?_⟩
          rw [List.flatMap_cons, Instruction.words_narrow hext, List.length_append, Nat.mul_add,
            ← Nat.add_assoc]
          exact h'

/-- A listing begins with the instruction at its offset, and with nothing else if that is `END`. -/
theorem Lists.first {offset : Nat} {words : List UInt16} {i : Instruction}
    {behind : List Instruction} {e : Ending} (h : Lists offset words (i :: behind) e) :
    i.offset = offset ∧ (i.opcode = .stop → behind = []) := by
  cases h with
  | @wide _ w x rest _ _ hext hrest =>
      refine ⟨rfl, fun hi => ?_⟩
      -- an END has no extension
      have hw : Opcode.ofWord w = .stop := hi
      rw [hw] at hext
      cases hext
  | stop rest hstop => exact ⟨rfl, fun _ => rfl⟩
  | narrow hext hgo hrest => exact ⟨rfl, fun hi => absurd hi hgo⟩

/-- Operands have ten bits and extensions sixteen, so that no bit of them is lost in a word. -/
theorem Lists.fits {offset : Nat} {words : List UInt16} {is : List Instruction} {e : Ending}
    (h : Lists offset words is e) :
    ∀ i ∈ is, i.operand.toNat < 0x400 ∧ i.extension.toNat < 0x10000 := by
  have hoperand : ∀ w, (Opcode.operandOfWord w).toNat < 0x400 := by
    intro w
    rw [Opcode.operandOfWord_toNat]
    exact Nat.mod_lt _ (by decide)
  induction h with
  | out offset => exact fun i hi => absurd hi List.not_mem_nil
  | cut hext => exact fun i hi => absurd hi List.not_mem_nil
  | stop rest hstop =>
      intro i hi
      rw [List.mem_singleton.mp hi]
      exact ⟨hoperand _, Nat.succ_pos _⟩
  | @wide offset w x rest is e hext hrest ih =>
      refine List.forall_mem_cons.mpr ⟨⟨hoperand _, ?_⟩, ih⟩
      rw [UInt16.toNat_toUInt32]
      exact x.toNat_lt
  | narrow hext hgo hrest ih => exact List.forall_mem_cons.mpr ⟨⟨hoperand _, Nat.succ_pos _⟩, ih⟩

/-! ## How a listing ends -/

/-- A listing that is not closed by an `END` was cut off where the code ends, or, if the function
starts behind the code, at once. -/
theorem ending_read (code : List UInt16) (start : Nat) :
    (read code start).ending = .finished
      ∨ (read code start).ending = .truncated (2 * max start code.length) := by
  obtain ⟨rest, -, hend | ⟨hend, -⟩⟩ := (lists_read code start).words_append
  · exact Or.inl hend
  · refine Or.inr ?_
    rw [hend, List.length_drop]
    congr 1
    omega

theorem status_read (code : List UInt16) (start : Nat) :
    (read code start).status
      = match (read code start).instructions.find? Instruction.isBadMove with
        | some bad => .badMove bad.operand bad.offset
        | none =>
          if (read code start).instructions.getLast?.map Instruction.opcode = some .stop then .complete
          else .truncated (2 * max start code.length) := by
  have hproper := proper_read code start
  unfold status
  cases (read code start).instructions.find? Instruction.isBadMove with
  | some bad => rfl
  | none =>
      rcases ending_read code start with hfinished | htruncated
      · rw [hfinished, if_pos (hproper.mp hfinished)]
      · rw [htruncated, if_neg]
        intro hlast
        exact nomatch htruncated.symm.trans (hproper.mpr hlast)

end Listing

namespace Body

/-! ## Bodies -/

theorem status_ofListing (pools : Pools) (l : Listing) :
    (ofListing pools l).status = l.status := by rw [ofListing_eq]

/-- **A listing accounts for every word of the code** up to the `END` that closes it, or else up to
the end of the code, where one word may be left whose extension is missing; and the status of the
body is read off the listing. -/
theorem decode_lossless (pools : Pools) (start : UInt32) :
    ∃ is rest, (decode pools start).instructions = is
      ∧ pools.code.drop start.toNat = is.flatMap Instruction.words ++ rest
      ∧ (∀ i ∈ is, i.operand.toNat < 0x400 ∧ i.extension.toNat < 0x10000)
      ∧ (∀ before i behind, is = before ++ i :: behind →
          i.offset = 2 * (start.toNat + (before.flatMap Instruction.words).length)
            ∧ (i.opcode = .stop → behind = []))
      ∧ ((∀ i ∈ is, i.opcode ≠ .stop) →
          rest = [] ∨ ∃ w, rest = [w] ∧ (Opcode.ofWord w).hasExtension = true)
      ∧ (decode pools start).status
          = match is.find? fun i => i.opcode = .move8 ∧ i.operand ∉ [(1 : UInt32), 2, 4] with
            | some bad => .badMove bad.operand bad.offset
            | none => if is.getLast?.map Instruction.opcode = some .stop then .complete
                else .truncated (2 * max start.toNat pools.code.length) := by
  have hlists := Listing.lists_read pools.code start.toNat
  have his : (decode pools start).instructions
      = (Listing.read pools.code start.toNat).instructions := ofListing_instructions pools _
  obtain ⟨rest, hwords, hend⟩ := hlists.words_append
  refine ⟨_, rest, his, hwords, hlists.fits, ?_, ?_, ?_⟩
  · intro before i behind hsplit
    obtain ⟨words', hbehind⟩ := hlists.behind hsplit
    obtain ⟨hoffset, hstop⟩ := hbehind.first
    refine ⟨?_, hstop⟩
    rw [hoffset]
    omega
  · intro hnone
    rcases hend with hfinished | ⟨-, hstub⟩
    · -- a listing that is closed has an END, its last instruction
      have hlast := hlists.finished_iff.mp hfinished
      obtain ⟨i, hi, hstop⟩ := Option.map_eq_some_iff.mp hlast
      exact absurd hstop (hnone i (List.mem_of_getLast? hi))
    · exact hstub
  · have hbad : Instruction.isBadMove
        = fun i => decide (i.opcode = .move8 ∧ i.operand ∉ [(1 : UInt32), 2, 4]) := by
      funext i
      rw [Bool.eq_iff_iff, i.isBadMove_iff, decide_eq_true_iff]
    rw [← hbad, decode, status_ofListing]
    exact Listing.status_read pools.code start.toNat

end Body

end ChunkArchive
