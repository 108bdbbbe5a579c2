import ChunkArchive.Proofs.Script.Lossless

/-!
# Functions in a window of code

A function whose listing ends in an `END` is decoded from its own words alone: whatever code stands
before and behind them, it has the same variables and statements and the same operations, and only
what is said of places moves along with its start (`Body.decode_window`).
-/

set_option autoImplicit false

namespace ChunkArchive

/-- With the offset larger by `n` that a failure names. -/
def Status.shifted (n : Nat) : Status → Status
  | .badMove width offset => .badMove width (offset + n)
  | status => status

namespace Body

/-- The body with all offsets in the code larger by `n`. -/
def shifted (n : Nat) (b : Body) : Body :=
  { b with
    operations := b.operations.map fun o => { o with offset := o.offset + n }
    status := b.status.shifted n }

theorem instructions_shifted (n : Nat) (b : Body) :
    (b.shifted n).instructions = b.instructions.map fun i => { i with offset := i.offset + n } := by
  simp [instructions, shifted]

/-- A body that ends in an `END` is not truncated. -/
theorem status_ne_truncated {pools : Pools} {start : UInt32} (hended : (decode pools start).Ended)
    (offset : Nat) : (decode pools start).status ≠ .truncated offset := by
  have hfinished := (ended_ofListing pools (Listing.proper_read pools.code start.toNat)).mp hended
  rw [decode, status_ofListing, Listing.status, hfinished]
  intro htruncated
  cases hbad : (Listing.read pools.code start.toNat).instructions.find? Instruction.isBadMove with
  | none =>
      rw [hbad] at htruncated
      cases htruncated
  | some bad =>
      rw [hbad] at htruncated
      cases htruncated

/-- A body that starts at the first word and has its `END` is moved by shifting its offsets. -/
theorem relocated_eq_shifted {b : Body} (hended : b.Ended)
    (hstatus : ∀ offset, b.status ≠ .truncated offset) (start : Nat) :
    b.relocated 0 start = b.shifted (2 * start) := by
  have hshift : b.status.relocate (2 * 0) (2 * start) = b.status.shifted (2 * start) := by
    cases h : b.status with
    | complete => rfl
    | truncated offset => exact absurd h (hstatus offset)
    | badMove width offset => rfl
  rw [relocated, closing, if_pos hended, Array.appendList_nil, hshift]
  rfl

/-- The words of a body that ends in an `END` stand in the code from its start on. -/
theorem drop_of_ended {pools : Pools} {start : UInt32} (hended : (decode pools start).Ended) :
    ∃ rest, pools.code.drop start.toNat = (decode pools start).words ++ rest := by
  obtain ⟨rest, hwords, -⟩ := (Listing.lists_read pools.code start.toNat).words_append
  refine ⟨rest, ?_⟩
  rw [words, if_pos hended, List.append_nil, decode, ofListing_instructions]
  exact hwords

/-- **Decoding is local and can be relocated.** A window of code that is decoded up to an `END` is
decoded in the same way between any other words, with every offset larger by two for each word
before it. -/
theorem decode_window {pools : Pools} {before window behind : List UInt16} {start : UInt32}
    (hstart : start.toNat = before.length)
    (hended : (decode { pools with code := window } 0).Ended) :
    decode { pools with code := before ++ window ++ behind } start
      = (decode { pools with code := window } 0).shifted (2 * before.length) := by
  obtain ⟨rest, hwords⟩ := drop_of_ended hended
  -- what the window holds behind its END is code like any other
  have hcode : (before ++ window ++ behind).drop start.toNat
      = (decode { pools with code := window } 0).words ++ (rest ++ behind) := by
    rw [← List.append_assoc, ← hwords, hstart, List.append_assoc, List.drop_left]
    rfl
  have hmoved : decode { pools with code := before ++ window ++ behind } start
      = (decode { pools with code := window } 0).relocated 0 start.toNat := decode_of_words hcode
  rw [hmoved, relocated_eq_shifted hended (status_ne_truncated hended), hstart]

/-- The window has extensions that look like an `END`, a move of three bytes and a word behind its
own `END`. The word before it would take an extension. -/
theorem decode_window_failed :
    let window : List UInt16 :=
      [0x0000, 0x0400, 0x3000, 0x4004, 0x4003, 0x0400, 0x3000, 0x0001, 0x3000, 0x0001]
    let pools : Pools := ⟨#[0x3F800000, 0x40000000], window, [], .empty⟩
    let code := [0x3000, 0x0400] ++ window ++ [0x4003]
    (2 : UInt32).toNat = 2 ∧ (decode pools 0).Ended
      ∧ (decode { pools with code } 2).status = .badMove 3 12
      ∧ (decode { pools with code } 2).instructions.map Instruction.offset
          = [4, 6, 10, 12, 14, 18, 20]
      ∧ (decode { pools with code } 2).vars = (decode pools 0).vars
      ∧ (decode pools 0).vars.size = 1 := by
  intro window pools code
  have hstart : (2 : UInt32).toNat = [(0x3000 : UInt16), 0x0400].length := rfl
  have hended : (decode pools 0).Ended := by decide +kernel
  have hwindow : decode { pools with code } 2 = (decode pools 0).shifted (2 * 2) :=
    decode_window hstart hended
  refine ⟨hstart, hended, ?_, ?_, ?_, by decide +kernel⟩
  · rw [hwindow]
    decide +kernel
  · rw [hwindow, instructions_shifted]
    decide +kernel
  · rw [hwindow]
    rfl

end Body

end ChunkArchive
