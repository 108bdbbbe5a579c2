import ChunkArchive.Proofs.Script.Listing
import ChunkArchive.Script.Body
import Mathlib.Data.List.TakeWhile

/-!
# Bodies of functions that are moved

What an instruction does depends on its operation and its operands, but not on where it stands,
and an `END` does nothing. So a function that is written out anew and listed at another place has
the same variables and the same statements as before (`Body.decode_of_words`): what changes are
the offsets of its operations and, for one that the end of the code had cut off, the `END` behind
them.
-/

set_option autoImplicit false

namespace ChunkArchive

/-! ## Moving the start of a function -/

def Operation.relocate (start start' : Nat) (o : Operation) : Operation :=
  ⟨o.toInstruction.relocate start start', o.fetched⟩

/-- How decoding ends when the function is written out with an `END` and read again. -/
def Status.relocate (start start' : Nat) : Status → Status
  | .badMove width offset => .badMove width (offset - start + start')
  | _ => .complete

namespace Machine

/-! ## One instruction -/

/-- The machine with other operations behind it. -/
def withOperations (ops : Array Operation) (m : Machine) : Machine := { m with operations := ops }

/-- The machine with the operations moved that it has listed. -/
def relocate (start start' : Nat) (m : Machine) : Machine :=
  m.withOperations (m.operations.map (Operation.relocate start start'))

/-- Puts an operation behind those that are listed. -/
def note (m : Machine) (i : Instruction) (fetched : Option Value) : Machine :=
  m.withOperations (m.operations.push ⟨i, fetched⟩)

theorem list_eq_note (m : Machine) (i : Instruction) : m.list i = m.note i none := rfl

theorem step_eq_note (pools : Pools) (m : Machine) (i : Instruction) :
    m.step pools i = (m.perform pools i).1.note i (m.perform pools i).2 := rfl

section Perform

variable (pools : Pools) (ops : Array Operation) (m : Machine)

@[simp] theorem withOperations_stack : (m.withOperations ops).stack = m.stack := rfl

@[simp] theorem withOperations_vars : (m.withOperations ops).vars = m.vars := rfl

@[simp] theorem withOperations_operations : (m.withOperations ops).operations = ops := rfl

theorem keep_withOperations (v : Variable) :
    (m.withOperations ops).keep v = (m.keep v).withOperations ops := by
  unfold keep
  rw [withOperations_vars]
  by_cases hany : m.vars.any (·.offset = v.offset)
  · rw [if_pos hany, if_pos hany]
  · rw [if_neg hany, if_neg hany]
    rfl

theorem assign_withOperations (value : Value) (sources : List (Option UInt32)) :
    (m.withOperations ops).assign value sources = (m.assign value sources).withOperations ops :=
  keep_withOperations ops (m.state (.assign m.pointer value)) _

theorem move_withOperations (width : UInt32) :
    (m.withOperations ops).move width = (m.move width).withOperations ops := by
  unfold move
  rw [withOperations_stack]
  cases m.stack with
  | nil => rfl
  | cons top rest => exact assign_withOperations ops { m with stack := [] } _ _

theorem command_withOperations (id : UInt32) :
    (m.withOperations ops).command id = (m.command id).withOperations ops := by
  unfold command
  simp only [withOperations_stack]
  cases commandValue? id m.stack.reverse with
  | some found => exact assign_withOperations ops { m with stack := [] } _ _
  | none =>
      exact keep_withOperations ops ({ m with stack := [] }.state (.command m.pointer id _)) _

theorem fetch_withOperations (slot : UInt32) :
    (m.withOperations ops).fetch pools slot
      = ((m.fetch pools slot).1.withOperations ops, (m.fetch pools slot).2) := by
  unfold fetch
  cases pools.pool[slot.toNat]? <;> rfl

/-- An instruction takes no notice of the operations before it. -/
theorem perform_withOperations (i : Instruction) :
    (m.withOperations ops).perform pools i
      = ((m.perform pools i).1.withOperations ops, (m.perform pools i).2) := by
  obtain ⟨offset, opcode, operand, extension⟩ := i
  cases opcode with
  | read => exact fetch_withOperations pools ops m _
  | readWide => exact fetch_withOperations pools ops m _
  | command => exact congrArg (·, none) (command_withOperations ops m _)
  | commandWide => exact congrArg (·, none) (command_withOperations ops m _)
  | move8 => exact congrArg (·, none) (move_withOperations ops m _)
  | _ => rfl

/-- An instruction leaves the operations before it as they are. -/
theorem perform_operations (i : Instruction) :
    (m.perform pools i).1.operations = m.operations := by
  -- a machine with its own operations behind it is the machine itself
  have hsame : m.withOperations m.operations = m := rfl
  have h := perform_withOperations pools m.operations m i
  rw [hsame] at h
  exact congrArg (fun r => r.1.operations) h

theorem step_operations (i : Instruction) :
    (m.step pools i).operations = m.operations.push ⟨i, (m.perform pools i).2⟩ := by
  rw [step_eq_note, note, withOperations_operations, perform_operations]

/-- An instruction does the same at another place. -/
theorem perform_relocate (start start' : Nat) (i : Instruction) :
    (m.relocate start start').perform pools (i.relocate start start')
      = ((m.perform pools i).1.relocate start start', (m.perform pools i).2) := by
  have hplace : (m.relocate start start').perform pools (i.relocate start start')
      = (m.relocate start start').perform pools i := rfl
  rw [hplace, relocate, perform_withOperations, relocate, perform_operations]

theorem note_relocate (start start' : Nat) (i : Instruction) (fetched : Option Value) :
    (m.relocate start start').note (i.relocate start start') fetched
      = (m.note i fetched).relocate start start' := by
  simp [note, relocate, withOperations, Operation.relocate]

theorem step_relocate (start start' : Nat) (i : Instruction) :
    (m.relocate start start').step pools (i.relocate start start')
      = (m.step pools i).relocate start start' := by
  rw [step_eq_note, perform_relocate, step_eq_note]
  exact note_relocate _ start start' i _

end Perform

/-! ## Running a listing -/

/-- What the machine has after a listing: from the first bad move on, instructions are only
listed. -/
def run (pools : Pools) (is : List Instruction) : Machine :=
  (is.dropWhile fun i => !i.isBadMove).foldl list
    ((is.takeWhile fun i => !i.isBadMove).foldl (step pools) {})

variable (pools : Pools)

theorem foldl_step_relocate (start start' : Nat) (is : List Instruction) (m : Machine) :
    (is.map (Instruction.relocate start start')).foldl (step pools) (m.relocate start start')
      = (is.foldl (step pools) m).relocate start start' := by
  induction is generalizing m with
  | nil => rfl
  | cons i is ih => rw [List.map_cons, List.foldl_cons, List.foldl_cons, step_relocate, ih]

theorem foldl_list_relocate (start start' : Nat) (is : List Instruction) (m : Machine) :
    (is.map (Instruction.relocate start start')).foldl list (m.relocate start start')
      = (is.foldl list m).relocate start start' := by
  induction is generalizing m with
  | nil => rfl
  | cons i is ih =>
      rw [List.map_cons, List.foldl_cons, List.foldl_cons, list_eq_note, note_relocate, ih]
      rfl

theorem run_relocate (start start' : Nat) (is : List Instruction) :
    run pools (is.map (Instruction.relocate start start'))
      = (run pools is).relocate start start' := by
  -- whether a move is bad does not depend on where it stands
  have hbad : (fun i : Instruction => !i.isBadMove) ∘ Instruction.relocate start start'
      = fun i => !i.isBadMove := rfl
  unfold run
  rw [List.takeWhile_map, List.dropWhile_map, hbad]
  have hempty : Machine.relocate start start' {} = {} := by simp [relocate, withOperations]
  conv_lhs => rw [← hempty]
  rw [foldl_step_relocate, foldl_list_relocate]

/-- An `END` behind a listing is listed and does nothing, whether or not there was a bad move. -/
theorem run_append_stop (is : List Instruction) (offset : Nat) (operand : UInt32) :
    run pools (is ++ [⟨offset, .stop, operand, 0⟩])
      = (run pools is).note ⟨offset, .stop, operand, 0⟩ none := by
  unfold run
  by_cases hall : ∀ i ∈ is, (!i.isBadMove) = true
  · -- all instructions are performed, and so is the END
    rw [List.takeWhile_append_of_pos hall, List.dropWhile_append_of_pos hall,
      List.takeWhile_eq_self_iff.mpr hall, List.dropWhile_eq_nil_iff.mpr hall]
    show (is ++ [_]).foldl (step pools) {} = _
    rw [List.foldl_append]
    rfl
  · -- the END stands behind a bad move and is only listed
    have hdrop : ¬ (is.dropWhile fun i => !i.isBadMove).isEmpty = true := by
      rw [List.isEmpty_iff, List.dropWhile_eq_nil_iff]
      exact hall
    have htake : ¬ (is.takeWhile fun i => !i.isBadMove).length = is.length := by
      intro hlen
      have hself := (List.takeWhile_prefix (l := is) fun i => !i.isBadMove).eq_of_length hlen
      exact hall (List.takeWhile_eq_self_iff.mp hself)
    rw [List.takeWhile_append, List.dropWhile_append, if_neg hdrop, if_neg htake, List.foldl_append]
    rfl

/-- What ends a listing adds to the operations and to nothing else. -/
theorem run_append_closing (is : List Instruction) (e : Ending) (offset : Nat) :
    run pools (is ++ Listing.closing e offset)
      = (run pools is).withOperations ((run pools is).operations
          ++ (Listing.closing e offset).map fun i => (⟨i, none⟩ : Operation)) := by
  cases e with
  | finished =>
      rw [Listing.closing, List.append_nil, List.map_nil, Array.appendList_nil]
      rfl
  | truncated o =>
      rw [Listing.closing, run_append_stop]
      rfl

/-! ## What is listed -/

theorem foldl_step_instructions (is : List Instruction) (m : Machine) :
    (is.foldl (step pools) m).operations.toList.map Operation.toInstruction
      = m.operations.toList.map Operation.toInstruction ++ is := by
  induction is generalizing m with
  | nil => simp
  | cons i is ih => simp [ih, step_operations]

theorem foldl_list_instructions (is : List Instruction) (m : Machine) :
    (is.foldl list m).operations.toList.map Operation.toInstruction
      = m.operations.toList.map Operation.toInstruction ++ is := by
  induction is generalizing m with
  | nil => simp
  | cons i is ih => simp [ih, list]

/-- The operations of a body are the instructions of its listing. -/
theorem run_instructions (is : List Instruction) :
    (run pools is).operations.toList.map Operation.toInstruction = is := by
  unfold run
  rw [foldl_list_instructions, foldl_step_instructions]
  exact List.takeWhile_append_dropWhile

end Machine

/-! ## Bodies -/

/-- How decoding a listing ends. -/
def Listing.status (l : Listing) : Status :=
  match l.instructions.find? Instruction.isBadMove, l.ending with
  | some bad, _ => .badMove bad.operand bad.offset
  | none, .finished => .complete
  | none, .truncated offset => .truncated offset

namespace Body

/-- The instructions of the body, in order. -/
def instructions (b : Body) : List Instruction := b.operations.toList.map Operation.toInstruction

/-- The listing ends in an `END`. -/
def Ended (b : Body) : Prop := b.instructions.getLast?.map Instruction.opcode = some .stop

instance (b : Body) : Decidable b.Ended := inferInstanceAs (Decidable (_ = _))

/-- The bytes that the listing is written out to, without an `END` put behind it. -/
def byteLength (b : Body) : Nat := 2 * (b.instructions.flatMap Instruction.words).length

/-- The operation that is put behind a listing, the first word of which stands at `offset`, to end
it. -/
def closing (b : Body) (offset : Nat) : List Operation :=
  if b.Ended then [] else [⟨⟨offset + b.byteLength, .stop, 0, 0⟩, none⟩]

/-- The body of a function that is written out on its own and starts at word number `start'` then,
where it started at word number `start` before: the offsets move along with the start, a listing
without an `END` has got one, and all else is as before. -/
def relocated (start start' : Nat) (b : Body) : Body :=
  { b with
    operations := b.operations.map (Operation.relocate (2 * start) (2 * start'))
      ++ b.closing (2 * start')
    status := b.status.relocate (2 * start) (2 * start') }

theorem ofListing_eq (pools : Pools) (l : Listing) :
    ofListing pools l = ⟨(Machine.run pools l.instructions).operations,
      (Machine.run pools l.instructions).vars, (Machine.run pools l.instructions).statements,
      l.status⟩ := by
  have hfind : l.instructions.find? Instruction.isBadMove
      = (l.instructions.dropWhile fun i => !i.isBadMove).head? :=
    l.instructions.find?_eq_head?_dropWhile_not _
  unfold ofListing Machine.run Listing.status
  rw [hfind]
  cases l.instructions.dropWhile fun i => !i.isBadMove with
  | nil => cases l.ending <;> rfl
  | cons bad rest => rfl

theorem ofListing_instructions (pools : Pools) (l : Listing) :
    (ofListing pools l).instructions = l.instructions := by
  rw [ofListing_eq]
  exact Machine.run_instructions pools l.instructions

/-- What is listed depends on the code alone, and what is done with it on all else. -/
theorem ofListing_code (pools : Pools) (code : List UInt16) (l : Listing) :
    ofListing { pools with code } l = ofListing pools l := rfl

end Body

theorem Listing.status_relocated (l : Listing) (start start' : Nat) :
    (l.relocated start start').status = l.status.relocate (2 * start) (2 * start') := by
  obtain ⟨is, e⟩ := l
  have hmap : (is.map (Instruction.relocate (2 * start) (2 * start'))).find? Instruction.isBadMove
      = (is.find? Instruction.isBadMove).map (Instruction.relocate (2 * start) (2 * start')) :=
    List.find?_map
  have hclosing : ∀ offset, (closing e offset).find? Instruction.isBadMove = none := by
    intro offset
    cases e <;> rfl
  unfold status relocated
  rw [List.find?_append, hmap, hclosing]
  cases is.find? Instruction.isBadMove with
  | none => cases e <;> rfl
  | some bad => rfl

namespace Body

theorem ended_ofListing (pools : Pools) {l : Listing} (hl : l.Proper) :
    (ofListing pools l).Ended ↔ l.ending = .finished := by
  unfold Ended
  rw [ofListing_instructions]
  exact hl.symm

/-- A body and its listing are ended in the same way. -/
theorem closing_ofListing (pools : Pools) {l : Listing} (hl : l.Proper) (offset : Nat) :
    (ofListing pools l).closing offset
      = (Listing.closing l.ending
          (offset + 2 * (l.instructions.flatMap Instruction.words).length)).map
            fun i => (⟨i, none⟩ : Operation) := by
  have hended := ended_ofListing pools hl
  rw [closing, byteLength, ofListing_instructions]
  cases hending : l.ending with
  | finished => rw [if_pos (hended.mpr hending), Listing.closing, List.map_nil]
  | truncated o =>
      rw [if_neg fun h => nomatch hending.symm.trans (hended.mp h)]
      rfl

/-- Decoding a listing that is relocated gives the relocated body: what the machine does for the
instructions is the same, and the `END` behind them does nothing. -/
theorem ofListing_relocated (pools : Pools) {l : Listing} (hl : l.Proper) (start start' : Nat) :
    ofListing pools (l.relocated start start') = (ofListing pools l).relocated start start' := by
  have hclosing := closing_ofListing pools hl (2 * start')
  rw [ofListing_eq pools (l.relocated start start'), Listing.status_relocated, Listing.relocated,
    Machine.run_append_closing, Machine.run_relocate, relocated, hclosing, ofListing_eq pools l]
  rfl

/-- Nothing in the body of a function stands before its start. -/
theorem start_le_offset (pools : Pools) (start : UInt32) :
    (∀ i ∈ (decode pools start).instructions, 2 * start.toNat ≤ i.offset)
      ∧ ∀ width offset, (decode pools start).status = .badMove width offset →
        2 * start.toNat ≤ offset := by
  have hle := (Listing.lists_read pools.code start.toNat).le_offset
  constructor
  · rw [decode, ofListing_instructions]
    exact hle
  · intro width offset hstatus
    rw [decode, ofListing_eq] at hstatus
    have hstatus : (Listing.read pools.code start.toNat).status = .badMove width offset := hstatus
    unfold Listing.status at hstatus
    split at hstatus
    · next hbad =>
        cases hstatus
        exact hle _ (List.mem_of_find?_eq_some hbad)
    · cases hstatus
    · cases hstatus

/-! ## Writing a body -/

/-- The words of the body, with an `END` where it has none. -/
def words (b : Body) : List UInt16 :=
  b.instructions.flatMap Instruction.words ++ if b.Ended then [] else [Opcode.stop.word 0]

theorem instructions_relocated (start start' : Nat) (b : Body) :
    (b.relocated start start').instructions
      = b.instructions.map (Instruction.relocate (2 * start) (2 * start'))
        ++ (b.closing (2 * start')).map Operation.toInstruction := by
  simp [instructions, relocated, Operation.relocate]

/-- A body that was written out ends in an `END`. -/
theorem ended_relocated (start start' : Nat) (b : Body) : (b.relocated start start').Ended := by
  unfold Ended
  rw [instructions_relocated, closing]
  by_cases hended : b.Ended
  · rw [if_pos hended, List.map_nil, List.append_nil, List.getLast?_map, Option.map_map]
    exact hended
  · rw [if_neg hended, List.map_singleton, List.getLast?_concat]
    rfl

/-- Once written out, a body is written out the same way wherever it stands. -/
theorem words_relocated (start start' : Nat) (b : Body) :
    (b.relocated start start').words = b.words := by
  have hmap : (b.instructions.map (Instruction.relocate (2 * start) (2 * start'))).flatMap
      Instruction.words = b.instructions.flatMap Instruction.words := List.flatMap_map ..
  rw [words, if_pos (ended_relocated start start' b), instructions_relocated, closing,
    List.append_nil, List.flatMap_append, hmap, words]
  by_cases hended : b.Ended
  · rw [if_pos hended, if_pos hended]
    rfl
  · rw [if_neg hended, if_neg hended]
    rfl

theorem words_ofListing (pools : Pools) {l : Listing} (hl : l.Proper) :
    (ofListing pools l).words = l.words := by
  have hended := ended_ofListing pools hl
  rw [words, ofListing_instructions, Listing.words]
  cases hending : l.ending with
  | finished => rw [if_pos (hended.mpr hending)]; rfl
  | truncated offset =>
      rw [if_neg fun h => nomatch hending.symm.trans (hended.mp h)]
      rfl

/-- **A body that is written out is read again wherever its words stand**, in whatever code. -/
theorem decode_of_words {pools : Pools} {code behind : List UInt16} {start start' : UInt32}
    (hcode : code.drop start'.toNat = (decode pools start).words ++ behind) :
    decode { pools with code } start'
      = (decode pools start).relocated start.toNat start'.toNat := by
  have hproper := Listing.proper_read pools.code start.toNat
  rw [decode, words_ofListing pools hproper] at hcode
  rw [decode, Listing.read_words hcode, ofListing_code, ofListing_relocated pools hproper, decode]

end Body

end ChunkArchive
