import ChunkArchive.Proofs.Lists
import ChunkArchive.Proofs.Reader
import ChunkArchive.Proofs.Script.Relocation

/-!
# Running a function without its pools

Which instructions fetch, what they push and what they store is known from the code and the number
of pool slots alone. `Outline.run` goes through a listing in this way: in place of values there are
their sources, and in place of variables what has been stored. `Outline.fill` puts in what the pools
of a module hold, and the machine that it gives is the one that the listing leads to
(`Machine.run_eq_fill`). Two runs of the same code can so be compared source by source.
-/

set_option autoImplicit false

namespace ChunkArchive

/-! ## Sources -/

/-- A word of the pool is kept as it is, as an integer or as the bits of a float. -/
theorem Value.ofPoolWord_cases (names : NameTable) (word : UInt32) :
    ofPoolWord names word = .uint word ∨ ofPoolWord names word = .float ⟨word⟩ := by
  unfold ofPoolWord
  by_cases hname : names.contains word
  · exact Or.inl (if_pos hname)
  · rw [if_neg hname]
    by_cases hbeyond : Single.isBeyond ⟨word⟩ floatLimit
    · exact Or.inl (if_pos hbeyond)
    · exact Or.inr (if_neg hbeyond)

/-- Where a value on the stack comes from: a slot of the pool, the string at an offset, or the
instruction itself. -/
inductive Source where
  | slot (n : UInt32)
  | text (offset : UInt32)
  | literal (n : UInt32)

namespace Source

/-- The value that comes from there. -/
def value (pools : Pools) : Source → Value
  | .slot n => .ofPoolWord pools.names (pools.pool[n.toNat]?.getD 0)
  | .text offset => .string (stringAt pools.strings offset.toNat)
  | .literal n => .uint n

/-- The slot that it is, if it is one. -/
def slot? : Source → Option UInt32
  | .slot n => some n
  | .text _ | .literal _ => none

/-- What is pushed is an integer, a float or a string. -/
theorem value_cases (pools : Pools) (s : Source) :
    (∃ n, s.value pools = .uint n) ∨ (∃ x, s.value pools = .float x)
      ∨ ∃ t, s.value pools = .string t := by
  cases s with
  | slot n =>
      rcases Value.ofPoolWord_cases pools.names (pools.pool[n.toNat]?.getD 0) with h | h
      · exact Or.inl ⟨_, h⟩
      · exact Or.inr (Or.inl ⟨_, h⟩)
  | text offset => exact Or.inr (Or.inr ⟨_, rfl⟩)
  | literal n => exact Or.inl ⟨n, rfl⟩

def item (pools : Pools) (s : Source) : Item := ⟨s.value pools, s.slot?⟩

@[simp] theorem map_value_item (pools : Pools) (ss : List Source) :
    (ss.map (item pools)).map Item.value = ss.map (value pools) := by simp [item]

@[simp] theorem map_source_item (pools : Pools) (ss : List Source) :
    (ss.map (item pools)).map Item.source = ss.map slot? := by simp [item]

end Source

/-! ## Commands -/

/-- The items stand for the numbers when each of them stands for the one in its place. -/
theorem numbers?_eq_some {n : Nat} {items : List Item} {v : Vector Single n} :
    numbers? n items = some v ↔ items.map (fun i => i.value.single?) = v.toList.map some := by
  unfold numbers?
  rw [Option.bind_eq_some_iff]
  constructor
  · rintro ⟨xs, hxs, h⟩
    split at h
    · cases h
      exact mapM_eq_some.mp hxs
    · cases h
  · intro h
    refine ⟨v.toList, mapM_eq_some.mpr h, ?_⟩
    rw [dif_pos (by simp)]
    exact congrArg some (Vector.toArray_inj.mp (Array.toArray_toList ..))

/-! ## Stores -/

/-- The value that a move of a width makes of the one that was pushed last. -/
def Value.inWidth (width : UInt32) (v : Value) : Value :=
  if width = 4 then v else if width = 2 then v.toShort else v.toByte

/-- What is stored at an offset: the value pushed last, in a width, or what a command makes of all
that has been pushed. -/
inductive Store where
  | move (width : UInt32) (top : Source)
  | command (id : UInt32) (arguments : List Source)

namespace Store

/-- The variable that there is afterwards, if it is the first one at its offset. -/
def var (pools : Pools) (offset : UInt32) : Store → Variable
  | .move width top => ⟨offset, (top.value pools).inWidth width, [top.slot?]⟩
  | .command id arguments =>
    match commandValue? id (arguments.map (Source.item pools)) with
    | some (value, sources) => ⟨offset, value, sources⟩
    | none => ⟨offset, .list (arguments.map (Source.value pools)), []⟩

def statement (pools : Pools) (offset : UInt32) : Store → Statement
  | .move width top => .assign offset ((top.value pools).inWidth width)
  | .command id arguments =>
    match commandValue? id (arguments.map (Source.item pools)) with
    | some (value, _) => .assign offset value
    | none => .command offset id (arguments.map (Source.value pools))

@[simp] theorem offset_var (pools : Pools) (offset : UInt32) (s : Store) :
    (s.var pools offset).offset = offset := by
  cases s with
  | move width top => rfl
  | command id arguments =>
      cases h : commandValue? id (arguments.map (Source.item pools)) <;> simp only [var, h]

end Store

/-- What a statement tells. -/
inductive Event where
  | store (offset : UInt32) (s : Store)
  | operation (opcode : Opcode) (operand : UInt32)

def Event.statement (pools : Pools) : Event → Statement
  | .store offset s => s.statement pools offset
  | .operation opcode operand => .operation opcode operand

/-! ## Outlines -/

/-- A machine that knows what comes from where, but not what is there. -/
structure Outline where
  /-- The source pushed last comes first. -/
  stack : List Source := []
  pointer : UInt32 := 0
  operations : Array (Instruction × Option Source) := #[]
  vars : Array (UInt32 × Store) := #[]
  statements : Array Event := #[]

namespace Outline

def push (o : Outline) (s : Source) : Outline := { o with stack := s :: o.stack }

/-- Pushes a slot of the pool, if there are enough of them. -/
def fetch (slots : Nat) (o : Outline) (slot : UInt32) : Outline × Option Source :=
  if slot.toNat < slots then (o.push (.slot slot), some (.slot slot)) else (o, none)

def fetchText (o : Outline) (offset : UInt32) : Outline × Option Source :=
  (o.push (.text offset), some (.text offset))

def tell (o : Outline) (e : Event) : Outline := { o with statements := o.statements.push e }

/-- Keeps what is stored, unless there is something at this offset. -/
def keep (o : Outline) (offset : UInt32) (s : Store) : Outline :=
  if o.vars.any (·.1 = offset) then o else { o with vars := o.vars.push (offset, s) }

/-- Stores at the offset of the pointer, with nothing left on the stack. -/
def store (o : Outline) (s : Store) : Outline :=
  ({ o with stack := [] }.tell (.store o.pointer s)).keep o.pointer s

def move (o : Outline) (width : UInt32) : Outline :=
  match o.stack with
  | [] => o
  | top :: _ => o.store (.move width top)

def command (o : Outline) (id : UInt32) : Outline := o.store (.command id o.stack.reverse)

def perform (slots : Nat) (o : Outline) (i : Instruction) : Outline × Option Source :=
  match i.opcode with
  | .read => o.fetch slots i.operand
  | .readWide => o.fetch slots i.wide
  | .string => o.fetchText i.operand
  | .stringWide => o.fetchText i.wide
  | .set => (o.push (.literal i.operand), none)
  | .command => (o.command i.operand, none)
  | .commandWide => (o.command i.wide, none)
  | .pointer => ({ o with pointer := i.operand * 4 + 4 }, none)
  | .shiftPointer => ({ o with pointer := o.pointer + i.operand }, none)
  | .shiftPointerWide => ({ o with pointer := o.pointer + i.wide }, none)
  | .move8 => (o.move i.operand, none)
  | .jump | .jumpNoAdjust | .moveIndirect | .noop | .stop => (o, none)
  | .run | .move4 | .setFunctionHash | .unknown _ => (o.tell (.operation i.opcode i.operand), none)

def note (o : Outline) (i : Instruction) (fetched : Option Source) : Outline :=
  { o with operations := o.operations.push (i, fetched) }

def step (slots : Nat) (o : Outline) (i : Instruction) : Outline :=
  (o.perform slots i).1.note i (o.perform slots i).2

def list (o : Outline) (i : Instruction) : Outline := o.note i none

/-- What a listing leads to with the given number of pool slots. -/
def run (slots : Nat) (is : List Instruction) : Outline :=
  (is.dropWhile fun i => !i.isBadMove).foldl list
    ((is.takeWhile fun i => !i.isBadMove).foldl (step slots) {})

/-! ## Filling in -/

def fillOperation (pools : Pools) (e : Instruction × Option Source) : Operation :=
  ⟨e.1, e.2.map (Source.value pools)⟩

def fillVar (pools : Pools) (e : UInt32 × Store) : Variable := e.2.var pools e.1

/-- The machine with the values that come from the given pools. -/
def fill (pools : Pools) (o : Outline) : Machine where
  stack := o.stack.map (Source.item pools)
  pointer := o.pointer
  operations := o.operations.map (fillOperation pools)
  vars := o.vars.map (fillVar pools)
  statements := o.statements.map (Event.statement pools)

section Fill

variable (pools : Pools) (o : Outline)

@[simp] theorem stack_fill : (o.fill pools).stack = o.stack.map (Source.item pools) := rfl

@[simp] theorem vars_fill : (o.fill pools).vars = o.vars.map (fillVar pools) := rfl

theorem fill_withPointer (p : UInt32) :
    ({ o with pointer := p } : Outline).fill pools = { o.fill pools with pointer := p } := rfl

@[simp] theorem fill_push (s : Source) :
    (o.push s).fill pools = (o.fill pools).push (s.value pools) s.slot? := rfl

@[simp] theorem fill_tell (e : Event) :
    (o.tell e).fill pools = (o.fill pools).state (e.statement pools) := by
  simp [tell, fill, Machine.state]

theorem fill_keep (offset : UInt32) (s : Store) :
    (o.keep offset s).fill pools = (o.fill pools).keep (s.var pools offset) := by
  -- there is a variable at an offset when something has been stored there
  have hany : (o.fill pools).vars.any (·.offset = (s.var pools offset).offset)
      = o.vars.any (·.1 = offset) := by
    rw [vars_fill, Array.any_map, Store.offset_var]
    congr 1
    funext e
    exact congrArg (fun k => decide (k = offset)) (e.2.offset_var pools e.1)
  unfold keep Machine.keep
  rw [hany]
  by_cases h : o.vars.any (·.1 = offset)
  · rw [if_pos h, if_pos h]
  · rw [if_neg h, if_neg h]
    simp [fill, fillVar]

theorem fill_store (s : Store) :
    (o.store s).fill pools
      = ({ o.fill pools with stack := [] }.state (s.statement pools o.pointer)).keep
          (s.var pools o.pointer) := by
  rw [store, fill_keep, fill_tell]
  rfl

theorem fill_fetch (slot : UInt32) :
    (o.fill pools).fetch pools slot
      = ((o.fetch pools.pool.size slot).1.fill pools,
          (o.fetch pools.pool.size slot).2.map (Source.value pools)) := by
  unfold fetch Machine.fetch
  by_cases hslot : slot.toNat < pools.pool.size
  · have hword : pools.pool[slot.toNat]? = some pools.pool[slot.toNat] :=
      Array.getElem?_eq_getElem hslot
    have hvalue : Source.value pools (.slot slot)
        = .ofPoolWord pools.names pools.pool[slot.toNat] := by
      rw [Source.value, hword, Option.getD_some]
    rw [if_pos hslot, hword, fill_push, Option.map_some, hvalue]
    rfl
  · have hnone : pools.pool[slot.toNat]? = none := Array.getElem?_eq_none (Nat.le_of_not_lt hslot)
    rw [if_neg hslot, hnone]
    rfl

theorem fill_fetchText (offset : UInt32) :
    (o.fill pools).fetchString pools offset
      = ((o.fetchText offset).1.fill pools,
          (o.fetchText offset).2.map (Source.value pools)) := rfl

theorem fill_move (width : UInt32) :
    (o.fill pools).move width = (o.move width).fill pools := by
  unfold move Machine.move
  rw [stack_fill]
  cases o.stack with
  | nil => rfl
  | cons top rest =>
      rw [List.map_cons, fill_store]
      rfl

theorem fill_command (id : UInt32) :
    (o.fill pools).command id = (o.command id).fill pools := by
  have hstack : (o.fill pools).stack.reverse = o.stack.reverse.map (Source.item pools) := by
    rw [stack_fill, List.map_reverse]
  unfold command Machine.command
  rw [hstack, fill_store]
  -- whether the command makes a value of its arguments decides between the two kinds of statement
  cases h : commandValue? id (o.stack.reverse.map (Source.item pools)) with
  | some found =>
      simp only [Store.var, Store.statement, h]
      rfl
  | none =>
      simp only [Store.var, Store.statement, h, Source.map_value_item]
      rfl

/-- An instruction does to the outline what it does to the machine. -/
theorem fill_perform (i : Instruction) :
    (o.fill pools).perform pools i
      = ((o.perform pools.pool.size i).1.fill pools,
          (o.perform pools.pool.size i).2.map (Source.value pools)) := by
  obtain ⟨offset, opcode, operand, extension⟩ := i
  cases opcode with
  | read => exact fill_fetch pools o _
  | readWide => exact fill_fetch pools o _
  | string => exact fill_fetchText pools o _
  | stringWide => exact fill_fetchText pools o _
  | command => exact congrArg (·, none) (fill_command pools o _)
  | commandWide => exact congrArg (·, none) (fill_command pools o _)
  | move8 => exact congrArg (·, none) (fill_move pools o _)
  | pointer | shiftPointer | shiftPointerWide =>
      exact congrArg (·, none) (fill_withPointer pools o _).symm
  | run | move4 | setFunctionHash | unknown _ =>
      exact congrArg (·, none) (fill_tell pools o (.operation _ operand)).symm
  | _ => rfl

theorem fill_note (i : Instruction) (fetched : Option Source) :
    (o.note i fetched).fill pools = (o.fill pools).note i (fetched.map (Source.value pools)) := by
  simp [note, fill, fillOperation, Machine.note, Machine.withOperations]

theorem fill_step (i : Instruction) :
    (o.fill pools).step pools i = (o.step pools.pool.size i).fill pools := by
  rw [Machine.step_eq_note, fill_perform, step, fill_note]

theorem fill_list (i : Instruction) : (o.fill pools).list i = (o.list i).fill pools := by
  rw [Machine.list_eq_note, list, fill_note]
  rfl

theorem foldl_fill_step (is : List Instruction) :
    is.foldl (Machine.step pools) (o.fill pools)
      = (is.foldl (step pools.pool.size) o).fill pools := by
  induction is generalizing o with
  | nil => rfl
  | cons i is ih => rw [List.foldl_cons, List.foldl_cons, fill_step, ih]

theorem foldl_fill_list (is : List Instruction) :
    is.foldl Machine.list (o.fill pools) = (is.foldl list o).fill pools := by
  induction is generalizing o with
  | nil => rfl
  | cons i is ih => rw [List.foldl_cons, List.foldl_cons, fill_list, ih]

end Fill

end Outline

/-- **A machine is its outline filled in**: what the pools hold decides about values and about
nothing else. -/
theorem Machine.run_eq_fill (pools : Pools) (is : List Instruction) :
    Machine.run pools is = (Outline.run pools.pool.size is).fill pools := by
  have hempty : Outline.fill pools {} = {} := by simp [Outline.fill]
  unfold Machine.run Outline.run
  rw [← Outline.foldl_fill_list, ← Outline.foldl_fill_step, hempty]

namespace Body

/-- The outline of the function that starts at the given word of the code. -/
def outline (slots : Nat) (code : List UInt16) (start : UInt32) : Outline :=
  .run slots (Listing.read code start.toNat).instructions

theorem decode_eq_fill (pools : Pools) (start : UInt32) :
    let o := outline pools.pool.size pools.code start
    decode pools start
      = ⟨o.operations.map (Outline.fillOperation pools), o.vars.map (Outline.fillVar pools),
          o.statements.map (Event.statement pools),
          (Listing.read pools.code start.toNat).status⟩ := by
  intro o
  rw [decode, ofListing_eq, Machine.run_eq_fill]
  rfl

end Body

end ChunkArchive
