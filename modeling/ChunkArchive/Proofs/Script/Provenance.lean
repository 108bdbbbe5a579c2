import ChunkArchive.Proofs.Script.Lossless
import ChunkArchive.Proofs.Script.Shape

/-!
# Where the components of a variable come from

An instruction that stores takes everything that has been pushed since the last one that stored
(`pending`). So each variable is what one instruction makes of what the instructions before it have
pushed (`Outline.exists_store`), and its components are known one by one with their sources
(`Body.decode_provenance`): a component that names a slot is what the word in this slot gives, and
one that names none was a number in the code or a string.
-/

set_option autoImplicit false

namespace ChunkArchive

/-! ## What is pushed and what is taken -/

namespace Instruction

/-- What an instruction pushes. Of a slot that the pool does not have nothing is pushed. -/
def pushes? (slots : Nat) (i : Instruction) : Option Source :=
  match i.opcode with
  | .read => if i.operand.toNat < slots then some (.slot i.operand) else none
  | .readWide => if i.wide.toNat < slots then some (.slot i.wide) else none
  | .string => some (.text i.operand)
  | .stringWide => some (.text i.wide)
  | .set => some (.literal i.operand)
  | _ => none

/-- The command that an instruction gives. -/
def commandId? (i : Instruction) : Option UInt32 :=
  match i.opcode with
  | .command => some i.operand
  | .commandWide => some i.wide
  | _ => none

/-- Whether nothing that has been pushed is left behind the instruction. -/
def takesAll (i : Instruction) : Bool := i.opcode = .move8 || i.commandId?.isSome

/-- What an instruction stores of everything that has been pushed, in the order of pushing. -/
def store? (i : Instruction) (pushed : List Source) : Option Store :=
  if i.opcode = .move8 then pushed.getLast?.map (.move i.operand)
  else i.commandId?.map fun id => .command id pushed

end Instruction

/-- What the instructions have pushed since the last one that took everything. -/
def pending (slots : Nat) (is : List Instruction) : List Source :=
  (is.reverse.takeWhile fun i => !i.takesAll).reverse.filterMap (Instruction.pushes? slots)

theorem pending_append (slots : Nat) (is : List Instruction) (i : Instruction) :
    pending slots (is ++ [i])
      = if i.takesAll then [] else pending slots is ++ (i.pushes? slots).toList := by
  rw [pending, List.reverse_append, List.reverse_singleton, List.singleton_append,
    List.takeWhile_cons]
  cases i.takesAll with
  | true => rfl
  | false =>
      show List.filterMap _ (List.reverse (i :: _)) = _
      rw [List.reverse_cons, List.filterMap_append, ← pending]
      rfl

/-- What is pending was pushed by one of the instructions. -/
theorem exists_pushes_of_mem_pending {slots : Nat} {is : List Instruction} {s : Source}
    (h : s ∈ pending slots is) : ∃ j ∈ is, j.pushes? slots = some s := by
  obtain ⟨j, hj, hpush⟩ := List.mem_filterMap.mp h
  have hmem : j ∈ is.reverse := (List.takeWhile_prefix _).subset (List.mem_reverse.mp hj)
  exact ⟨j, List.mem_reverse.mp hmem, hpush⟩

namespace Outline

variable {slots : Nat} {o : Outline}

/-- What an instruction leaves on the stack. -/
theorem stack_perform (i : Instruction) :
    (o.perform slots i).1.stack
      = if i.takesAll then [] else (i.pushes? slots).toList ++ o.stack := by
  have hstore : ∀ s, (o.store s).stack = [] := by
    intro s
    unfold store keep
    split <;> rfl
  have hfetch : ∀ slot, (o.fetch slots slot).1.stack
      = (if slot.toNat < slots then some (Source.slot slot) else none).toList ++ o.stack := by
    intro slot
    unfold fetch
    split <;> rfl
  obtain ⟨offset, opcode, operand, extension⟩ := i
  cases opcode with
  | read => exact hfetch _
  | readWide => exact hfetch _
  | command => exact hstore _
  | commandWide => exact hstore _
  | move8 =>
      show (o.move operand).stack = []
      unfold move
      split
      · assumption
      · exact hstore _
  | _ => rfl

/-- The stack holds what is pending, the last push first. -/
theorem stack_steps (is : List Instruction) :
    (is.foldl (step slots) {}).stack = (pending slots is).reverse := by
  induction is using List.reverseRecOn with
  | nil => rfl
  | append_singleton is i ih =>
      rw [List.foldl_append, List.foldl_cons, List.foldl_nil, pending_append]
      refine (stack_perform i).trans ?_
      rw [ih]
      cases i.takesAll with
      | true => rfl
      | false => cases i.pushes? slots <;> simp

/-- A variable that is there after an instruction was there before, or the instruction stores it. -/
theorem mem_vars_perform {i : Instruction} {e : UInt32 × Store}
    (h : e ∈ (o.perform slots i).1.vars) :
    e ∈ o.vars ∨ i.store? o.stack.reverse = some e.2 := by
  have hstore : ∀ s, e ∈ (o.store s).vars → e ∈ o.vars ∨ s = e.2 := by
    intro s h
    unfold store keep at h
    split at h
    · exact Or.inl h
    · rcases Array.mem_push.mp h with h | rfl
      · exact Or.inl h
      · exact Or.inr rfl
  have hfetch : ∀ slot, (o.fetch slots slot).1.vars = o.vars := by
    intro slot
    unfold fetch
    split <;> rfl
  obtain ⟨offset, opcode, operand, extension⟩ := i
  cases opcode with
  | read => exact Or.inl (hfetch operand ▸ h)
  | readWide => exact Or.inl (hfetch _ ▸ h)
  | command => exact (hstore _ h).imp_right (congrArg some)
  | commandWide => exact (hstore _ h).imp_right (congrArg some)
  | move8 =>
      change e ∈ (o.move operand).vars at h
      unfold move at h
      split at h
      · exact Or.inl h
      · next top rest hstack =>
          refine (hstore _ h).imp_right fun hs => ?_
          show o.stack.reverse.getLast?.map _ = _
          rw [hstack, List.getLast?_reverse, List.head?_cons, Option.map_some, hs]
  | _ => exact Or.inl h

/-- **Every variable was stored by one of the instructions**, of what was pending then. -/
theorem exists_store {is : List Instruction} {e : UInt32 × Store}
    (h : e ∈ (is.foldl (step slots) {}).vars) :
    ∃ before i behind, is = before ++ i :: behind ∧ i.store? (pending slots before) = some e.2 := by
  induction is using List.reverseRecOn with
  | nil => exact absurd h (Array.not_mem_empty e)
  | append_singleton is i ih =>
      rw [List.foldl_append, List.foldl_cons, List.foldl_nil] at h
      rcases mem_vars_perform h with h | h
      · obtain ⟨before, j, behind, rfl, hj⟩ := ih h
        exact ⟨before, j, behind ++ [i], by simp, hj⟩
      · rw [stack_steps, List.reverse_reverse] at h
        exact ⟨is, i, [], rfl, h⟩

/-- Instructions that are only listed store nothing. -/
theorem vars_lists (is : List Instruction) : (is.foldl list o).vars = o.vars := by
  induction is generalizing o with
  | nil => rfl
  | cons i is ih => exact ih

end Outline

/-! ## Components -/

namespace Value

/-- The components of a value, each as a value of its own. -/
def components : Value → List Value
  | .vec3 v => v.toList.map .float
  | .vec4 v => v.toList.map .float
  | .matrix v => v.toList.map .float
  | .list _ => []
  | v => [v]

/-- How many components a value has; bare arguments have none. -/
def componentCount : Value → Nat
  | .vec3 _ => 3
  | .vec4 _ => 4
  | .matrix _ => 16
  | .list _ => 0
  | _ => 1

theorem length_components (v : Value) : v.components.length = v.componentCount := by
  cases v <;> simp [components, componentCount]

/-- What a value was made of, out of everything that had been pushed: all of it for a vector, the
first for a truth value, the last for any other value that is stored. -/
def madeOf (v : Value) (pushed : List Source) : List Source :=
  match v with
  | .vec3 _ | .vec4 _ | .matrix _ => pushed
  | .bool _ => pushed.head?.toList
  | .list _ => []
  | _ => pushed.getLast?.toList

theorem madeOf_subset (v : Value) (pushed : List Source) : v.madeOf pushed ⊆ pushed := by
  intro s hs
  cases v with
  | vec3 _ => exact hs
  | vec4 _ => exact hs
  | matrix _ => exact hs
  | list _ => exact (List.not_mem_nil hs).elim
  | bool _ => exact List.mem_of_head? (Option.mem_toList.mp hs)
  | _ => exact List.mem_of_getLast? (Option.mem_toList.mp hs)

end Value

/-- What an instruction makes of a value that was pushed. -/
inductive Instruction.Gives (i : Instruction) (pushed : Value) : Value → Prop where
  | whole (hmove : i.opcode = .move8) (hwidth : i.operand = 4) : Gives i pushed pushed
  | short (hmove : i.opcode = .move8) (hwidth : i.operand = 2) : Gives i pushed pushed.toShort
  | byte (hmove : i.opcode = .move8) (hwidth : i.operand = 1) : Gives i pushed pushed.toByte
  /-- A number in a vector. -/
  | number {id : UInt32} {x : Single} (hid : i.commandId? = some id)
      (hvector : id ∈ [CommandId.vec3, CommandId.vec4, CommandId.matrix])
      (hx : pushed.single? = some x) : Gives i pushed (.float x)
  | truth {x : Single} (hid : i.commandId? = some CommandId.bool)
      (hx : pushed.single? = some x) : Gives i pushed (.bool (x = .one))

/-- The instructions may have pushed the value, with this source. -/
inductive Pushed (pools : Pools) (is : List Instruction) : Option UInt32 → Value → Prop where
  /-- What the word in a slot stands for. -/
  | slot {j : Instruction} {slot word : UInt32} (hj : j ∈ is)
      (hread : j.opcode = .read ∧ j.operand = slot ∨ j.opcode = .readWide ∧ j.wide = slot)
      (hword : pools.pool[slot.toNat]? = some word) :
      Pushed pools is (some slot) (.ofPoolWord pools.names word)
  /-- A number in the code. -/
  | literal {j : Instruction} (hj : j ∈ is) (hset : j.opcode = .set) :
      Pushed pools is none (.uint j.operand)
  | text {j : Instruction} {offset : UInt32} (hj : j ∈ is)
      (hread : j.opcode = .string ∧ j.operand = offset
        ∨ j.opcode = .stringWide ∧ j.wide = offset) :
      Pushed pools is none (.string (stringAt pools.strings offset.toNat))

section Sources

variable {pools : Pools} {is : List Instruction}

theorem pushed_slot {j : Instruction} {slot : UInt32} {s : Source} (hj : j ∈ is)
    (hread : j.opcode = .read ∧ j.operand = slot ∨ j.opcode = .readWide ∧ j.wide = slot)
    (h : (if slot.toNat < pools.pool.size then some (Source.slot slot) else none) = some s) :
    Pushed pools is s.slot? (s.value pools) := by
  split at h
  · next hlt =>
      cases h
      have hword : pools.pool[slot.toNat]? = some pools.pool[slot.toNat] :=
        Array.getElem?_eq_getElem hlt
      have hvalue : (Source.slot slot).value pools
          = .ofPoolWord pools.names pools.pool[slot.toNat] := by
        rw [Source.value, hword, Option.getD_some]
      rw [hvalue]
      exact .slot hj hread hword
  · cases h

/-- What an instruction pushes is a word of the pool, a number in the code or a string. -/
theorem pushed_of_pushes {j : Instruction} {s : Source} (hj : j ∈ is)
    (h : j.pushes? pools.pool.size = some s) : Pushed pools is s.slot? (s.value pools) := by
  cases hop : j.opcode with
  | read =>
      simp only [Instruction.pushes?, hop] at h
      exact pushed_slot hj (Or.inl ⟨hop, rfl⟩) h
  | readWide =>
      simp only [Instruction.pushes?, hop] at h
      exact pushed_slot hj (Or.inr ⟨hop, rfl⟩) h
  | string =>
      simp only [Instruction.pushes?, hop] at h
      cases h
      exact .text hj (Or.inl ⟨hop, rfl⟩)
  | stringWide =>
      simp only [Instruction.pushes?, hop] at h
      cases h
      exact .text hj (Or.inr ⟨hop, rfl⟩)
  | set =>
      simp only [Instruction.pushes?, hop] at h
      cases h
      exact .literal hj hop
  | _ =>
      simp only [Instruction.pushes?, hop] at h
      cases h

/-- The variable is what the instruction makes of what had been pushed, component by component. -/
structure Variable.MadeBy (pools : Pools) (i : Instruction) (pushed : List Source)
    (v : Variable) : Prop where
  sources : v.sources = (v.value.madeOf pushed).map Source.slot?
  components :
    List.Forall₂ i.Gives ((v.value.madeOf pushed).map (Source.value pools)) v.value.components

/-- A value that is moved is one component, made of what was pushed last. -/
theorem Source.madeBy_move {i : Instruction} {pushed : List Source} {top : Source} {offset : UInt32}
    (hmove : i.opcode = .move8) (hgood : ¬ i.isBadMove) (htop : pushed.getLast? = some top) :
    (Variable.mk offset ((top.value pools).inWidth i.operand) [top.slot?]).MadeBy pools i pushed := by
  have hsingle : ((top.value pools).inWidth i.operand).madeOf pushed = [top]
      ∧ ((top.value pools).inWidth i.operand).components
        = [(top.value pools).inWidth i.operand] := by
    have hlast : pushed.getLast?.toList = [top] := by rw [htop, Option.toList_some]
    unfold Value.inWidth
    rcases top.value_cases pools with ⟨n, hs⟩ | ⟨x, hs⟩ | ⟨t, hs⟩
    all_goals
      rw [hs]
      split_ifs <;> exact ⟨hlast, rfl⟩
  have hgives : i.Gives (top.value pools) ((top.value pools).inWidth i.operand) := by
    have hwidth : i.operand ∈ [(1 : UInt32), 2, 4] := by
      by_contra hwidth
      exact hgood (i.isBadMove_iff.mpr ⟨hmove, hwidth⟩)
    simp only [List.mem_cons, List.not_mem_nil, or_false] at hwidth
    rcases hwidth with h | h | h
    · rw [h]
      exact .byte hmove h
    · rw [h]
      exact .short hmove h
    · rw [h]
      exact .whole hmove h
  constructor
  · rw [hsingle.1, List.map_singleton]
  · rw [hsingle.1, hsingle.2, List.map_singleton]
    exact .cons hgives .nil

/-- The components of a vector are the numbers that were pushed, in this order. -/
theorem madeBy_numbers {n : Nat} {make : Vector Single n → Value} {i : Instruction}
    {id offset : UInt32} {pushed : List Source} {value : Value} {sources : List (Option UInt32)}
    (hid : i.commandId? = some id)
    (hvector : id ∈ [CommandId.vec3, CommandId.vec4, CommandId.matrix])
    (hmake : ∀ v, (make v).madeOf pushed = pushed ∧ (make v).components = v.toList.map .float)
    (h : (numbers? n (pushed.map (Source.item pools))).map
      (fun v => (make v, pushed.map Source.slot?)) = some (value, sources)) :
    (Variable.mk offset value sources).MadeBy pools i pushed := by
  obtain ⟨v, hv, hvalue⟩ := Option.map_eq_some_iff.mp h
  obtain ⟨rfl, rfl⟩ := Prod.mk.inj hvalue
  rw [numbers?_eq_some, List.map_map, ← List.forall₂_eq_eq_eq, List.forall₂_map_left_iff,
    List.forall₂_map_right_iff] at hv
  constructor
  · rw [(hmake v).1]
  · rw [(hmake v).1, (hmake v).2, List.forall₂_map_left_iff, List.forall₂_map_right_iff]
    exact hv.imp fun s x hx => .number hid hvector hx

theorem madeBy_command {i : Instruction} {id offset : UInt32} {pushed : List Source}
    (hid : i.commandId? = some id) :
    ((Store.command id pushed).var pools offset).MadeBy pools i pushed := by
  cases hcommand : commandValue? id (pushed.map (Source.item pools)) with
  | none =>
      simp only [Store.var, hcommand]
      exact ⟨rfl, .nil⟩
  | some found =>
      obtain ⟨value, sources⟩ := found
      simp only [Store.var, hcommand]
      unfold commandValue? at hcommand
      simp only [Source.map_source_item] at hcommand
      split_ifs at hcommand with h₃ h₄ h₁₆ hbool
      · exact madeBy_numbers hid (by simp [h₃]) (fun _ => ⟨rfl, rfl⟩) hcommand
      · exact madeBy_numbers hid (by simp [h₄]) (fun _ => ⟨rfl, rfl⟩) hcommand
      · exact madeBy_numbers hid (by simp [h₁₆]) (fun _ => ⟨rfl, rfl⟩) hcommand
      · -- a truth value is made of the first number
        cases pushed with
        | nil => cases hcommand
        | cons first rest =>
            obtain ⟨x, hx, hvalue⟩ := Option.map_eq_some_iff.mp hcommand
            obtain ⟨rfl, rfl⟩ := Prod.mk.inj hvalue
            exact ⟨rfl, .cons (.truth (hbool ▸ hid) hx) .nil⟩

/-- What an instruction stores it makes of what had been pushed. -/
theorem Store.madeBy {i : Instruction} {pushed : List Source} {s : Store} {offset : UInt32}
    (hgood : ¬ i.isBadMove) (h : i.store? pushed = some s) :
    (s.var pools offset).MadeBy pools i pushed := by
  unfold Instruction.store? at h
  split at h
  · next hmove =>
      obtain ⟨top, htop, rfl⟩ := Option.map_eq_some_iff.mp h
      exact Source.madeBy_move hmove hgood htop
  · obtain ⟨id, hid, rfl⟩ := Option.map_eq_some_iff.mp h
    exact madeBy_command hid

end Sources

namespace Body

/-- The instructions up to the first move of a width that does not exist. -/
def performed (b : Body) : List Instruction := b.instructions.takeWhile fun i => !i.isBadMove

theorem performed_decode (pools : Pools) (start : UInt32) :
    (decode pools start).performed
      = (Listing.read pools.code start.toNat).instructions.takeWhile fun i => !i.isBadMove := by
  rw [performed, decode, ofListing_instructions]

/-- **What the sources of a variable say is true.** A variable has as many sources as components,
and bare arguments have none. One of the instructions that are performed has made it of what was
pending then: each component of the word in the slot that it names, or else of a number in the code
or a string of this function. -/
theorem decode_provenance {pools : Pools} {start : UInt32} {v : Variable}
    (hv : v ∈ (decode pools start).vars) :
    v.sources.length = v.value.componentCount
      ∧ ∃ before i behind, (decode pools start).performed = before ++ i :: behind ∧
        let made := v.value.madeOf (pending pools.pool.size before)
        v.sources = made.map Source.slot?
          ∧ List.Forall₂ i.Gives (made.map (Source.value pools)) v.value.components
          ∧ ∀ s ∈ made, Pushed pools before s.slot? (s.value pools) := by
  simp only [decode_eq_fill, outline, Outline.run, Outline.vars_lists, Array.mem_map] at hv
  obtain ⟨e, he, rfl⟩ := hv
  obtain ⟨before, i, behind, hsplit, hstore⟩ := Outline.exists_store he
  have hgood : ¬ i.isBadMove := by
    have hi : i ∈ before ++ i :: behind := List.mem_append_right _ (List.mem_cons_self ..)
    rw [← hsplit] at hi
    simpa using List.mem_takeWhile_imp hi
  have hmade : (e.2.var pools e.1).MadeBy pools i (pending pools.pool.size before) :=
    Store.madeBy hgood hstore
  obtain ⟨hsources, hcomponents⟩ := hmade
  refine ⟨?_, before, i, behind, (performed_decode pools start).trans hsplit, hsources, hcomponents,
    fun s hs => ?_⟩
  · have hlen := hcomponents.length_eq
    rw [List.length_map, Value.length_components] at hlen
    show (e.2.var pools e.1).sources.length = _
    rw [hsources, List.length_map, hlen]
    rfl
  · obtain ⟨j, hj, hpush⟩ := exists_pushes_of_mem_pending (Value.madeOf_subset _ _ hs)
    exact pushed_of_pushes hj hpush

/-- A vector of two slots and a number in the code. -/
theorem decode_provenance_mixed :
    ∃ v ∈ (decode mixedPools 0).vars, v.sources = [some 0, some 1, none]
      ∧ v.value.componentCount = 3
      ∧ ∃ before i behind, (decode mixedPools 0).performed = before ++ i :: behind ∧
        let made := v.value.madeOf (pending 2 before)
        List.Forall₂ i.Gives (made.map (Source.value mixedPools)) v.value.components
          ∧ ∀ s ∈ made, Pushed mixedPools before s.slot? (s.value mixedPools) := by
  have hrun : (decode mixedPools 0).vars[0]?.map Variable.sources
      = some [some 0, some 1, none] := by decide +kernel
  obtain ⟨v, hv, hsources⟩ := Option.map_eq_some_iff.mp hrun
  have hmem : v ∈ (decode mixedPools 0).vars := Array.mem_of_getElem? hv
  obtain ⟨hcount, before, i, behind, hsplit, -, hcomponents, hpushed⟩ := decode_provenance hmem
  rw [hsources] at hcount
  exact ⟨v, hmem, hsources, hcount.symm, before, i, behind, hsplit, hcomponents, hpushed⟩

end Body

end ChunkArchive
