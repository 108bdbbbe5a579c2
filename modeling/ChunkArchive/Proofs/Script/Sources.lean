import ChunkArchive.Proofs.Script.PatchedModule

/-!
# What the components of a variable come from

A slot that the pool does not have is not fetched, so that no variable comes from one
(`Outline.InPool`). A variable whose components have words in the pool has one source for each of
them, and the word of a component that comes from a slot is told by the word in the slot
(`ScriptModule.forall₂_told`): it is the same word where the variable is a number, and the bits of
the number that the word stands for where it is a vector.
-/

set_option autoImplicit false

namespace ChunkArchive

/-! ## Slots within the pool -/

/-- A slot that it may be is one that the pool has. -/
def Source.InPool (slots : Nat) : Source → Prop
  | .slot n => n.toNat < slots
  | .text _ | .literal _ => True

/-- What a store takes from the stack. -/
def Store.taken : Store → List Source
  | .move _ top => [top]
  | .command _ arguments => arguments

namespace Outline

/-- Everything on the stack, and everything that has been stored, comes from within the pool. -/
structure InPool (slots : Nat) (o : Outline) : Prop where
  stack : ∀ s ∈ o.stack, s.InPool slots
  vars : ∀ e ∈ o.vars, ∀ s ∈ e.2.taken, s.InPool slots

namespace InPool

variable {slots : Nat} {o : Outline}

theorem push (h : o.InPool slots) {s : Source} (hs : s.InPool slots) : (o.push s).InPool slots :=
  ⟨List.forall_mem_cons.mpr ⟨hs, h.stack⟩, h.vars⟩

theorem fetch (h : o.InPool slots) (slot : UInt32) : (o.fetch slots slot).1.InPool slots := by
  unfold Outline.fetch
  split
  · next hslot => exact h.push hslot
  · exact h

theorem store (h : o.InPool slots) {s : Store} (hs : ∀ t ∈ s.taken, t.InPool slots) :
    (o.store s).InPool slots := by
  unfold Outline.store Outline.keep
  split
  · exact ⟨fun t ht => (List.not_mem_nil ht).elim, h.vars⟩
  · refine ⟨fun t ht => (List.not_mem_nil ht).elim, fun e he => ?_⟩
    rcases Array.mem_push.mp he with he | rfl
    · exact h.vars e he
    · exact hs

theorem move (h : o.InPool slots) (width : UInt32) : (o.move width).InPool slots := by
  unfold Outline.move
  split
  · exact h
  · next top rest hstack =>
      refine h.store fun t ht => ?_
      rw [List.mem_singleton.mp ht]
      exact h.stack top (by rw [hstack]; exact List.mem_cons_self ..)

theorem command (h : o.InPool slots) (id : UInt32) : (o.command id).InPool slots :=
  h.store fun t ht => h.stack t (List.mem_reverse.mp ht)

/-- An instruction fetches nothing from beyond the pool. -/
theorem perform (h : o.InPool slots) (i : Instruction) : (o.perform slots i).1.InPool slots := by
  obtain ⟨offset, opcode, operand, extension⟩ := i
  cases opcode with
  | read => exact h.fetch _
  | readWide => exact h.fetch _
  | string => exact h.push trivial
  | stringWide => exact h.push trivial
  | set => exact h.push trivial
  | command => exact h.command _
  | commandWide => exact h.command _
  | move8 => exact h.move _
  | _ => exact ⟨h.stack, h.vars⟩

theorem steps (h : o.InPool slots) (is : List Instruction) :
    (is.foldl (step slots) o).InPool slots := by
  induction is generalizing o with
  | nil => exact h
  | cons i is ih =>
      have hstep := h.perform i
      exact ih ⟨hstep.stack, hstep.vars⟩

theorem lists (h : o.InPool slots) (is : List Instruction) : (is.foldl list o).InPool slots := by
  induction is generalizing o with
  | nil => exact h
  | cons i is ih => exact ih ⟨h.stack, h.vars⟩

end InPool

/-- No listing leads to a source beyond the pool. -/
theorem inPool_run (slots : Nat) (is : List Instruction) : (run slots is).InPool slots := by
  have hempty : InPool slots {} :=
    ⟨fun s hs => (List.not_mem_nil hs).elim, fun e he => (Array.not_mem_empty e he).elim⟩
  exact (hempty.steps _).lists _

end Outline

/-! ## Words of components -/

namespace Value

/-- A word of the pool is the one word of what it stands for. -/
theorem poolWords?_ofPoolWord (names : NameTable) (word : UInt32) :
    (ofPoolWord names word).poolWords? = some [word] := by
  rcases ofPoolWord_cases names word with h | h <;> rw [h] <;> rfl

/-- The number that a word of the pool stands for: the nearest one to an integer. -/
def numberOfWord (names : NameTable) (word : UInt32) : Single :=
  (ofPoolWord names word).single?.getD ⟨word⟩

theorem single?_ofPoolWord (names : NameTable) (word : UInt32) :
    (ofPoolWord names word).single? = some (numberOfWord names word) := by
  unfold numberOfWord
  rcases ofPoolWord_cases names word with h | h <;> rw [h] <;> rfl

/-- A float has the bits of its word. An integer may be the bits of the number nearest to it. -/
theorem numberOfWord_eq_iff {names : NameTable} {word : UInt32} :
    numberOfWord names word = ⟨word⟩ ↔
      (ofPoolWord names word).kind = "float" ∨ Single.ofNat word.toNat = ⟨word⟩ := by
  unfold numberOfWord
  rcases ofPoolWord_cases names word with h | h
  · rw [h]
    simp [kind, single?]
  · rw [h]
    simp [kind, single?]

/-- The word of a component of the value that comes from the given word of the pool. -/
def componentWord (names : NameTable) (v : Value) (word : UInt32) : UInt32 :=
  if v.single?.isSome then word else (numberOfWord names word).bits

theorem componentWord_eq_self_iff {names : NameTable} {v : Value} {word : UInt32} :
    v.componentWord names word = word ↔ v.single?.isSome
      ∨ (ofPoolWord names word).kind = "float" ∨ Single.ofNat word.toNat = ⟨word⟩ := by
  rw [← numberOfWord_eq_iff, componentWord]
  cases hv : v.single?.isSome with
  | true => simp
  | false =>
      rw [if_neg (by simp)]
      constructor
      · intro h
        exact Or.inr (congrArg Single.mk h)
      · rintro (h | h)
        · cases h
        · rw [h]

end Value

/-! ## Sources of variables -/

theorem Source.slot?_eq_some {s : Source} {n : UInt32} : s.slot? = some n ↔ s = .slot n := by
  cases s <;> simp [slot?]

/-- A component with this source has this word, if the pools tell it: it does not come from the
pool, or there is such a slot and the word in it gives this one. -/
def Value.Told (pools : Pools) (v : Value) (source : Option UInt32) (word : UInt32) : Prop :=
  ∀ slot, source = some slot →
    ∃ old, pools.pool[slot.toNat]? = some old ∧ word = v.componentWord pools.names old

section Told

variable {pools : Pools}

/-- A slot that the pool has gives what its word stands for. -/
theorem Source.value_slot {slot : UInt32} (h : (Source.slot slot).InPool pools.pool.size) :
    ∃ old, pools.pool[slot.toNat]? = some old
      ∧ (Source.slot slot).value pools = .ofPoolWord pools.names old := by
  have hlt : slot.toNat < pools.pool.size := h
  have hword : pools.pool[slot.toNat]? = some pools.pool[slot.toNat] :=
    Array.getElem?_eq_getElem hlt
  exact ⟨_, hword, by rw [Source.value, hword, Option.getD_some]⟩

/-- The numbers that sources give are told where a command makes a vector of them. -/
theorem forall₂_told_of_singles {v : Value} (hv : v.single? = none) {ss : List Source}
    {xs : List Single} (hpool : ∀ s ∈ ss, s.InPool pools.pool.size)
    (h : ss.map (fun s => (s.value pools).single?) = xs.map some) :
    List.Forall₂ (v.Told pools) (ss.map Source.slot?) (xs.map Single.bits) := by
  induction ss generalizing xs with
  | nil =>
      cases xs with
      | nil => exact .nil
      | cons x xs => cases h
  | cons s ss ih =>
      cases xs with
      | nil => cases h
      | cons x xs =>
          obtain ⟨hs, hss⟩ := List.forall_mem_cons.mp hpool
          obtain ⟨hx, hxs⟩ := List.cons.inj h
          refine .cons (fun slot hslot => ?_) (ih hss hxs)
          obtain rfl := Source.slot?_eq_some.mp hslot
          obtain ⟨old, hold, hvalue⟩ := Source.value_slot hs
          have hnumber : ((Source.slot slot).value pools).single? = some x := hx
          rw [hvalue, Value.single?_ofPoolWord] at hnumber
          refine ⟨old, hold, ?_⟩
          rw [Value.componentWord, hv, ← Option.some.inj hnumber]
          rfl

theorem forall₂_told_of_numbers {n : Nat} {make : Vector Single n → Value} {ss : List Source}
    {value : Value} {sources : List (Option UInt32)} {words : List UInt32}
    (hmake : ∀ v, (make v).poolWords? = some (v.toList.map Single.bits) ∧ (make v).single? = none)
    (hpool : ∀ s ∈ ss, s.InPool pools.pool.size)
    (h : (numbers? n (ss.map (Source.item pools))).map (fun v => (make v, ss.map Source.slot?))
      = some (value, sources))
    (hwords : value.poolWords? = some words) :
    List.Forall₂ (value.Told pools) sources words := by
  obtain ⟨v, hv, hvalue⟩ := Option.map_eq_some_iff.mp h
  obtain ⟨rfl, rfl⟩ := Prod.mk.inj hvalue
  obtain rfl := Option.some.inj (hwords.symm.trans (hmake v).1)
  rw [numbers?_eq_some, List.map_map] at hv
  exact forall₂_told_of_singles (hmake v).2 hpool hv

/-- The components of a value that a command makes are told. -/
theorem commandValue?_told {id : UInt32} {ss : List Source} {value : Value}
    {sources : List (Option UInt32)} {words : List UInt32}
    (hpool : ∀ s ∈ ss, s.InPool pools.pool.size)
    (h : commandValue? id (ss.map (Source.item pools)) = some (value, sources))
    (hwords : value.poolWords? = some words) :
    List.Forall₂ (value.Told pools) sources words := by
  unfold commandValue? at h
  simp only [Source.map_source_item] at h
  split_ifs at h
  · exact forall₂_told_of_numbers (fun _ => ⟨rfl, rfl⟩) hpool h hwords
  · exact forall₂_told_of_numbers (fun _ => ⟨rfl, rfl⟩) hpool h hwords
  · exact forall₂_told_of_numbers (fun _ => ⟨rfl, rfl⟩) hpool h hwords
  · -- a truth value has no words in the pool
    cases ss with
    | nil => cases h
    | cons s ss =>
        obtain ⟨x, -, hx⟩ := Option.map_eq_some_iff.mp h
        cases hx
        cases hwords

/-- The word of a source that is stored as it is is told. -/
theorem Source.forall₂_told {s : Source} {words : List UInt32} (hpool : s.InPool pools.pool.size)
    (hwords : (s.value pools).poolWords? = some words) :
    List.Forall₂ ((s.value pools).Told pools) [s.slot?] words := by
  cases s with
  | slot n =>
      obtain ⟨old, hold, hvalue⟩ := Source.value_slot hpool
      rw [hvalue, Value.poolWords?_ofPoolWord] at hwords
      cases hwords
      refine .cons (fun slot hslot => ?_) .nil
      cases hslot
      refine ⟨old, hold, ?_⟩
      rw [hvalue, Value.componentWord, Value.single?_ofPoolWord, Option.isSome_some, if_pos rfl]
  | text offset => cases hwords
  | literal n =>
      cases hwords
      exact .cons nofun .nil

/-- The components of what is stored are told. -/
theorem Store.forall₂_told {s : Store} {offset : UInt32} {words : List UInt32}
    (hpool : ∀ t ∈ s.taken, t.InPool pools.pool.size)
    (hwords : (s.var pools offset).value.poolWords? = some words) :
    List.Forall₂ ((s.var pools offset).value.Told pools) (s.var pools offset).sources words := by
  cases s with
  | move width top =>
      -- a value has words in full width alone
      obtain rfl := Source.width_of_poolWords? hwords
      exact Source.forall₂_told (hpool top (List.mem_singleton_self top)) hwords
  | command id ss =>
      cases hcommand : commandValue? id (ss.map (Source.item pools)) with
      | none =>
          -- bare arguments have none
          simp only [var, hcommand] at hwords
          cases hwords
      | some found =>
          simp only [var, hcommand] at hwords ⊢
          exact commandValue?_told hpool hcommand hwords

end Told

namespace ScriptModule

/-- What a function stores comes from within the pool. -/
theorem storeAt?_inPool {slots : Nat} {code : List UInt16} {header : Bytes} {tables : List Node}
    {script function : Nat} {offset : UInt32} {e : UInt32 × Store}
    (h : storeAt? slots code header tables script function offset = some e) :
    ∀ s ∈ e.2.taken, s.InPool slots := by
  obtain ⟨f, -, hfind⟩ := Option.bind_eq_some_iff.mp h
  exact (Outline.inPool_run slots _).vars e (Array.mem_of_find?_eq_some hfind)

/-- **The words of a variable of a module are told by the pool**, one for each source. -/
theorem forall₂_told {names : NameTable} {node : Node} {m : ScriptModule}
    {script function : Nat} {offset : UInt32} {v : Variable} {words : List UInt32}
    (hm : decompile names node = .ok m) (hv : m.varAt? script function offset = some v)
    (hwords : v.value.poolWords? = some words) :
    List.Forall₂ (v.value.Told (m.pools names)) v.sources words := by
  obtain ⟨header, _, -, -, -, -, hscripts, -⟩ := decompile_eq_ok.mp hm
  rw [varAt?_eq hscripts] at hv
  obtain ⟨e, he, rfl⟩ := Option.map_eq_some_iff.mp hv
  exact Store.forall₂_told (storeAt?_inPool he) hwords

end ScriptModule

end ChunkArchive
