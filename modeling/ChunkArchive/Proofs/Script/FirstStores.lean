import ChunkArchive.Proofs.Script.Relocation

/-!
# Variables and statements

A body lists what is stored twice: each store is a statement, and of several stores at one offset
the first one is a variable. `FirstStores` says that the two agree. Every instruction keeps it, as
whatever it stores it also states (`FirstStores.perform`), so that it holds of every function
(`Body.decode_first_stores`).
-/

set_option autoImplicit false

namespace ChunkArchive

/-- What a statement stores, and where. A command that makes no value of its arguments stores the
bare arguments. -/
def Statement.stored? : Statement → Option (UInt32 × Value)
  | .assign offset value => some (offset, value)
  | .command offset _ arguments => some (offset, .list arguments)
  | .operation _ _ => none

/-- The variables are the first ones of the stores, in order, one at each offset. -/
structure FirstStores (vars : Array Variable) (stores : List (UInt32 × Value)) : Prop where
  offsets : vars.toList.map Variable.offset = (stores.map Prod.fst).eraseDups
  distinct : (vars.toList.map Variable.offset).Nodup
  values : ∀ v ∈ vars, stores.find? (·.1 = v.offset) = some (v.offset, v.value)

namespace FirstStores

variable {vars : Array Variable} {stores : List (UInt32 × Value)}

theorem empty : FirstStores #[] [] := ⟨rfl, .nil, fun v hv => absurd hv (Array.not_mem_empty v)⟩

/-- There is a variable at an offset when something has been stored there. -/
theorem any_iff (h : FirstStores vars stores) (offset : UInt32) :
    vars.any (·.offset = offset) = true ↔ offset ∈ stores.map Prod.fst := by
  rw [← List.mem_eraseDups, ← h.offsets, ← Array.any_toList, List.any_eq_true, List.mem_map]
  simp only [decide_eq_true_iff]

/-- A store is a variable if it is the first one at its offset. -/
theorem store (h : FirstStores vars stores) (v : Variable) :
    FirstStores (if vars.any (·.offset = v.offset) then vars else vars.push v)
      (stores ++ [(v.offset, v.value)]) := by
  have hkeys : ((stores ++ [(v.offset, v.value)]).map Prod.fst).eraseDups
      = (stores.map Prod.fst).eraseDups
        ++ ([v.offset].removeAll (stores.map Prod.fst)).eraseDups := by
    rw [List.map_append, List.eraseDups_append]
    rfl
  by_cases hany : vars.any (·.offset = v.offset) = true
  · -- the offset has its variable, and the first store there is still the first
    have hmem := (h.any_iff v.offset).mp hany
    rw [if_pos hany]
    refine ⟨?_, h.distinct, fun w hw => ?_⟩
    · rw [hkeys, h.offsets]
      simp [List.removeAll, hmem]
    · rw [List.find?_append, h.values w hw, Option.some_or]
  · have hmem : v.offset ∉ stores.map Prod.fst := fun hmem => hany ((h.any_iff v.offset).mpr hmem)
    have hnew : v.offset ∉ vars.toList.map Variable.offset := by
      rwa [h.offsets, List.mem_eraseDups]
    rw [if_neg hany]
    refine ⟨?_, ?_, fun w hw => ?_⟩
    · rw [hkeys, Array.toList_push, List.map_append, h.offsets]
      simp [List.removeAll, hmem, List.eraseDups_cons]
    · rw [Array.toList_push, List.map_append]
      exact List.nodup_append.mpr ⟨h.distinct, List.nodup_singleton _, by
        rintro k hk _ hv rfl
        exact hnew (List.mem_singleton.mp hv ▸ hk)⟩
    · rw [List.find?_append]
      rcases Array.mem_push.mp hw with hw | rfl
      · rw [h.values w hw, Option.some_or]
      · -- nothing was stored here before
        have hnone : stores.find? (·.1 = w.offset) = none := by
          rw [List.find?_eq_none]
          intro e he hoffset
          exact hmem (List.mem_map.mpr ⟨e, he, by simpa using hoffset⟩)
        rw [hnone, Option.none_or, List.find?_singleton, if_pos (by simp)]

/-- A variable is found by its offset, as no other one has the same. -/
theorem find?_eq_some_iff (h : FirstStores vars stores) {offset : UInt32} {v : Variable} :
    vars.find? (·.offset = offset) = some v ↔ v ∈ vars ∧ v.offset = offset := by
  constructor
  · intro hfind
    exact ⟨Array.mem_of_find?_eq_some hfind, by simpa using Array.find?_some hfind⟩
  · rintro ⟨hv, rfl⟩
    cases hfind : vars.find? (·.offset = v.offset) with
    | none =>
        have hno := Array.find?_eq_none.mp hfind v hv
        simp at hno
    | some w =>
        have hw : w.offset = v.offset := by simpa using Array.find?_some hfind
        have hmem := Array.mem_toList_iff.mpr (Array.mem_of_find?_eq_some hfind)
        rw [List.inj_on_of_nodup_map h.distinct hmem (Array.mem_toList_iff.mpr hv) hw]

end FirstStores

namespace Machine

/-- What has been stored, as the statements tell it. -/
def stores (m : Machine) : List (UInt32 × Value) := m.statements.toList.filterMap Statement.stored?

/-- Variables and statements agree. -/
def Agrees (m : Machine) : Prop := FirstStores m.vars m.stores

variable {m : Machine}

theorem stores_state (s : Statement) : (m.state s).stores = m.stores ++ s.stored?.toList := by
  unfold stores state
  rw [Array.toList_push, List.filterMap_append]
  cases h : s.stored? <;> simp [h]

/-- A statement of what is kept. -/
theorem Agrees.keep (h : m.Agrees) {s : Statement} {v : Variable}
    (hs : s.stored? = some (v.offset, v.value)) : ((m.state s).keep v).Agrees := by
  have hstores : m.stores ++ [(v.offset, v.value)] = (m.state s).stores := by
    rw [stores_state, hs, Option.toList_some]
  have hvars : ((m.state s).keep v).vars
      = if m.vars.any (·.offset = v.offset) then m.vars else m.vars.push v := by
    unfold Machine.keep
    rw [apply_ite Machine.vars]
    rfl
  have hsame : ((m.state s).keep v).stores = (m.state s).stores := by
    unfold Machine.keep
    split <;> rfl
  unfold Agrees
  rw [hvars, hsame, ← hstores]
  exact h.store v

theorem Agrees.assign (h : m.Agrees) (value : Value) (sources : List (Option UInt32)) :
    (m.assign value sources).Agrees := h.keep rfl

theorem Agrees.move (h : m.Agrees) (width : UInt32) : (m.move width).Agrees := by
  unfold Machine.move
  split
  · exact h
  · exact Agrees.assign (m := { m with stack := [] }) h _ _

theorem Agrees.command (h : m.Agrees) (id : UInt32) : (m.command id).Agrees := by
  unfold Machine.command
  dsimp only
  split
  · exact Agrees.assign (m := { m with stack := [] }) h _ _
  · exact Agrees.keep (m := { m with stack := [] }) h rfl

theorem Agrees.fetch (h : m.Agrees) (pools : Pools) (slot : UInt32) :
    (m.fetch pools slot).1.Agrees := by
  unfold Machine.fetch
  split <;> exact h

/-- Whatever an instruction stores it states as well. -/
theorem Agrees.perform (h : m.Agrees) (pools : Pools) (i : Instruction) :
    (m.perform pools i).1.Agrees := by
  have hoperation : ∀ opcode operand, (m.state (.operation opcode operand)).Agrees := by
    intro opcode operand
    unfold Agrees
    rw [stores_state]
    exact (List.append_nil m.stores).symm ▸ h
  obtain ⟨offset, opcode, operand, extension⟩ := i
  cases opcode with
  | read => exact h.fetch pools _
  | readWide => exact h.fetch pools _
  | command => exact h.command _
  | commandWide => exact h.command _
  | move8 => exact h.move _
  | run | move4 | setFunctionHash | unknown _ => exact hoperation _ _
  | _ => exact h

theorem Agrees.steps (h : m.Agrees) (pools : Pools) (is : List Instruction) :
    (is.foldl (step pools) m).Agrees := by
  induction is generalizing m with
  | nil => exact h
  | cons i is ih => exact ih (h.perform pools i)

theorem Agrees.lists (h : m.Agrees) (is : List Instruction) : (is.foldl list m).Agrees := by
  induction is generalizing m with
  | nil => exact h
  | cons i is ih => exact ih h

/-- Variables and statements agree after every listing. -/
theorem agrees_run (pools : Pools) (is : List Instruction) : (run pools is).Agrees := by
  have hempty : Agrees {} := FirstStores.empty
  exact (hempty.steps pools _).lists _

end Machine

namespace Body

/-- **The variables of a function are its first stores.** Their offsets are those that are stored
at, in the order of the first store at each. Looked up by its offset, a variable is found itself. Its
value is that of the first statement that stores at its offset; of a command these are the
arguments. -/
theorem decode_first_stores (pools : Pools) (start : UInt32) :
    let b := decode pools start
    let stores := b.statements.toList.filterMap Statement.stored?
    b.vars.toList.map Variable.offset = (stores.map Prod.fst).eraseDups
      ∧ (∀ offset v, b.vars.find? (·.offset = offset) = some v ↔ v ∈ b.vars ∧ v.offset = offset)
      ∧ ∀ v ∈ b.vars, stores.find? (·.1 = v.offset) = some (v.offset, v.value) := by
  intro b stores
  have h : FirstStores b.vars stores := by
    have hb : b = ofListing pools (Listing.read pools.code start.toNat) := rfl
    have hagrees := Machine.agrees_run pools (Listing.read pools.code start.toNat).instructions
    rw [ofListing_eq] at hb
    show FirstStores b.vars (b.statements.toList.filterMap _)
    rw [hb]
    exact hagrees
  exact ⟨h.offsets, fun offset v => h.find?_eq_some_iff, h.values⟩

/-- A command stores its argument, and the pointer comes to one offset twice. -/
theorem decode_first_stores_twice :
    let pools : Pools := ⟨#[0x3F800000],
      [0x1007, 0x1C05, 0x5404, 0x0000, 0x4004, 0x3800, 0x1007, 0x4002, 0x3000], [], .empty⟩
    let stores := (decode pools 0).statements.toList.filterMap Statement.stored?
    stores.map Prod.fst = [0, 4, 4]
      ∧ ∃ v w, (decode pools 0).vars.find? (·.offset = 0) = some v ∧ v.value.kind = "opaque"
        ∧ stores.find? (·.1 = 0) = some (0, v.value)
        ∧ (decode pools 0).vars.find? (·.offset = 4) = some w ∧ w.value.kind = "float"
        ∧ stores.find? (·.1 = 4) = some (4, w.value) := by
  intro pools stores
  obtain ⟨-, hfound, hvalues⟩ := decode_first_stores pools 0
  have hrun : ((decode pools 0).vars.find? (·.offset = 0)).map (fun v => v.value.kind)
        = some "opaque"
      ∧ ((decode pools 0).vars.find? (·.offset = 4)).map (fun v => v.value.kind)
        = some "float" := by decide +kernel
  obtain ⟨v, hv, hopaque⟩ := Option.map_eq_some_iff.mp hrun.1
  obtain ⟨w, hw, hfloat⟩ := Option.map_eq_some_iff.mp hrun.2
  obtain ⟨hvmem, hv₀⟩ := (hfound 0 v).mp hv
  obtain ⟨hwmem, hw₄⟩ := (hfound 4 w).mp hw
  refine ⟨by decide +kernel, v, w, hv, hopaque, ?_, hw, hfloat, ?_⟩
  · rw [← hv₀]
    exact hvalues v hvmem
  · rw [← hw₄]
    exact hvalues w hwmem

end Body

end ChunkArchive
