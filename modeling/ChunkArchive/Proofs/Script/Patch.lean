import ChunkArchive.Proofs.Reader
import ChunkArchive.Script.Patch

/-!
# What a patch writes

A patch is planned before anything is written. It is possible if every component that does not come
from the pool keeps its word, and there is then one write for each of the others
(`Variable.writes_eq_ok`). Several components may come from one slot; when they agree on its word,
that word is in the slot afterwards (`getElem?_writeSlots_of_agree`).
-/

set_option autoImplicit false

namespace ChunkArchive

/-! ## Planning -/

/-- The slot that a component is written to, if it comes from one. -/
def slotIn? (poolSize : Nat) (source : Option UInt32) : Option UInt32 :=
  source.filter fun slot => slot.toNat < poolSize

theorem slotIn?_eq_some {poolSize : Nat} {source : Option UInt32} {slot : UInt32} :
    slotIn? poolSize source = some slot ↔ source = some slot ∧ slot.toNat < poolSize := by
  rw [slotIn?, Option.filter_eq_some_iff, decide_eq_true_iff]

/-- The writes for components that each have a source, an old and a new word. -/
def plannedWrites (poolSize : Nat) (components : List (Option UInt32 × UInt32 × UInt32)) :
    List (Nat × UInt32) :=
  components.filterMap fun c => (slotIn? poolSize c.1).map fun slot => (slot.toNat, c.2.2)

theorem mem_plannedWrites {poolSize : Nat} {components : List (Option UInt32 × UInt32 × UInt32)}
    {i : Nat} {word : UInt32} :
    (i, word) ∈ plannedWrites poolSize components ↔
      ∃ slot old, (some slot, old, word) ∈ components ∧ slot.toNat < poolSize
        ∧ slot.toNat = i := by
  simp only [plannedWrites, List.mem_filterMap, Option.map_eq_some_iff, slotIn?_eq_some,
    Prod.mk.injEq]
  constructor
  · rintro ⟨⟨source, old, new⟩, hmem, slot, ⟨rfl, hlt⟩, hi, rfl⟩
    exact ⟨slot, old, hmem, hlt, hi⟩
  · rintro ⟨slot, old, hmem, hlt, hi⟩
    exact ⟨(some slot, old, word), hmem, slot, ⟨rfl, hlt⟩, hi, rfl⟩

/-- The writes can be planned when components that are not written keep their word. -/
theorem poolWrites_eq_ok {poolSize : Nat} {components : List (Option UInt32 × UInt32 × UInt32)}
    {index : Nat} {writes : List (Nat × UInt32)} :
    poolWrites poolSize index components = .ok writes ↔
      (∀ c ∈ components, slotIn? poolSize c.1 = none → c.2.1 = c.2.2)
        ∧ writes = plannedWrites poolSize components := by
  induction components generalizing index writes with
  | nil =>
      constructor
      · intro h
        cases h
        exact ⟨by simp, rfl⟩
      · rintro ⟨-, rfl⟩
        rfl
  | cons c rest ih =>
      obtain ⟨source, old, new⟩ := c
      rw [poolWrites, Outcome.unless_eq_ok, Outcome.bind_eq_ok, List.forall_mem_cons,
        plannedWrites, List.filterMap_cons, ← plannedWrites]
      simp only [ih]
      -- the first component is written where it comes from a slot, and keeps its word otherwise
      cases hslot : slotIn? poolSize source with
      | none =>
          have hfilter : source.filter (fun slot => slot.toNat < poolSize) = none := hslot
          simp only [hfilter, Option.map_none, Outcome.pure_eq_ok]
          constructor
          · rintro ⟨hsame, others, ⟨hkept, rfl⟩, rfl⟩
            exact ⟨⟨fun _ => by simpa using hsame, hkept⟩, rfl⟩
          · rintro ⟨⟨hsame, hkept⟩, rfl⟩
            exact ⟨by simpa using hsame, _, ⟨hkept, rfl⟩, rfl⟩
      | some slot =>
          have hfilter : source.filter (fun slot => slot.toNat < poolSize) = some slot := hslot
          simp only [hfilter, Option.map_some, Outcome.pure_eq_ok]
          constructor
          · rintro ⟨-, others, ⟨hkept, rfl⟩, rfl⟩
            exact ⟨⟨nofun, hkept⟩, rfl⟩
          · rintro ⟨⟨-, hkept⟩, rfl⟩
            exact ⟨by simp, _, ⟨hkept, rfl⟩, rfl⟩

/-- What it takes to give a variable another value, and what is written then. -/
theorem Variable.writes_eq_ok {v : Variable} {poolSize : Nat} {value : Value}
    {writes : List (Nat × UInt32)} :
    v.writes poolSize value = .ok writes ↔ v.value.kind = value.kind
      ∧ ∃ old new, v.value.poolWords? = some old ∧ value.poolWords? = some new
        ∧ v.sources.length = new.length
        ∧ (∀ c ∈ v.sources.zip (old.zip new), slotIn? poolSize c.1 = none → c.2.1 = c.2.2)
        ∧ writes = plannedWrites poolSize (v.sources.zip (old.zip new)) := by
  unfold Variable.writes
  by_cases hkind : v.value.kind = value.kind
  · rw [if_neg (not_not.mpr hkind)]
    cases hold : v.value.poolWords? with
    | none => simp
    | some old =>
        cases hnew : value.poolWords? with
        | none => simp
        | some new =>
            by_cases hlen : v.sources.length = new.length
            · simp [hkind, hlen, poolWrites_eq_ok]
            · simp [hlen]
  · rw [if_pos hkind]
    simp [hkind]

/-! ## Writing -/

/-- The pool with words written into its slots one after the other. -/
def writeSlots (pool : Array UInt32) (writes : List (Nat × UInt32)) : Array UInt32 :=
  writes.foldl (fun pool (slot, word) => pool.setIfInBounds slot word) pool

theorem writeSlots_cons (pool : Array UInt32) (w : Nat × UInt32) (writes : List (Nat × UInt32)) :
    writeSlots pool (w :: writes) = writeSlots (pool.setIfInBounds w.1 w.2) writes := rfl

@[simp] theorem size_writeSlots (pool : Array UInt32) (writes : List (Nat × UInt32)) :
    (writeSlots pool writes).size = pool.size := by
  induction writes generalizing pool with
  | nil => rfl
  | cons w writes ih => rw [writeSlots_cons, ih, Array.size_setIfInBounds]

/-- A slot that nothing is written to stays as it is. -/
theorem getElem?_writeSlots_of_ne {pool : Array UInt32} {writes : List (Nat × UInt32)} {i : Nat}
    (h : ∀ w ∈ writes, w.1 ≠ i) : (writeSlots pool writes)[i]? = pool[i]? := by
  induction writes generalizing pool with
  | nil => rfl
  | cons w writes ih =>
      obtain ⟨hw, hwrites⟩ := List.forall_mem_cons.mp h
      rw [writeSlots_cons, ih hwrites, Array.getElem?_setIfInBounds_ne hw]

/-- A slot has the word that all writes to it agree on, if it had this word before or there is such
a write. -/
theorem getElem?_writeSlots_of_agree {pool : Array UInt32} {writes : List (Nat × UInt32)} {i : Nat}
    {word : UInt32} (hagree : ∀ w ∈ writes, w.1 = i → w.2 = word) (hi : i < pool.size)
    (h : pool[i]? = some word ∨ ∃ w ∈ writes, w.1 = i) :
    (writeSlots pool writes)[i]? = some word := by
  induction writes generalizing pool with
  | nil =>
      rcases h with h | ⟨w, hw, -⟩
      · exact h
      · cases hw
  | cons w writes ih =>
      obtain ⟨hw, hwrites⟩ := List.forall_mem_cons.mp hagree
      rw [writeSlots_cons]
      refine ih hwrites (by rwa [Array.size_setIfInBounds]) ?_
      by_cases hslot : w.1 = i
      · -- from here on the slot has the word
        left
        rw [hslot, hw hslot, Array.getElem?_setIfInBounds_self_of_lt hi]
      · rcases h with h | ⟨w', hmem, hw'⟩
        · left
          rwa [Array.getElem?_setIfInBounds_ne hslot]
        · right
          rcases List.mem_cons.mp hmem with rfl | hmem
          · exact absurd hw' hslot
          · exact ⟨w', hmem, hw'⟩

/-! ## Patching -/

/-- The function with another value for the variable at an offset. -/
def Function.withValue (offset : UInt32) (value : Value) (f : Function) : Function :=
  { f with body := { f.body with vars := f.body.vars.map fun v =>
      if v.offset = offset then { v with value } else v } }

/-- Variables keep their offsets. -/
theorem Function.find?_withValue (offset offset' : UInt32) (value : Value) (f : Function) :
    (f.withValue offset value).body.vars.find? (·.offset = offset')
      = (f.body.vars.find? (·.offset = offset')).map fun v =>
          if v.offset = offset then { v with value } else v := by
  have hoffset : (fun w : Variable => decide (w.offset = offset'))
      ∘ (fun w => if w.offset = offset then { w with value } else w)
      = fun w => decide (w.offset = offset') := by
    funext w
    show decide ((if w.offset = offset then { w with value } else w).offset = offset') = _
    split_ifs <;> rfl
  refine Array.find?_map.trans ?_
  rw [hoffset]

namespace ScriptModule

/-- The variable of a function at an offset. -/
def varAt? (m : ScriptModule) (script function : Nat) (offset : UInt32) : Option Variable :=
  (m.scripts[script]?.bind fun s => s.functions[function]?).bind fun f =>
    f.body.vars.find? (·.offset = offset)

/-- A patch that succeeds changes the value of a variable and writes the pool. -/
theorem patch_eq_ok {m patched : ScriptModule} {script function : Nat} {offset : UInt32}
    {value : Value} :
    m.patch script function offset value = .ok patched ↔
      ∃ v writes, m.varAt? script function offset = some v
        ∧ v.writes m.pool.size value = .ok writes
        ∧ patched = { m.updateFunction script function fun f =>
              { f with body := { f.body with vars := f.body.vars.map fun v =>
                  if v.offset = offset then { v with value } else v } } with
            pool := writeSlots m.pool writes } := by
  have hmapError : ∀ {plan : Except PatchFault (List (Nat × UInt32))} {writes},
      plan.mapError (Error.notPatchable offset) = .ok writes ↔ plan = .ok writes := by
    intro plan writes
    cases plan <;> simp [Except.mapError]
  unfold patch ScriptModule.function varAt?
  cases m.scripts[script]?.bind fun s => s.functions[function]? with
  | none =>
      constructor
      · intro h
        cases h
      · rintro ⟨v, writes, h, -⟩
        cases h
  | some f =>
      rw [Outcome.bind_eq_ok]
      simp only [Except.ok.injEq, exists_eq_left', Option.bind_some, Outcome.bind_eq_ok, hmapError,
        Outcome.pure_eq_ok]
      cases f.body.vars.find? (·.offset = offset) with
      | none => simp
      | some v =>
          simp only [Option.some.injEq, exists_and_left, exists_eq_left', writeSlots]
          exact exists_congr fun writes => and_congr_right fun _ => eq_comm

end ScriptModule

end ChunkArchive
