import ChunkArchive.Proofs.Script.Sources

/-!
# The pool of a patched module

The words of the new value are written one after the other, so that of components that share a slot
the last one decides what is in it: the variable then says one thing and the pool another, unless
these components agree (`ScriptModule.patch_pool`). A variable that gets the value it has gets back
the words that its components were read as. Of a vector that is not what was in the pool wherever
the word of a component was taken for an integer (`ScriptModule.patch_self`).
-/

set_option autoImplicit false

namespace ChunkArchive

/-! ## Writing components -/

/-- The writes for components that each have a source and a word. -/
def slotWrites (poolSize : Nat) (components : List (Option UInt32 × UInt32)) :
    List (Nat × UInt32) :=
  components.filterMap fun c => (slotIn? poolSize c.1).map fun slot => (slot.toNat, c.2)

theorem plannedWrites_zip {poolSize : Nat} {sources : List (Option UInt32)} {old new : List UInt32}
    (hlen : old.length = new.length) :
    plannedWrites poolSize (sources.zip (old.zip new)) = slotWrites poolSize (sources.zip new) := by
  have hnew : new = (old.zip new).map Prod.snd := (List.map_snd_zip (le_of_eq hlen.symm)).symm
  conv_rhs => rw [hnew, List.zip_map_right, slotWrites, List.filterMap_map]
  rfl

theorem mem_slotWrites {poolSize : Nat} {components : List (Option UInt32 × UInt32)} {i : Nat}
    {word : UInt32} :
    (i, word) ∈ slotWrites poolSize components ↔
      ∃ slot, (some slot, word) ∈ components ∧ slot.toNat < poolSize ∧ slot.toNat = i := by
  simp only [slotWrites, List.mem_filterMap, Option.map_eq_some_iff, slotIn?_eq_some,
    Prod.mk.injEq]
  constructor
  · rintro ⟨⟨source, word⟩, hmem, slot, ⟨rfl, hlt⟩, hi, rfl⟩
    exact ⟨slot, hmem, hlt, hi⟩
  · rintro ⟨slot, hmem, hlt, hi⟩
    exact ⟨(some slot, word), hmem, slot, ⟨rfl, hlt⟩, hi, rfl⟩

theorem writeSlots_append (pool : Array UInt32) (front behind : List (Nat × UInt32)) :
    writeSlots pool (front ++ behind) = writeSlots (writeSlots pool front) behind :=
  List.foldl_append

section WriteComponents

variable {pool : Array UInt32} {components : List (Option UInt32 × UInt32)} {slot word : UInt32}

/-- A slot that no component comes from stays as it is. -/
theorem getElem?_writeComponents_of_ne {i : Nat}
    (h : ∀ slot word, (some slot, word) ∈ components → slot.toNat ≠ i) :
    (writeSlots pool (slotWrites pool.size components))[i]? = pool[i]? := by
  refine getElem?_writeSlots_of_ne ?_
  rintro ⟨j, word⟩ hw rfl
  obtain ⟨slot, hmem, -, hslot⟩ := mem_slotWrites.mp hw
  exact h slot word hmem hslot

/-- Of the components that share a slot the last one decides. -/
theorem getElem?_writeComponents_of_last {front behind : List (Option UInt32 × UInt32)}
    (hlast : ∀ word', (some slot, word') ∉ behind) (hslot : slot.toNat < pool.size) :
    (writeSlots pool (slotWrites pool.size (front ++ (some slot, word) :: behind)))[slot.toNat]?
      = some word := by
  have hwrites : slotWrites pool.size (front ++ (some slot, word) :: behind)
      = slotWrites pool.size front ++ (slot.toNat, word) :: slotWrites pool.size behind := by
    have hthis : slotIn? pool.size (some slot) = some slot := slotIn?_eq_some.mpr ⟨rfl, hslot⟩
    rw [slotWrites, List.filterMap_append, List.filterMap_cons, hthis]
    rfl
  rw [hwrites, writeSlots_append, writeSlots_cons, getElem?_writeSlots_of_ne]
  · exact Array.getElem?_setIfInBounds_self_of_lt (by rwa [size_writeSlots])
  · -- no later write goes to the slot
    rintro ⟨j, word'⟩ hw hj
    obtain ⟨slot', hmem, -, hslot'⟩ := mem_slotWrites.mp hw
    obtain rfl : slot' = slot := UInt32.toNat_inj.mp (hslot'.trans hj)
    exact hlast word' hmem

/-- Components that share a slot agree when all of them have their word in it afterwards, and the
other way round. -/
theorem writeComponents_agree_iff
    (hslots : ∀ slot word, (some slot, word) ∈ components → slot.toNat < pool.size) :
    (∀ slot word, (some slot, word) ∈ components →
        (writeSlots pool (slotWrites pool.size components))[slot.toNat]? = some word) ↔
      ∀ slot word word', (some slot, word) ∈ components → (some slot, word') ∈ components →
        word = word' := by
  constructor
  · intro h slot word word' hmem hmem'
    exact Option.some.inj ((h slot word hmem).symm.trans (h slot word' hmem'))
  · intro hagree slot word hmem
    have hslot := hslots slot word hmem
    refine getElem?_writeSlots_of_agree ?_ hslot
      (Or.inr ⟨_, mem_slotWrites.mpr ⟨slot, hmem, hslot, rfl⟩, rfl⟩)
    rintro ⟨j, word'⟩ hw hj
    obtain ⟨slot', hmem', -, hslot'⟩ := mem_slotWrites.mp hw
    obtain rfl : slot' = slot := UInt32.toNat_inj.mp (hslot'.trans hj)
    exact hagree slot' word' word hmem' hmem

end WriteComponents

namespace ScriptModule

/-! ## The patched variable -/

theorem varAt?_updateFunction (m : ScriptModule) (script function : Nat)
    (change : Function → Function) (offset : UInt32) :
    (m.updateFunction script function change).varAt? script function offset
      = ((m.scripts[script]?.bind fun s => s.functions[function]?).map change).bind fun f =>
          f.body.vars.find? (·.offset = offset) := by
  unfold varAt? updateFunction
  rw [List.getElem?_modify_eq]
  cases m.scripts[script]? with
  | none => rfl
  | some s =>
      simp only [Option.map_eq_map, Option.map_some, Option.bind_some, List.getElem?_modify_eq]

/-- The variable at the offset has the new value, and nothing else about it changes. -/
theorem varAt?_patch {m patched : ScriptModule} {script function : Nat} {offset : UInt32}
    {value : Value} {v : Variable} (h : m.patch script function offset value = .ok patched)
    (hv : m.varAt? script function offset = some v) :
    patched.varAt? script function offset = some { v with value } := by
  obtain ⟨_, _, -, -, rfl⟩ := patch_eq_ok.mp h
  obtain ⟨f, hf, hfind⟩ := Option.bind_eq_some_iff.mp hv
  have hthis : v.offset = offset := by simpa using Array.find?_some hfind
  refine (varAt?_updateFunction m script function (Function.withValue offset value) offset).trans ?_
  rw [hf, Option.map_some, Option.bind_some, Function.find?_withValue, hfind, Option.map_some,
    if_pos hthis]

/-- What is written into the pool: a word for each component, each component having a source. -/
theorem pool_patch {names : NameTable} {node : Node} {m patched : ScriptModule}
    {script function : Nat} {offset : UInt32} {value : Value} {v : Variable}
    (hm : decompile names node = .ok m)
    (hpatch : m.patch script function offset value = .ok patched)
    (hv : m.varAt? script function offset = some v) :
    patched.pool = writeSlots m.pool (slotWrites m.pool.size (v.components value)) := by
  obtain ⟨v', writes, hv', hwrites, rfl⟩ := patch_eq_ok.mp hpatch
  obtain rfl := Option.some.inj (hv.symm.trans hv')
  obtain ⟨-, old, new, hold, hnew, hlen, -, rfl⟩ := Variable.writes_eq_ok.mp hwrites
  have hsame : old.length = new.length := (forall₂_told hm hv hold).length_eq.symm.trans hlen
  show writeSlots m.pool _ = _
  rw [plannedWrites_zip hsame, Variable.components, hnew, Option.getD_some]

/-- The slots that the components of a variable come from are in the pool. -/
theorem slot_lt_of_mem_components {names : NameTable} {node : Node} {m : ScriptModule}
    {script function : Nat} {offset : UInt32} {v : Variable} {value : Value}
    (hm : decompile names node = .ok m) (hv : m.varAt? script function offset = some v)
    (hwords : v.value.poolWords?.isSome) {slot word : UInt32}
    (h : (some slot, word) ∈ v.components value) : slot.toNat < m.pool.size := by
  obtain ⟨old, hold⟩ := Option.isSome_iff_exists.mp hwords
  have htold := forall₂_told hm hv hold
  obtain ⟨i, hi⟩ := List.mem_iff_getElem?.mp (List.of_mem_zip h).1
  obtain ⟨hlt, hsource⟩ := List.getElem?_eq_some_iff.mp hi
  obtain ⟨inPool, hslot, -⟩ := htold.get hlt (htold.length_eq ▸ hlt) slot hsource
  exact (Array.getElem?_eq_some_iff.mp hslot).1

/-- **The pool of a patched module.** The variable has the new value. A slot that components come
from has the word of the last of them, and all other slots stay as they are. So the pool holds the
new value exactly when components that share a slot agree on its word. -/
theorem patch_pool {names : NameTable} {node : Node} {m patched : ScriptModule}
    {script function : Nat} {offset : UInt32} {value : Value} (hm : decompile names node = .ok m)
    (hpatch : m.patch script function offset value = .ok patched) :
    ∃ v, m.varAt? script function offset = some v
      ∧ patched.varAt? script function offset = some { v with value }
      ∧ patched.pool.size = m.pool.size
      ∧ (∃ words, value.poolWords? = some words ∧ v.sources.length = words.length)
      ∧ (∀ front slot word behind, v.components value = front ++ (some slot, word) :: behind →
          (∀ word', (some slot, word') ∉ behind) → patched.pool[slot.toNat]? = some word)
      ∧ (∀ i, (∀ slot, some slot ∈ v.sources → slot.toNat ≠ i) →
          patched.pool[i]? = m.pool[i]?)
      ∧ ((∀ slot word, (some slot, word) ∈ v.components value →
            patched.pool[slot.toNat]? = some word) ↔
          ∀ slot word word', (some slot, word) ∈ v.components value →
            (some slot, word') ∈ v.components value → word = word') := by
  obtain ⟨v, writes, hv, hwrites, -⟩ := patch_eq_ok.mp hpatch
  obtain ⟨-, old, new, hold, hnew, hlen, -, -⟩ := Variable.writes_eq_ok.mp hwrites
  have hpool := pool_patch hm hpatch hv
  have hslots : ∀ slot word, (some slot, word) ∈ v.components value → slot.toNat < m.pool.size :=
    fun slot word hmem => slot_lt_of_mem_components hm hv (hold ▸ rfl) hmem
  refine ⟨v, hv, varAt?_patch hpatch hv, ?_, ⟨new, hnew, hlen⟩, ?_, ?_, ?_⟩
  · rw [hpool, size_writeSlots]
  · intro front slot word behind hsplit hlast
    have hmem : (some slot, word) ∈ v.components value := by
      rw [hsplit]
      exact List.mem_append_right front (List.mem_cons_self ..)
    rw [hpool, hsplit]
    exact getElem?_writeComponents_of_last hlast (hslots slot word hmem)
  · intro i hi
    rw [hpool]
    exact getElem?_writeComponents_of_ne fun slot word hmem => hi slot (List.of_mem_zip hmem).1
  · rw [hpool]
    exact writeComponents_agree_iff hslots

/-- A patch as it shows in the pool: the pool before, the components of the new value, and the pool
afterwards. -/
structure PatchRun where
  before : Array UInt32
  components : List (Option UInt32 × UInt32)
  after : Array UInt32
  deriving DecidableEq

/-- Patches the variable at an offset of the module in a node with what `value` makes of it. -/
def runPatch (names : NameTable) (node : Node) (script function : Nat) (offset : UInt32)
    (value : Variable → Value) : Except Error (Option PatchRun) :=
  (decompile names node).map fun m =>
    (m.varAt? script function offset).bind fun v =>
      (m.patch script function offset (value v)).toOption.map fun patched =>
        ⟨m.pool, v.components (value v), patched.pool⟩

theorem patched_of_run {names : NameTable} {node : Node} {script function : Nat} {offset : UInt32}
    {value : Variable → Value} {run : PatchRun}
    (hrun : runPatch names node script function offset value = .ok (some run)) :
    ∃ m patched v, decompile names node = .ok m ∧ m.varAt? script function offset = some v
      ∧ m.patch script function offset (value v) = .ok patched
      ∧ m.pool = run.before ∧ v.components (value v) = run.components
      ∧ patched.pool = run.after := by
  unfold runPatch at hrun
  cases hm : decompile names node with
  | error e =>
      rw [hm] at hrun
      cases hrun
  | ok m =>
      rw [hm] at hrun
      obtain ⟨v, hv, hpatched⟩ := Option.bind_eq_some_iff.mp (Except.ok.inj hrun)
      obtain ⟨patched, hpatch, rfl⟩ := Option.map_eq_some_iff.mp hpatched
      refine ⟨m, patched, v, rfl, hv, ?_, rfl, rfl, rfl⟩
      cases h : m.patch script function offset (value v) with
      | error e =>
          rw [h] at hpatch
          cases hpatch
      | ok p =>
          rw [h] at hpatch
          exact congrArg Except.ok (Option.some.inj hpatch)

/-- Components that share a slot may agree. -/
theorem patch_pool_echo :
    ∃ m patched v, decompile .empty echoNode = .ok m ∧ m.varAt? 0 0 0 = some v
      ∧ m.patch 0 0 0 echoValue = .ok patched
      ∧ patched.varAt? 0 0 0 = some { v with value := echoValue }
      ∧ ∀ slot word, (some slot, word) ∈ v.components echoValue →
          patched.pool[slot.toNat]? = some word := by
  have hrun : runPatch .empty echoNode 0 0 0 (fun _ => echoValue) = .ok (some ⟨#[0x3F800000],
      [(some 0, 0x40000000), (none, 0x40E00000), (some 0, 0x40000000)], #[0x40000000]⟩) := by
    decide +kernel
  obtain ⟨m, patched, v, hm, hv, hpatch, -, hcomponents, -⟩ := patched_of_run hrun
  obtain ⟨v', hv', hvalue, -, -, -, -, hagree⟩ := patch_pool hm hpatch
  obtain rfl := Option.some.inj (hv.symm.trans hv')
  refine ⟨m, patched, v, hm, hv, hpatch, hvalue, hagree.mpr ?_⟩
  have hword : ∀ slot word, (some slot, word) ∈ v.components echoValue → word = 0x40000000 := by
    rw [hcomponents]
    intro slot word hmem
    have hboth : slot = 0 ∧ word = 0x40000000 := by simpa using hmem
    exact hboth.2
  intro slot word word' hmem hmem'
  rw [hword slot word hmem, hword slot word' hmem']

/-- The vector of 2, 7 and 3. -/
def twoInOneValue : Value := .vec3 #v[⟨0x40000000⟩, ⟨0x40E00000⟩, ⟨0x40400000⟩]

/-- They may also differ. The variable is the vector of 2, 7 and 3 then, but the slot that both its
first and its last component come from is 3. -/
theorem patch_two_in_one :
    ∃ m patched v, decompile .empty echoNode = .ok m ∧ m.varAt? 0 0 0 = some v
      ∧ m.patch 0 0 0 twoInOneValue = .ok patched
      ∧ (some 0, 0x40000000) ∈ v.components twoInOneValue
      ∧ patched.pool[(0 : UInt32).toNat]? = some 0x40400000
      ∧ patched.varAt? 0 0 0 = some { v with value := twoInOneValue } := by
  have hrun : runPatch .empty echoNode 0 0 0 (fun _ => twoInOneValue) = .ok (some ⟨#[0x3F800000],
      [(some 0, 0x40000000), (none, 0x40E00000), (some 0, 0x40400000)], #[0x40400000]⟩) := by
    decide +kernel
  obtain ⟨m, patched, v, hm, hv, hpatch, -, hcomponents, hpool⟩ := patched_of_run hrun
  refine ⟨m, patched, v, hm, hv, hpatch, ?_, ?_, varAt?_patch hpatch hv⟩
  · rw [hcomponents]
    decide
  · rw [hpool]
    rfl

/-! ## The same value again -/

/-- A variable can get the value it has whenever this value has words in the pool. -/
theorem patch_self_isSome_iff {names : NameTable} {node : Node} {m : ScriptModule}
    {script function : Nat} {offset : UInt32} {v : Variable} (hm : decompile names node = .ok m)
    (hv : m.varAt? script function offset = some v) :
    (∃ patched, m.patch script function offset v.value = .ok patched) ↔
      v.value.poolWords?.isSome := by
  constructor
  · rintro ⟨patched, hpatch⟩
    obtain ⟨v', writes, hv', hwrites, -⟩ := patch_eq_ok.mp hpatch
    obtain ⟨-, old, new, hold, hnew, -⟩ := Variable.writes_eq_ok.mp hwrites
    exact Option.isSome_iff_exists.mpr ⟨new, hnew⟩
  · intro h
    obtain ⟨words, hwords⟩ := Option.isSome_iff_exists.mp h
    refine ⟨_, patch_eq_ok.mpr ⟨v, _, hv, Variable.writes_eq_ok.mpr ⟨rfl, words, words, hwords,
      hwords, (forall₂_told hm hv hwords).length_eq, ?_, rfl⟩, rfl⟩⟩
    -- no component changes its word, wherever it comes from
    rintro ⟨source, old, new⟩ hmem -
    exact List.forall₂_zip (List.forall₂_refl words) (List.of_mem_zip hmem).2

/-- The word of a component of the current value, as the pool tells it. -/
theorem word_of_mem_components {names : NameTable} {node : Node} {m : ScriptModule}
    {script function : Nat} {offset : UInt32} {v : Variable} {slot word : UInt32}
    (hm : decompile names node = .ok m) (hv : m.varAt? script function offset = some v)
    (h : (some slot, word) ∈ v.components v.value) :
    ∃ old, m.pool[slot.toNat]? = some old ∧ word = v.value.componentWord names old := by
  rw [Variable.components] at h
  cases hwords : v.value.poolWords? with
  | none =>
      rw [hwords, Option.getD_none, List.zip_nil_right] at h
      cases h
  | some words =>
      rw [hwords, Option.getD_some] at h
      exact (List.forall₂_iff_zip.mp (forall₂_told hm hv hwords)).2 h slot rfl

/-- Every slot that a variable comes from holds the word of its component after the variable has got
its value again. -/
theorem getElem?_pool_patch_self {names : NameTable} {node : Node} {m patched : ScriptModule}
    {script function : Nat} {offset : UInt32} {v : Variable} (hm : decompile names node = .ok m)
    (hv : m.varAt? script function offset = some v)
    (hpatch : m.patch script function offset v.value = .ok patched) {slot old : UInt32}
    (hslot : some slot ∈ v.sources) (hold : m.pool[slot.toNat]? = some old) :
    patched.pool[slot.toNat]? = some (v.value.componentWord names old) := by
  obtain ⟨words, hwords⟩ :=
    Option.isSome_iff_exists.mp ((patch_self_isSome_iff hm hv).mp ⟨patched, hpatch⟩)
  have hlen := (forall₂_told hm hv hwords).length_eq
  -- the component that comes from the slot
  obtain ⟨i, hi⟩ := List.mem_iff_getElem?.mp hslot
  obtain ⟨hlt, -⟩ := List.getElem?_eq_some_iff.mp hi
  have hi' : i < words.length := hlen ▸ hlt
  have hword : words[i]? = some words[i] := List.getElem?_eq_getElem hi'
  have hmem : (some slot, words[i]) ∈ v.components v.value := by
    rw [Variable.components, hwords]
    exact List.mem_iff_getElem?.mpr ⟨i, List.getElem?_zip_eq_some.mpr ⟨hi, hword⟩⟩
  -- all components from this slot have the same word, as the pool tells it
  have hagree : ∀ slot word word', (some slot, word) ∈ v.components v.value →
      (some slot, word') ∈ v.components v.value → word = word' := by
    intro slot word word' hmem hmem'
    obtain ⟨old, hold, rfl⟩ := word_of_mem_components hm hv hmem
    obtain ⟨old', hold', rfl⟩ := word_of_mem_components hm hv hmem'
    rw [Option.some.inj (hold.symm.trans hold')]
  have hslots : ∀ slot word, (some slot, word) ∈ v.components v.value →
      slot.toNat < m.pool.size :=
    fun slot word hmem => slot_lt_of_mem_components hm hv (hwords ▸ rfl) hmem
  obtain ⟨old', hold', hold_word⟩ := word_of_mem_components hm hv hmem
  obtain rfl := Option.some.inj (hold.symm.trans hold')
  rw [pool_patch hm hpatch hv, ← hold_word]
  exact (writeComponents_agree_iff hslots).mpr hagree slot _ hmem

/-- **A variable that gets the value it has.** It can get it whenever there are words for it. The
pool, and with it the data chunk that the pool is written into, stays as it is exactly when every
word that a component comes from is the word of this component: as it is for numbers, and for those
components of vectors whose word reads as a float or is the nearest number to itself. -/
theorem patch_self {names : NameTable} {node : Node} {m : ScriptModule} {script function : Nat}
    {offset : UInt32} {v : Variable} (hm : decompile names node = .ok m)
    (hv : m.varAt? script function offset = some v) :
    ((∃ patched, m.patch script function offset v.value = .ok patched) ↔
        v.value.poolWords?.isSome)
      ∧ ∀ patched, m.patch script function offset v.value = .ok patched →
          (∀ slot old, some slot ∈ v.sources → m.pool[slot.toNat]? = some old →
            patched.pool[slot.toNat]? = some (v.value.componentWord names old))
          ∧ (patched.pool = m.pool ↔ ∀ slot old, some slot ∈ v.sources →
              m.pool[slot.toNat]? = some old → v.value.single?.isSome
                ∨ (Value.ofPoolWord names old).kind = "float"
                ∨ Single.ofNat old.toNat = ⟨old⟩)
          ∧ ∃ data written, payload? node ChunkType.scriptData = some data
            ∧ patched.writePool data = .ok written
            ∧ (written = data ↔ patched.pool = m.pool) := by
  refine ⟨patch_self_isSome_iff hm hv, fun patched hpatch => ?_⟩
  have hwritten : ∀ slot old, some slot ∈ v.sources → m.pool[slot.toNat]? = some old →
      patched.pool[slot.toNat]? = some (v.value.componentWord names old) :=
    fun slot old hslot hold => getElem?_pool_patch_self hm hv hpatch hslot hold
  have hsize : patched.pool.size = m.pool.size := by
    rw [pool_patch hm hpatch hv, size_writeSlots]
  refine ⟨hwritten, ?_, ?_⟩
  · simp only [← Value.componentWord_eq_self_iff]
    constructor
    · intro hpool slot old hslot hold
      have hword := hwritten slot old hslot hold
      rw [hpool, hold] at hword
      exact (Option.some.inj hword).symm
    · intro hself
      refine Array.ext_getElem? fun i => ?_
      by_cases hi : ∃ slot, some slot ∈ v.sources ∧ slot.toNat = i
      · obtain ⟨slot, hslot, rfl⟩ := hi
        cases hold : m.pool[slot.toNat]? with
        | none =>
            have hbeyond := Array.getElem?_eq_none_iff.mp hold
            exact Array.getElem?_eq_none (by omega)
        | some old => rw [hwritten slot old hslot hold, hself slot old hslot hold]
      · rw [pool_patch hm hpatch hv]
        refine getElem?_writeComponents_of_ne fun slot word hmem hslot => hi ⟨slot, ?_, hslot⟩
        exact (List.of_mem_zip hmem).1
  · obtain ⟨header, data, -, hdata, hparse, -⟩ := decompile_eq_ok.mp hm
    obtain ⟨hfits, -⟩ := ScriptData.parse_overwrite hparse hsize
    exact ⟨data, _, hdata, if_neg (Nat.not_lt_of_le hfits),
      ScriptData.overwrite_eq_self_iff hparse hsize⟩

/-- A vector of floats leaves the data chunk as it is. -/
theorem patch_self_echo :
    ∃ m v patched data, decompile .empty echoNode = .ok m ∧ m.varAt? 0 0 0 = some v
      ∧ m.patch 0 0 0 v.value = .ok patched
      ∧ payload? echoNode ChunkType.scriptData = some data
      ∧ patched.writePool data = .ok data := by
  have hrun : runPatch .empty echoNode 0 0 0 Variable.value = .ok (some ⟨#[0x3F800000],
      [(some 0, 0x3F800000), (none, 0x40E00000), (some 0, 0x3F800000)], #[0x3F800000]⟩) := by
    decide +kernel
  obtain ⟨m, patched, v, hm, hv, hpatch, hbefore, -, hafter⟩ := patched_of_run hrun
  obtain ⟨-, hself⟩ := patch_self hm hv
  obtain ⟨-, -, data, written, hdata, hwritten, hsame⟩ := hself patched hpatch
  obtain rfl := hsame.mpr (hafter.trans hbefore.symm)
  exact ⟨m, v, patched, written, hm, hv, hpatch, hdata, hwritten⟩

/-- The same module with the number 250000 in its pool, which is taken for an integer. -/
def largeNode : Node :=
  echoNode.refill ChunkType.scriptData [Bytes.ofWords32 [5, 14, 6] ++ Bytes.ofWords16 [0, 0]
    ++ Bytes.ofWords32 [0x48742400]
    ++ Bytes.ofWords16 [9, 0x0000, 0x1007, 0x0000, 0x1F38, 0x0000, 0x4004, 0x3000]]

/-- The components of the vector are the float nearest to that integer, and this float is what a
patch with the value as it is writes into the pool. -/
theorem patch_self_large :
    ∃ m v patched data written, decompile .empty largeNode = .ok m ∧ m.varAt? 0 0 0 = some v
      ∧ m.patch 0 0 0 v.value = .ok patched
      ∧ m.pool = #[0x48742400] ∧ patched.pool = #[0x4E90E848]
      ∧ payload? largeNode ChunkType.scriptData = some data
      ∧ patched.writePool data = .ok written ∧ written ≠ data := by
  have hrun : runPatch .empty largeNode 0 0 0 Variable.value = .ok (some ⟨#[0x48742400],
      [(some 0, 0x4E90E848), (none, 0x40E00000), (some 0, 0x4E90E848)], #[0x4E90E848]⟩) := by
    decide +kernel
  obtain ⟨m, patched, v, hm, hv, hpatch, hbefore, -, hafter⟩ := patched_of_run hrun
  obtain ⟨header, data, -, hdata, hparse, -⟩ := decompile_eq_ok.mp hm
  have hsize : patched.pool.size = m.pool.size := by
    rw [hbefore, hafter]
    rfl
  obtain ⟨hfits, -⟩ := ScriptData.parse_overwrite hparse hsize
  refine ⟨m, v, patched, data, _, hm, hv, hpatch, hbefore, hafter, hdata,
    if_neg (Nat.not_lt_of_le hfits), fun hsame => ?_⟩
  have hpool := (ScriptData.overwrite_eq_self_iff hparse hsize).mp hsame
  rw [hbefore, hafter] at hpool
  exact absurd hpool (by decide)

end ScriptModule

end ChunkArchive
