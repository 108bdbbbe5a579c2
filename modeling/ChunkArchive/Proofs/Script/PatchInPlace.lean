import ChunkArchive.Proofs.InPlace
import ChunkArchive.Proofs.Script.PatchedPool
import ChunkArchive.Script.InPlace

/-!
# What a patch changes

The program that patches a module in place does what `ScriptModule.patch` says, or nothing
(`ScriptModule.run_patchInPlace`): whatever it refuses it refuses before the first change, and every
word it gathers has its slot. It is carried out exactly when the variable admits the new value
(`Variable.Admits`), and it leaves all alone but this value and the slots that the variable comes
from (`ScriptModule.patchInPlace_changes`).
-/

set_option autoImplicit false

namespace ChunkArchive

/-! ## Planning -/

/-- Words that are gathered one by one are those that are planned, behind the ones gathered
before. -/
theorem gatherWrites_eq (poolSize index : Nat) (gathered : List (Nat × UInt32))
    (components : List (Option UInt32 × UInt32 × UInt32)) :
    gatherWrites poolSize index gathered components
      = (poolWrites poolSize index components).map (gathered ++ ·) := by
  induction components generalizing index gathered with
  | nil => simp [gatherWrites, poolWrites, Except.map]
  | cons c rest ih =>
      obtain ⟨source, old, new⟩ := c
      rw [gatherWrites, poolWrites]
      cases source.filter fun slot => slot.toNat < poolSize with
      | some slot =>
          dsimp only
          rw [ih]
          cases poolWrites poolSize (index + 1) rest with
          | error fault => rfl
          | ok writes =>
              show Except.ok (gathered ++ [_] ++ writes) = Except.ok (gathered ++ _ :: writes)
              rw [List.append_assoc, List.singleton_append]
      | none =>
          dsimp only
          by_cases hsame : old = new
          · rw [if_pos hsame, ih, if_neg (by simp [hsame])]
            cases poolWrites poolSize (index + 1) rest <;> rfl
          · rw [if_neg hsame, if_pos (by simp [hsame])]
            rfl

theorem gatherWrites_nil (poolSize : Nat) (components : List (Option UInt32 × UInt32 × UInt32)) :
    gatherWrites poolSize 0 [] components = poolWrites poolSize 0 components := by
  rw [gatherWrites_eq]
  cases poolWrites poolSize 0 components <;> rfl

namespace ScriptModule

/-- The words to write for a patch, or what there is against it. -/
def wordsToWrite (m : ScriptModule) (script function : Nat) (offset : UInt32) (value : Value) :
    Except Error (List (Nat × UInt32)) := do
  let f ← m.function script function
  let plan : Except PatchFault (List (Nat × UInt32)) :=
    match f.body.vars.find? (·.offset = offset) with
    | none => .error .noVariable
    | some v => v.writes m.pool.size value
  plan.mapError (.notPatchable offset)

section Plan

variable (m : ScriptModule) (script function : Nat) (offset : UInt32) (value : Value)

theorem planPatch_eq :
    m.planPatch script function offset value
      = (m.wordsToWrite script function offset value).mapError .refused := by
  unfold planPatch wordsToWrite Variable.writes
  cases m.function script function with
  | error e => rfl
  | ok f =>
      simp only [Except.mapError, bind, Except.bind]
      cases f.body.vars.find? (·.offset = offset) with
      | none => rfl
      | some v =>
          dsimp only
          split_ifs
          · rfl
          · cases v.value.poolWords? with
            | none => rfl
            | some old =>
                cases value.poolWords? with
                | none => rfl
                | some new =>
                    dsimp only
                    rw [gatherWrites_nil]
                    split_ifs
                    · rfl
                    · cases poolWrites m.pool.size 0 (v.sources.zip (old.zip new)) <;> rfl

/-- The module with another value for the variable and words written into the pool. -/
def patchedWith (writes : List (Nat × UInt32)) : ScriptModule :=
  { m.updateFunction script function (Function.withValue offset value) with
    pool := writeSlots m.pool writes }

theorem patch_eq_map :
    m.patch script function offset value
      = (m.wordsToWrite script function offset value).map
          (m.patchedWith script function offset value) := by
  unfold patch wordsToWrite
  cases m.function script function with
  | error e => rfl
  | ok f =>
      simp only [bind, Except.bind]
      cases f.body.vars.find? (·.offset = offset) with
      | none => rfl
      | some v => cases v.writes m.pool.size value <;> rfl

end Plan

/-! ## Writing -/

/-- Words whose slots are there are all put into the pool. -/
theorem run_putWords {m : ScriptModule} {writes : List (Nat × UInt32)}
    (hslots : ∀ w ∈ writes, w.1 < m.pool.size) :
    (writes.forM fun (slot, word) => putWord slot word).run m
      = .ok () { m with pool := writeSlots m.pool writes } := by
  induction writes generalizing m with
  | nil => rfl
  | cons w writes ih =>
      obtain ⟨hw, hwrites⟩ := List.forall_mem_cons.mp hslots
      have hput : (putWord w.1 w.2).run m
          = .ok () { m with pool := m.pool.setIfInBounds w.1 w.2 } := by
        refine (InPlace.run_bind_of_ok (InPlace.run_get m)).trans ?_
        rw [if_pos hw]
        rfl
      refine (InPlace.run_bind_of_ok hput).trans ?_
      refine (ih fun w' hw' => ?_).trans rfl
      rw [Array.size_setIfInBounds]
      exact hwrites w' hw'

/-- The words of a patch have their slots. -/
theorem slot_lt_of_wordsToWrite {m : ScriptModule} {script function : Nat} {offset : UInt32}
    {value : Value} {writes : List (Nat × UInt32)}
    (h : m.wordsToWrite script function offset value = .ok writes) :
    ∀ w ∈ writes, w.1 < m.pool.size := by
  obtain ⟨f, -, h⟩ := Outcome.bind_eq_ok.mp h
  rw [Outcome.mapError_eq_ok] at h
  split at h
  · cases h
  · obtain ⟨-, old, new, -, -, -, -, rfl⟩ := Variable.writes_eq_ok.mp h
    rintro ⟨i, word⟩ hw
    obtain ⟨slot, _, -, hlt, rfl⟩ := mem_plannedWrites.mp hw
    exact hlt

/-- **The program in place does what the patch says, or nothing.** -/
theorem run_patchInPlace (m : ScriptModule) (script function : Nat) (offset : UInt32)
    (value : Value) :
    (patchInPlace script function offset value).run m
      = match m.patch script function offset value with
        | .ok after => .ok () after
        | .error e => .error (.refused e) m := by
  refine (InPlace.run_bind_of_ok (InPlace.run_get m)).trans ?_
  rw [planPatch_eq, patch_eq_map]
  cases hwords : m.wordsToWrite script function offset value with
  | error e => exact InPlace.run_bind_of_error (InPlace.run_ofExcept_error ..)
  | ok writes =>
      refine (InPlace.run_bind_of_ok (InPlace.run_ofExcept_ok ..)).trans ?_
      refine (InPlace.run_bind_of_ok
        (t := m.updateFunction script function (Function.withValue offset value)) rfl).trans ?_
      have hslots : ∀ w ∈ writes, w.1 < m.pool.size := slot_lt_of_wordsToWrite hwords
      exact run_putWords (m := m.updateFunction script function (Function.withValue offset value))
        hslots

end ScriptModule

/-! ## Values that a variable admits -/

/-- How many words values of a kind have in the pool, if they have any. -/
def Value.wordCount (kind : String) : Nat :=
  if kind = "Vec3" then 3 else if kind = "Vec4" then 4 else if kind = "Matrix4x4" then 16 else 1

theorem Value.length_poolWords? {v : Value} {words : List UInt32} (h : v.poolWords? = some words) :
    words.length = wordCount v.kind := by
  cases v <;> cases h <;> simp [wordCount, kind]

/-- The variable can get the value, in a pool of the given size. -/
structure Variable.Admits (slots : Nat) (v : Variable) (value : Value) : Prop where
  kind : v.value.kind = value.kind
  /-- Both values have words, one for each source. Where the source is no slot of the pool, the
  words are the same. -/
  words : ∃ old new, v.value.poolWords? = some old ∧ value.poolWords? = some new
    ∧ v.sources.length = old.length ∧ v.sources.length = new.length
    ∧ ∀ (k : Nat) (source : Option UInt32), v.sources[k]? = some source →
        (∀ slot, source = some slot → slots ≤ slot.toNat) → new[k]? = old[k]?

/-- Writes can be planned for the values that the variable admits. -/
theorem Variable.exists_writes_iff {v : Variable} {slots : Nat} {value : Value} :
    (∃ writes, v.writes slots value = .ok writes) ↔ v.Admits slots value := by
  have hnone : ∀ source, slotIn? slots source = none ↔
      ∀ slot, source = some slot → slots ≤ slot.toNat := by
    intro source
    simp only [slotIn?, Option.filter_eq_none_iff, decide_eq_true_iff, Nat.not_lt]
  constructor
  · rintro ⟨writes, hwrites⟩
    obtain ⟨hkind, old, new, hold, hnew, hlen, hkept, -⟩ := writes_eq_ok.mp hwrites
    have hsame : old.length = new.length := by
      rw [Value.length_poolWords? hold, Value.length_poolWords? hnew, hkind]
    refine ⟨hkind, old, new, hold, hnew, hlen.trans hsame.symm, hlen, fun k source hk hno => ?_⟩
    obtain ⟨hlt, -⟩ := List.getElem?_eq_some_iff.mp hk
    obtain ⟨word, hword⟩ : ∃ word, old[k]? = some word :=
      ⟨_, List.getElem?_eq_getElem (by omega)⟩
    obtain ⟨word', hword'⟩ : ∃ word', new[k]? = some word' :=
      ⟨_, List.getElem?_eq_getElem (by omega)⟩
    have hmem : (source, word, word') ∈ v.sources.zip (old.zip new) :=
      List.mem_iff_getElem?.mpr ⟨k, List.getElem?_zip_eq_some.mpr
        ⟨hk, List.getElem?_zip_eq_some.mpr ⟨hword, hword'⟩⟩⟩
    have hequal : word = word' := hkept _ hmem ((hnone source).mpr hno)
    rw [hword, hword', hequal]
  · rintro ⟨hkind, old, new, hold, hnew, -, hlen, hkept⟩
    refine ⟨_, writes_eq_ok.mpr ⟨hkind, old, new, hold, hnew, hlen, ?_, rfl⟩⟩
    rintro ⟨source, a, b⟩ hmem hno
    obtain ⟨k, hk⟩ := List.mem_iff_getElem?.mp hmem
    obtain ⟨hsource, hwords⟩ := List.getElem?_zip_eq_some.mp hk
    obtain ⟨ha, hb⟩ := List.getElem?_zip_eq_some.mp hwords
    have hword := hkept k source hsource ((hnone source).mp hno)
    exact Option.some.inj (ha.symm.trans (hword.symm.trans hb))

/-! ## What stays -/

/-- The function without the values of its variables. -/
def Function.withoutValues (f : Function) : Function :=
  { f with body := { f.body with vars := f.body.vars.map fun v => { v with value := default } } }

/-- The script without the values of variables. -/
def Script.withoutValues (s : Script) : Script :=
  { s with functions := s.functions.map Function.withoutValues }

theorem Function.withoutValues_withValue (offset : UInt32) (value : Value) (f : Function) :
    (f.withValue offset value).withoutValues = f.withoutValues := by
  have hvars : (f.body.vars.map fun v => if v.offset = offset then { v with value } else v).map
      (fun v => { v with value := default })
      = f.body.vars.map fun v => { v with value := default } := by
    rw [Array.map_map]
    congr 1
    funext v
    show ({ (if v.offset = offset then { v with value } else v) with value := default } : Variable)
      = _
    split_ifs <;> rfl
  unfold withoutValues withValue
  rw [hvars]

/-- Variables at other offsets stay as they are. -/
theorem Function.find?_withValue_of_ne {offset offset' : UInt32} (hne : offset' ≠ offset)
    (value : Value) (f : Function) :
    (f.withValue offset value).body.vars.find? (·.offset = offset')
      = f.body.vars.find? (·.offset = offset') := by
  rw [find?_withValue]
  cases hfind : f.body.vars.find? (·.offset = offset') with
  | none => rfl
  | some v =>
      have hv : v.offset = offset' := by simpa using Array.find?_some hfind
      rw [Option.map_some, if_neg (hv ▸ hne)]

namespace ScriptModule

/-- The modules differ at most in their pools and in the value of one variable. -/
structure SameBut (script function : Nat) (offset : UInt32) (m after : ScriptModule) : Prop where
  /-- Of what the data chunk holds only the pool changes. -/
  data : after.toScriptData = { m.toScriptData with pool := after.pool }
  stringHashes : after.stringHashes = m.stringHashes
  hashTable : after.hashTable = m.hashTable
  /-- Names, listings, statements, and the sources of all variables. -/
  scripts : after.scripts.map Script.withoutValues = m.scripts.map Script.withoutValues
  /-- The other variables with their values. -/
  others : ∀ (script' function' : Nat) (offset' : UInt32),
    (script', function', offset') ≠ (script, function, offset) →
      after.varAt? script' function' offset' = m.varAt? script' function' offset'

/-- Functions at other places stay as they are. -/
theorem getElem?_updateFunction_of_ne {script function script' function' : Nat}
    (hne : (script', function') ≠ (script, function)) (m : ScriptModule)
    (change : Function → Function) :
    ((m.updateFunction script function change).scripts[script']?.bind
        fun s => s.functions[function']?)
      = m.scripts[script']?.bind fun s => s.functions[function']? := by
  unfold updateFunction
  rw [List.getElem?_modify]
  cases m.scripts[script']? with
  | none => rfl
  | some s =>
      by_cases hscript : script = script'
      · have hfunction : function ≠ function' := fun h => hne (by rw [hscript, h])
        simp only [if_pos hscript, Option.map_eq_map, Option.map_some, Option.bind_some,
          List.getElem?_modify_ne _ _ hfunction]
      · simp only [if_neg hscript, Option.map_eq_map, Option.map_some]

/-- A patch leaves all else alone. -/
theorem sameBut_patchedWith (m : ScriptModule) (script function : Nat) (offset : UInt32)
    (value : Value) (writes : List (Nat × UInt32)) :
    SameBut script function offset m (m.patchedWith script function offset value writes) where
  data := rfl
  stringHashes := rfl
  hashTable := rfl
  scripts := by
    have hfunctions : ∀ s : Script,
        Script.withoutValues
            { s with functions := s.functions.modify function (Function.withValue offset value) }
          = s.withoutValues := by
      intro s
      unfold Script.withoutValues
      rw [map_modify_of_same (Function.withoutValues_withValue offset value)]
    exact map_modify_of_same hfunctions m.scripts script
  others := by
    intro script' function' offset' hne
    by_cases hplace : (script', function') = (script, function)
    · obtain ⟨rfl, rfl⟩ := Prod.mk.inj hplace
      have hoffset : offset' ≠ offset := fun h => hne (by rw [h])
      refine (varAt?_updateFunction m script' function' _ offset').trans ?_
      unfold varAt?
      cases m.scripts[script']?.bind fun s => s.functions[function']? with
      | none => rfl
      | some f => exact Function.find?_withValue_of_ne hoffset value f
    · exact congrArg (Option.bind · _) (getElem?_updateFunction_of_ne hplace m _)

/-! ## Patching in place -/

/-- **What patching in place changes.** A call that fails leaves the module as it was. A call
succeeds exactly when there is a variable that admits the value. This variable has the value then;
all others, and all else but the pool, are as they were, and in the pool only slots that components
of the variable come from may have changed. -/
theorem patchInPlace_changes (m : ScriptModule) (script function : Nat) (offset : UInt32)
    (value : Value) :
    (∀ stop after, (patchInPlace script function offset value).run m = .error stop after →
        after = m ∧ ∃ e, stop = .refused e ∧ m.patch script function offset value = .error e)
      ∧ ((∃ after, (patchInPlace script function offset value).run m = .ok () after) ↔
          ∃ v, m.varAt? script function offset = some v ∧ v.Admits m.pool.size value)
      ∧ ∀ after, (patchInPlace script function offset value).run m = .ok () after →
          m.patch script function offset value = .ok after
          ∧ SameBut script function offset m after
          ∧ ∃ v, m.varAt? script function offset = some v ∧ v.Admits m.pool.size value
            ∧ after.varAt? script function offset = some { v with value }
            ∧ after.pool.size = m.pool.size
            ∧ ∀ i, (∀ slot, some slot ∈ v.sources → slot.toNat ≠ i) →
                after.pool[i]? = m.pool[i]? := by
  have hdone : ∀ after, (patchInPlace script function offset value).run m = .ok () after ↔
      m.patch script function offset value = .ok after := by
    intro after
    rw [run_patchInPlace]
    cases m.patch script function offset value <;> simp
  refine ⟨?_, ?_, ?_⟩
  · intro stop after hrun
    rw [run_patchInPlace] at hrun
    cases hpatch : m.patch script function offset value with
    | ok patched =>
        rw [hpatch] at hrun
        cases hrun
    | error e =>
        rw [hpatch] at hrun
        cases hrun
        exact ⟨rfl, e, rfl, rfl⟩
  · simp only [hdone, ← Variable.exists_writes_iff]
    constructor
    · rintro ⟨after, hpatch⟩
      obtain ⟨v, writes, hv, hwrites, -⟩ := patch_eq_ok.mp hpatch
      exact ⟨v, hv, writes, hwrites⟩
    · rintro ⟨v, hv, writes, hwrites⟩
      exact ⟨_, patch_eq_ok.mpr ⟨v, writes, hv, hwrites, rfl⟩⟩
  · intro after hrun
    have hpatch := (hdone after).mp hrun
    obtain ⟨v, writes, hv, hwrites, hafter⟩ := patch_eq_ok.mp hpatch
    refine ⟨hpatch, ?_, v, hv, Variable.exists_writes_iff.mp ⟨writes, hwrites⟩,
      varAt?_patch hpatch hv, ?_, fun i hi => ?_⟩
    · rw [hafter]
      exact sameBut_patchedWith m script function offset value writes
    · rw [hafter]
      exact size_writeSlots ..
    · obtain ⟨-, old, new, -, -, -, -, rfl⟩ := Variable.writes_eq_ok.mp hwrites
      rw [hafter]
      refine getElem?_writeSlots_of_ne ?_
      rintro ⟨j, word⟩ hw rfl
      obtain ⟨slot, _, hmem, -, hslot⟩ := mem_plannedWrites.mp hw
      exact hi slot (List.of_mem_zip hmem).1 hslot

/-- The vector of 2, 8 and 2. -/
def literalChangedValue : Value := .vec3 #v[⟨0x40000000⟩, ⟨0x41000000⟩, ⟨0x40000000⟩]

/-- The vector comes from a slot, a number in the code, and the slot again. Where the number would
change, the new value of the slot is not written either. -/
theorem patchInPlace_changes_echo :
    ∃ m after, decompile .empty echoNode = .ok m ∧ m.pool = #[0x3F800000]
      ∧ (patchInPlace 0 0 0 literalChangedValue).run m
        = .error (.refused (.notPatchable 0 (.inlineLiteral 1))) m
      ∧ (patchInPlace 0 0 0 echoValue).run m = .ok () after
      ∧ after.pool = #[0x40000000] ∧ SameBut 0 0 0 m after := by
  have hrun : (decompile .empty echoNode >>= fun m =>
      .ok (m.pool, (m.patch 0 0 0 literalChangedValue).map (·.pool),
        (m.patch 0 0 0 echoValue).map (·.pool)))
      = .ok (#[0x3F800000], .error (.notPatchable 0 (.inlineLiteral 1)), .ok #[0x40000000]) := by
    decide +kernel
  obtain ⟨m, hm, hrun⟩ := Outcome.bind_eq_ok.mp hrun
  obtain ⟨hpool, hrest⟩ := Prod.mk.inj (Except.ok.inj hrun)
  obtain ⟨hrefused, haccepted⟩ := Prod.mk.inj hrest
  obtain ⟨hstop, -, hdone⟩ := patchInPlace_changes m 0 0 0 literalChangedValue
  have hliteral : (patchInPlace 0 0 0 literalChangedValue).run m
      = .error (.refused (.notPatchable 0 (.inlineLiteral 1))) m := by
    cases hcall : (patchInPlace 0 0 0 literalChangedValue).run m with
    | ok _ after =>
        rw [(hdone after hcall).1] at hrefused
        cases hrefused
    | error stop after =>
        obtain ⟨rfl, e, rfl, hpatch⟩ := hstop stop after hcall
        rw [hpatch] at hrefused
        cases hrefused
        rfl
  obtain ⟨hstop, -, hdone⟩ := patchInPlace_changes m 0 0 0 echoValue
  cases hecho : (patchInPlace 0 0 0 echoValue).run m with
  | error stop after =>
      obtain ⟨-, e, -, hpatch⟩ := hstop stop after hecho
      rw [hpatch] at haccepted
      cases haccepted
  | ok _ after =>
      obtain ⟨hpatch, hsame, -⟩ := hdone after hecho
      rw [hpatch] at haccepted
      exact ⟨m, after, hm, hpool, hliteral, hecho, Except.ok.inj haccepted, hsame⟩

end ScriptModule

end ChunkArchive
