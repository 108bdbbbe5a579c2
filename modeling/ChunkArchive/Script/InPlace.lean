import ChunkArchive.Steps
import ChunkArchive.Script.Patch

/-!
# Patching in place

The programs that patch a module and write its pool where these are, step by step. A patch goes
through the components of the variable first and gathers the words to write; a component that can
not change stops it there. Then the variable gets its value, and the words are put into the pool one
after the other. The pool is written into a data chunk word by word.
-/

set_option autoImplicit false

namespace ChunkArchive

/-- Goes through the components from number `index` on, with the words gathered so far. -/
def gatherWrites (poolSize : Nat) : (index : Nat) → (gathered : List (Nat × UInt32)) →
    List (Option UInt32 × UInt32 × UInt32) → Except PatchFault (List (Nat × UInt32))
  | _, gathered, [] => .ok gathered
  | index, gathered, (source, old, new) :: rest =>
    match source.filter fun slot => slot.toNat < poolSize with
    | some slot => gatherWrites poolSize (index + 1) (gathered ++ [(slot.toNat, new)]) rest
    | none =>
      if old = new then gatherWrites poolSize (index + 1) gathered rest
      else .error (.inlineLiteral index)

namespace ScriptModule

/-! ## Patching -/

/-- A program that changes a module. It may stop at any point, with the changes made so far. -/
abbrev Program := EStateM Stop ScriptModule

/-- Plans a patch, or refuses it. Nothing is changed. -/
def planPatch (m : ScriptModule) (script function : Nat) (offset : UInt32) (value : Value) :
    Except Stop (List (Nat × UInt32)) := do
  let refuse (fault : PatchFault) : Stop := .refused (.notPatchable offset fault)
  let f ← (m.function script function).mapError .refused
  match f.body.vars.find? (·.offset = offset) with
  | none => .error (refuse .noVariable)
  | some v =>
    if v.value.kind ≠ value.kind then .error (refuse (.kindMismatch value.kind v.value.kind))
    match v.value.poolWords?, value.poolWords? with
    | some old, some new =>
      if v.sources.length ≠ new.length then .error (refuse .componentCount)
      (gatherWrites m.pool.size 0 [] (v.sources.zip (old.zip new))).mapError refuse
    | _, _ => .error (refuse .notInPool)

/-- Puts a value into the variable at an offset of a function. -/
def putValue (script function : Nat) (offset : UInt32) (value : Value) : Program Unit :=
  modify fun m => m.updateFunction script function fun f =>
    { f with body := { f.body with vars := f.body.vars.map fun v =>
        if v.offset = offset then { v with value } else v } }

/-- Puts a word into a slot that has to be there. -/
def putWord (slot : Nat) (word : UInt32) : Program Unit := do
  let m ← get
  if slot < m.pool.size then set { m with pool := m.pool.setIfInBounds slot word }
  else throw .outOfRange

/-- Gives the variable at an offset of a function another value. -/
def patchInPlace (script function : Nat) (offset : UInt32) (value : Value) : Program Unit := do
  let writes ← MonadExcept.ofExcept ((← get).planPatch script function offset value)
  putValue script function offset value
  writes.forM fun (slot, word) => putWord slot word

/-! ## Writing the pool -/

/-- Writes words into a buffer one after the other, the first one at `start`. -/
def writeWords : (start : Nat) → List UInt32 → EStateM Stop Bytes Unit
  | _, [] => pure ()
  | start, word :: words => do
    let buffer ← MonadExcept.ofExcept ((← get).copyInto start (start + 4) (Bytes.ofWord32 word))
    set buffer
    writeWords (start + 4) words

/-- Writes the pool into a data chunk. -/
def writePoolInPlace (m : ScriptModule) : EStateM Stop Bytes Unit := do
  let data ← get
  if data.length < ScriptData.headerLength + 4 * m.pool.size then
    throw (.refused (.format (.poolDoesNotFit data.length m.pool.size)))
  writeWords ScriptData.headerLength m.pool.toList

end ScriptModule

end ChunkArchive
