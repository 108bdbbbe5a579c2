import ChunkArchive.Proofs.InPlace
import ChunkArchive.Proofs.Script.PatchedModule
import ChunkArchive.Script.InPlace

/-!
# Writing the pool back

The words of the pool are written into a data chunk one after the other, which is the same as
writing all of them at once (`ScriptModule.run_writePoolInPlace`). A pool takes as many bytes as its
words have. The header of a chunk may give it up to three bytes more; no word is read from these,
and none is written there. So a pool of the same size is read again where it was written, and all
else of the module is what it was (`ScriptModule.writePoolInPlace_into`).
-/

set_option autoImplicit false

namespace ChunkArchive

/-! ## Word by word -/

namespace ScriptModule

/-- Words for which there is room are all written. -/
theorem run_writeWords {start : Nat} {words : List UInt32} {buffer : Bytes}
    (hroom : start + 4 * words.length ≤ buffer.length) :
    (writeWords start words).run buffer
      = .ok () (Bytes.overwrite buffer start (Bytes.ofWords32 words)) := by
  induction words generalizing start buffer with
  | nil =>
      rw [Bytes.ofWords32_nil, Bytes.overwrite_nil (by simpa using hroom)]
      rfl
  | cons word words ih =>
      rw [List.length_cons] at hroom
      have hword : (Bytes.ofWord32 word).length = 4 := rfl
      have hfits : start + (Bytes.ofWord32 word).length ≤ buffer.length := by omega
      have hcopy : buffer.copyInto start (start + 4) (Bytes.ofWord32 word)
          = .ok (Bytes.overwrite buffer start (Bytes.ofWord32 word)) :=
        Bytes.copyInto_eq_overwrite hfits
      refine (InPlace.run_bind_of_ok (InPlace.run_get buffer)).trans ?_
      rw [hcopy]
      refine (InPlace.run_bind_of_ok (InPlace.run_ofExcept_ok ..)).trans ?_
      refine (InPlace.run_bind_of_ok rfl).trans ?_
      rw [ih (by rw [Bytes.length_overwrite]; omega), Bytes.ofWords32_cons,
        Bytes.overwrite_append_patch]
      rfl

/-- **The pool is written as a whole, or not at all.** -/
theorem run_writePoolInPlace (m : ScriptModule) (data : Bytes) :
    m.writePoolInPlace.run data
      = match m.writePool data with
        | .ok written => .ok () written
        | .error e => .error (.refused e) data := by
  refine (InPlace.run_bind_of_ok (InPlace.run_get data)).trans ?_
  unfold writePool
  by_cases hroom : data.length < ScriptData.headerLength + 4 * m.pool.size
  · rw [if_pos hroom, if_pos hroom]
    rfl
  · rw [if_neg hroom, if_neg hroom]
    refine (run_writeWords ?_).trans rfl
    rw [Array.length_toList]
    omega

end ScriptModule

/-! ## The module with another pool -/

/-- The function with what its code does when the pools are these. -/
def Function.decodedIn (pools : Pools) (f : Function) : Function :=
  { f with body := .decode pools f.codeStart }

/-- The script with what its functions do when the pools are these. -/
def Script.decodedIn (pools : Pools) (s : Script) : Script :=
  { s with functions := s.functions.map (Function.decodedIn pools) }

namespace ScriptModule

theorem readScript_decodedIn {pools pools' : Pools} (hnames : pools'.names = pools.names)
    (entry : UInt32 × UInt32) (table : Node) :
    (readScript pools entry table).decodedIn pools' = readScript pools' entry table := by
  have hfunctions : (readFunctions pools (table.payload?.getD [])).map (Function.decodedIn pools')
      = readFunctions pools' (table.payload?.getD []) := by
    rw [readFunctions, List.map_map, readFunctions, hnames]
    rfl
  unfold Script.decodedIn readScript
  rw [hfunctions, hnames]

theorem readScripts_decodedIn {pools pools' : Pools} (hnames : pools'.names = pools.names)
    (header : Bytes) (tables : List Node) :
    (readScripts pools header tables).map (Script.decodedIn pools')
      = readScripts pools' header tables := by
  rw [readScripts, List.map_map]
  exact List.map_congr_left fun e _ => readScript_decodedIn hnames e.1 e.2

/-- Two modules that differ in the pool alone, and in what the functions do with it. -/
structure Repooled (names : NameTable) (pool : Array UInt32) (before after : ScriptModule) :
    Prop where
  data : after.toScriptData = { before.toScriptData with pool }
  strings : after.strings = before.strings
  stringHashes : after.stringHashes = before.stringHashes
  hashTable : after.hashTable = before.hashTable
  scripts : after.scripts = before.scripts.map (Script.decodedIn (after.pools names))

/-- **A pool that is written into a data chunk.** On a buffer too short for the pool the call fails
and leaves the buffer as it was. Into a chunk that has a pool of this size it is written, and only
the bytes of its words change; the chunk is then read as before with the new pool, and so is every
module that has this chunk. -/
theorem writePoolInPlace_into (m : ScriptModule) :
    (∀ short : Bytes, short.length < ScriptData.headerLength + 4 * m.pool.size →
        m.writePoolInPlace.run short
          = .error (.refused (.format (.poolDoesNotFit short.length m.pool.size))) short)
      ∧ ∀ (data : Bytes) (d : ScriptData), ScriptData.parse data = .ok d →
          m.pool.size = d.pool.size →
        ∃ written, m.writePoolInPlace.run data = .ok () written
          ∧ m.writePool data = .ok written
          ∧ written.length = data.length
          ∧ (∀ i, i < ScriptData.headerLength ∨ ScriptData.headerLength + 4 * m.pool.size ≤ i →
              written[i]? = data[i]?)
          ∧ ScriptData.parse written = .ok { d with pool := m.pool }
          ∧ (written = data ↔ m.pool = d.pool)
          ∧ ∀ (names : NameTable) (node : Node) (before : ScriptModule),
              payload? node ChunkType.scriptData = some data →
              decompile names node = .ok before →
            ∃ after, decompile names (node.refill ChunkType.scriptData [written]) = .ok after
              ∧ Repooled names m.pool before after := by
  refine ⟨fun short hshort => ?_, fun data d hparse hsize => ?_⟩
  · rw [run_writePoolInPlace, writePool, if_pos hshort]
  obtain ⟨hfits, hparse'⟩ := ScriptData.parse_overwrite hparse hsize
  have hwritten : m.writePool data
      = .ok (Bytes.overwrite data ScriptData.headerLength (Bytes.ofWords32 m.pool.toList)) :=
    if_neg (Nat.not_lt_of_le hfits)
  have hpatch : (Bytes.ofWords32 m.pool.toList).length = 4 * m.pool.size := by simp
  have hlength : (Bytes.overwrite data ScriptData.headerLength
      (Bytes.ofWords32 m.pool.toList)).length = data.length := by
    rw [Bytes.length_overwrite, hpatch, Nat.max_eq_left hfits]
  refine ⟨_, ?_, hwritten, hlength, fun i hi => ?_, hparse',
    ScriptData.overwrite_eq_self_iff hparse hsize, fun names node before hdata hbefore => ?_⟩
  · rw [run_writePoolInPlace, hwritten]
  · by_cases hinside : i < data.length
    · exact Bytes.getElem?_overwrite_of_outside hinside (by rwa [hpatch])
    · rw [List.getElem?_eq_none (by omega), List.getElem?_eq_none (by omega)]
  · obtain ⟨header, tables, hscripts, hafter⟩ := decompile_refill_data hbefore hparse'
    -- what is decompiled has the data that the chunk is read as
    obtain ⟨-, data', -, hdata', hd, -⟩ := decompile_eq_ok.mp hbefore
    obtain rfl := Option.some.inj (hdata.symm.trans hdata')
    obtain rfl := Except.ok.inj (hparse.symm.trans hd)
    refine ⟨_, hafter, rfl, rfl, rfl, rfl, ?_⟩
    rw [hscripts]
    let d : ScriptData := { before.toScriptData with pool := m.pool }
    have hnames : (d.pools names).names = (before.pools names).names := rfl
    exact (readScripts_decodedIn hnames header tables).symm

/-- The header of this chunk gives its pool six bytes. The last two of them are no word, and they
stay as they are. -/
theorem writePoolInPlace_into_echo :
    ∃ before after : ScriptModule, decompile .empty echoNode = .ok before
      ∧ before.pool = #[0x3F800000]
      ∧ ∃ written, ({ before with pool := #[0x40000000] } : ScriptModule).writePoolInPlace.run
            (Bytes.ofWords32 [5, 14, 6] ++ Bytes.ofWords16 [0, 0] ++ Bytes.ofWords32 [0x3F800000]
              ++ Bytes.ofWords16 [9, 0x0000, 0x1007, 0x0000, 0x1F38, 0x0000, 0x4004, 0x3000])
          = .ok () written
        ∧ written = Bytes.ofWords32 [5, 14, 6] ++ Bytes.ofWords16 [0, 0]
            ++ Bytes.ofWords32 [0x40000000]
            ++ Bytes.ofWords16 [9, 0x0000, 0x1007, 0x0000, 0x1F38, 0x0000, 0x4004, 0x3000]
        ∧ decompile .empty (echoNode.refill ChunkType.scriptData [written]) = .ok after
        ∧ Repooled .empty #[0x40000000] before after
        ∧ before.writePoolInPlace.run (Bytes.zeros 18)
          = .error (.refused (.format (.poolDoesNotFit 18 1))) (Bytes.zeros 18) := by
  have hrun : (decompile .empty echoNode >>= fun m => .ok m.pool) = .ok #[0x3F800000] := by
    decide +kernel
  obtain ⟨before, hbefore, hpool⟩ := Outcome.bind_eq_ok.mp hrun
  have hpool : before.pool = #[0x3F800000] := Except.ok.inj hpool
  obtain ⟨-, data, -, hdata, hparse, -⟩ := decompile_eq_ok.mp hbefore
  obtain rfl := Option.some.inj hdata
  obtain ⟨hshort, -⟩ := writePoolInPlace_into before
  obtain ⟨-, hinto⟩ := writePoolInPlace_into { before with pool := #[0x40000000] }
  obtain ⟨written, hwritten, hwhole, -, -, -, -, hagain⟩ := hinto _ _ hparse (by rw [hpool]; rfl)
  obtain ⟨after, hafter, hrepooled⟩ := hagain .empty echoNode before hdata hbefore
  refine ⟨before, after, hbefore, hpool, written, hwritten, ?_, hafter, hrepooled, ?_⟩
  · exact (Except.ok.inj hwhole).symm
  · rw [hpool] at hshort
    exact hshort (Bytes.zeros 18) (by decide)

end ScriptModule

end ChunkArchive
