import ChunkArchive.Proofs.Script.Container
import ChunkArchive.Proofs.Script.Relocation

/-!
# Assembling a module and decompiling it again

An assembled module has its functions one after the other, each on its own and with an `END`,
whatever they shared before. Decompiled again it is the module `ScriptModule.reassembled`, which
differs from the one before in nothing but where code stands, and assembling that one gives the
same bytes again (`ScriptModule.decompile_withAssembly`).
-/

set_option autoImplicit false

namespace ChunkArchive

/-! ## Functions one after the other -/

namespace Function

theorem words_eq (f : Function) : f.words = f.body.words := by
  have hlast : f.body.operations.toList.getLast?.map (fun o => o.opcode)
      = f.body.instructions.getLast?.map Instruction.opcode := by
    rw [Body.instructions, List.getLast?_map, Option.map_map]
    rfl
  have hwords : f.body.operations.toList.flatMap (fun o => o.toInstruction.words)
      = f.body.instructions.flatMap Instruction.words := (List.flatMap_map ..).symm
  unfold words Body.words
  simp only [hlast, hwords]
  rfl

/-- The function when its words stand on their own from word number `start` on. -/
def relocated (start : Nat) (f : Function) : Function :=
  { f with
    codeStart := UInt32.ofNat start
    body := f.body.relocated f.codeStart.toNat start }

/-- The functions when their words follow one another from word number `start` on. -/
def inOrder : (start : Nat) → List Function → List Function
  | _, [] => []
  | start, f :: rest => f.relocated start :: inOrder (start + f.words.length) rest

@[simp] theorem words_relocated (start : Nat) (f : Function) :
    (f.relocated start).words = f.words := by
  rw [words_eq, words_eq]
  exact Body.words_relocated _ start f.body

@[simp] theorem words_inOrder (start : Nat) (fs : List Function) :
    (inOrder start fs).flatMap words = fs.flatMap words := by
  induction fs generalizing start with
  | nil => rfl
  | cons f rest ih => simp [inOrder, ih]

end Function

namespace Script

/-- The script when the words of its functions follow one another from word number `start` on. -/
def relocated (start : Nat) (s : Script) : Script :=
  { s with functions := Function.inOrder start s.functions }

/-- The scripts when the words of all functions follow one another from word number `start` on. -/
def inOrder : (start : Nat) → List Script → List Script
  | _, [] => []
  | start, s :: rest => s.relocated start :: inOrder (start + Function.length s.functions) rest

/-- The words of the functions of a script. -/
def words (s : Script) : List UInt16 := s.functions.flatMap Function.words

@[simp] theorem words_relocated (start : Nat) (s : Script) :
    (s.relocated start).words = s.words := Function.words_inOrder start s.functions

@[simp] theorem words_inOrder (start : Nat) (scripts : List Script) :
    (inOrder start scripts).flatMap words = scripts.flatMap words := by
  induction scripts generalizing start with
  | nil => rfl
  | cons s rest ih => simp [inOrder, ih]

end Script

namespace ScriptModule

/-- The module as it is read from its assembled payloads: the code consists of the functions one
after the other. -/
def reassembled (m : ScriptModule) : ScriptModule :=
  { m with
    code := m.scripts.flatMap Script.words
    scripts := Script.inOrder 0 m.scripts }

/-! ## Assembling once more -/

theorem functionTable_inOrder (start : Nat) (fs : List Function) :
    functionTable start (Function.inOrder start fs) = functionTable start fs := by
  induction fs generalizing start with
  | nil => rfl
  | cons f rest ih =>
      unfold Function.inOrder functionTable
      rw [Function.words_relocated, ih]
      rfl

theorem functionTables_inOrder (start : Nat) (scripts : List Script) :
    functionTables start (Script.inOrder start scripts) = functionTables start scripts := by
  induction scripts generalizing start with
  | nil => rfl
  | cons s rest ih =>
      have hlength : Function.length (s.relocated start).functions
          = Function.length s.functions := congrArg List.length (Script.words_relocated start s)
      unfold Script.inOrder functionTables
      rw [hlength, ih]
      show (functionTable start (Function.inOrder start s.functions) >>= _) = _
      rw [functionTable_inOrder]

/-- The words of the header chunk. -/
def headerWords (scripts : List Script) : List UInt32 :=
  scripts.flatMap fun s => [s.nameHash, s.stringBufferSize]

theorem headerWords_inOrder (start : Nat) (scripts : List Script) :
    headerWords (Script.inOrder start scripts) = headerWords scripts := by
  unfold headerWords
  induction scripts generalizing start with
  | nil => rfl
  | cons s rest ih =>
      rw [Script.inOrder, List.flatMap_cons, List.flatMap_cons, ih]
      rfl

/-- The data chunk that the module is assembled to. -/
def assembledData (m : ScriptModule) : ScriptData :=
  { m.toScriptData with code := m.scripts.flatMap Script.words }

/-- What it takes to assemble a module, and what comes out. -/
theorem assemble_eq_ok {m : ScriptModule} {out : Assembly} :
    m.assemble = .ok out ↔
      functionTables 0 m.scripts = .ok out.functionTables
        ∧ 2 * m.assembledData.code.length < 0x100000000 ∧ 4 * m.pool.size < 0x100000000
        ∧ out.header = Bytes.ofWords32 (headerWords m.scripts)
        ∧ out.data = m.assembledData.write := by
  unfold assemble
  constructor
  · intro h
    obtain ⟨tables, htables, h⟩ := Outcome.bind_eq_ok.mp h
    obtain ⟨hcode, h⟩ := Outcome.unless_eq_ok.mp h
    obtain ⟨hpool, h⟩ := Outcome.unless_eq_ok.mp h
    obtain rfl := Outcome.pure_eq_ok.mp h
    exact ⟨htables, Nat.lt_of_not_le hcode, Nat.lt_of_not_le hpool, rfl, rfl⟩
  · obtain ⟨data, header, tables⟩ := out
    rintro ⟨htables, hcode, hpool, rfl, rfl⟩
    refine Outcome.bind_eq_ok.mpr ⟨tables, htables, ?_⟩
    refine Outcome.unless_eq_ok.mpr ⟨Nat.not_le_of_lt hcode, ?_⟩
    exact Outcome.unless_eq_ok.mpr ⟨Nat.not_le_of_lt hpool, rfl⟩

/-- Where code stands does not matter to what a module is assembled to. -/
theorem assemble_reassembled {m : ScriptModule} {out : Assembly} (h : m.assemble = .ok out) :
    m.reassembled.assemble = .ok out := by
  have hdata : m.reassembled.assembledData = m.assembledData := by
    unfold assembledData reassembled
    rw [Script.words_inOrder]
  rw [assemble_eq_ok, hdata]
  have hscripts : m.reassembled.scripts = Script.inOrder 0 m.scripts := rfl
  rw [hscripts, functionTables_inOrder, headerWords_inOrder]
  exact assemble_eq_ok.mp h

/-! ## Reading the function tables -/

end ScriptModule

/-- The function is as it is read from a table of a module with these pools. -/
structure Function.IsRead (pools : Pools) (f : Function) : Prop where
  name : f.name = pools.names.nameOf f.nameHash
  body : f.body = Body.decode pools f.codeStart

theorem Function.IsRead.eq {pools : Pools} {f : Function} (h : f.IsRead pools) :
    f = ⟨f.nameHash, pools.names.nameOf f.nameHash, f.codeStart, f.flags,
      Body.decode pools f.codeStart⟩ := by
  rw [← h.name, ← h.body]

/-- Nothing in the function stands before its start. -/
structure Function.Placed (f : Function) : Prop where
  instructions : ∀ i ∈ f.body.instructions, 2 * f.codeStart.toNat ≤ i.offset
  badMove : ∀ width offset, f.body.status = .badMove width offset → 2 * f.codeStart.toNat ≤ offset

theorem Function.IsRead.placed {pools : Pools} {f : Function} (h : f.IsRead pools) : f.Placed := by
  obtain ⟨hinstructions, hbad⟩ := Body.start_le_offset pools f.codeStart
  rw [← h.body] at hinstructions hbad
  exact ⟨hinstructions, hbad⟩

/-- A function that is written out is read again where its words stand. -/
theorem Function.IsRead.relocated {pools : Pools} {f : Function} (h : f.IsRead pools)
    {code behind : List UInt16} {start : Nat} (hstart : start < 0x100000000)
    (hcode : code.drop start = f.words ++ behind) :
    (f.relocated start).IsRead { pools with code } := by
  -- the start fits into the table
  have hnat : (UInt32.ofNat start).toNat = start := UInt32.toNat_ofNat_of_lt' hstart
  refine ⟨h.name, ?_⟩
  rw [← hnat, words_eq, h.body] at hcode
  have hdecode := Body.decode_of_words hcode
  rw [hnat, ← h.body] at hdecode
  exact hdecode.symm

namespace ScriptModule

theorem isRead_of_mem {pools : Pools} {table : Bytes} {f : Function}
    (hf : f ∈ readFunctions pools table) : f.IsRead pools := by
  obtain ⟨entry, -, rfl⟩ := List.mem_map.mp hf
  exact ⟨rfl, rfl⟩

/-- Functions that are as they are read are read again from the table that they are assembled to. -/
theorem readFunctions_functionTable {pools : Pools} {fs : List Function}
    (hfs : ∀ f ∈ fs, f.IsRead pools) {start : Nat} {table : Bytes}
    (htable : functionTable start fs = .ok table) {code behind : List UInt16}
    (hcode : code.drop start = fs.flatMap Function.words ++ behind) :
    readFunctions { pools with code } table = Function.inOrder start fs := by
  induction fs generalizing start table with
  | nil =>
      cases htable
      rfl
  | cons f rest ih =>
      unfold functionTable at htable
      split at htable
      · next hstart =>
          obtain ⟨others, hothers, htable⟩ := Outcome.bind_eq_ok.mp htable
          obtain rfl := Outcome.pure_eq_ok.mp htable
          -- the first function is followed by all others, which are the code from there on
          rw [List.flatMap_cons, List.append_assoc] at hcode
          have hfirst := (hfs f (by simp)).relocated hstart hcode
          have hdrop : code.drop (start + f.words.length)
              = rest.flatMap Function.words ++ behind := by
            rw [← List.drop_drop, hcode, List.drop_left]
          have hrest := ih (fun g hg => hfs g (by simp [hg])) hothers hdrop
          unfold readFunctions at hrest ⊢
          rw [Bytes.words32_ofWords32_append]
          simp only [List.cons_append, List.nil_append, triples, List.map_cons]
          rw [hrest, Function.inOrder, hfirst.eq]
          rfl
      · cases htable

/-- The table of a script gets another payload, unless it is a branch, which lists no functions. -/
theorem readScript_withPayload {pools : Pools} {entry : UInt32 × UInt32} {node : Node} {start : Nat}
    {table : Bytes}
    (htable : functionTable start (readScript pools entry node).functions = .ok table)
    {code behind : List UInt16}
    (hcode : code.drop start = (readScript pools entry node).words ++ behind) :
    readScript { pools with code } entry (node.withPayload table)
      = (readScript pools entry node).relocated start := by
  have hread : ∀ f ∈ (readScript pools entry node).functions, f.IsRead pools :=
    fun f hf => isRead_of_mem hf
  cases node with
  | leaf h payload =>
      have hfunctions := readFunctions_functionTable hread htable hcode
      unfold readScript Script.relocated
      show Script.mk _ _ _ (readFunctions { pools with code } table) = _
      rw [hfunctions]
      rfl
  | branch h cs => rfl

theorem readScripts_functionTables {pools : Pools} {entries : List (UInt32 × UInt32)}
    {nodes : List Node} {start : Nat} {tables : List Bytes}
    (htables : functionTables start ((entries.zip nodes).map fun e => readScript pools e.1 e.2)
      = .ok tables) {code behind : List UInt16}
    (hcode : code.drop start
      = ((entries.zip nodes).map fun e => readScript pools e.1 e.2).flatMap Script.words ++ behind) :
    ((entries.zip (Node.withPayloads tables nodes)).map fun e =>
        readScript { pools with code } e.1 e.2)
      = Script.inOrder start ((entries.zip nodes).map fun e => readScript pools e.1 e.2) := by
  induction entries generalizing nodes start tables with
  | nil => rfl
  | cons entry entries ih =>
      cases nodes with
      | nil => cases tables <;> rfl
      | cons node nodes =>
          rw [List.zip_cons_cons, List.map_cons] at htables hcode ⊢
          unfold functionTables at htables
          obtain ⟨table, htable, htables⟩ := Outcome.bind_eq_ok.mp htables
          obtain ⟨others, hothers, htables⟩ := Outcome.bind_eq_ok.mp htables
          obtain rfl := Outcome.pure_eq_ok.mp htables
          rw [List.flatMap_cons, List.append_assoc] at hcode
          have hfirst := readScript_withPayload htable hcode
          have hrest := ih hothers (by
            rw [Function.length, ← Script.words, ← List.drop_drop, hcode, List.drop_left])
          rw [Node.withPayloads, List.zip_cons_cons, List.map_cons, hfirst, hrest]
          rfl

theorem pairs_headerWords (scripts : List Script) :
    pairs (headerWords scripts) = scripts.map fun s => (s.nameHash, s.stringBufferSize) := by
  induction scripts with
  | nil => rfl
  | cons s rest ih =>
      show (s.nameHash, s.stringBufferSize) :: pairs (headerWords rest) = _
      rw [ih, List.map_cons]

/-! ## Decompiling an assembled module -/

end ScriptModule

/-- The node with the payloads of its module replaced by the assembled ones: the header chunk and
the data chunk, and as many function tables as there are scripts. -/
def Node.withAssembly (out : Assembly) (node : Node) : Node :=
  ((node.refill ChunkType.scriptHeader [out.header]).refill ChunkType.scriptData [out.data]).refill
    ChunkType.scriptFunctionTable out.functionTables

namespace ScriptModule

section WithAssembly

variable (out : Assembly) (node : Node)

theorem payload?_withAssembly_header {header : Bytes}
    (hheader : payload? node ChunkType.scriptHeader = some header) :
    payload? (node.withAssembly out) ChunkType.scriptHeader = some out.header := by
  unfold Node.withAssembly
  rw [payload?_refill_of_ne (by decide), payload?_refill_of_ne (by decide)]
  exact payload?_refill hheader _

theorem payload?_withAssembly_data {data : Bytes}
    (hdata : payload? node ChunkType.scriptData = some data) :
    payload? (node.withAssembly out) ChunkType.scriptData = some out.data := by
  unfold Node.withAssembly
  have hne : ChunkType.scriptData ≠ ChunkType.scriptHeader := by decide
  rw [← payload?_refill_of_ne hne [out.header] node] at hdata
  rw [payload?_refill_of_ne (by decide)]
  exact payload?_refill hdata _

theorem payload?_withAssembly_of_ne {typeId : UInt16} (hheader : typeId ≠ ChunkType.scriptHeader)
    (hdata : typeId ≠ ChunkType.scriptData) (htable : typeId ≠ ChunkType.scriptFunctionTable) :
    payload? (node.withAssembly out) typeId = payload? node typeId := by
  unfold Node.withAssembly
  rw [payload?_refill_of_ne htable, payload?_refill_of_ne hdata, payload?_refill_of_ne hheader]

theorem functionTables_withAssembly :
    (node.withAssembly out).childrenOfType ChunkType.scriptFunctionTable
      = Node.withPayloads out.functionTables
          (node.childrenOfType ChunkType.scriptFunctionTable) := by
  unfold Node.withAssembly
  rw [Node.childrenOfType_refill, Node.childrenOfType_refill_of_ne (by decide),
    Node.childrenOfType_refill_of_ne (by decide)]

end WithAssembly

/-- **An assembled module is decompiled again to the same module with its functions one after the
other, and assembling that one gives the same payloads again.** Nothing of a function stands before
its start, so that offsets that move along with the start keep their distance from it. -/
theorem decompile_withAssembly {names : NameTable} {node : Node} {m : ScriptModule} {out : Assembly}
    (hm : decompile names node = .ok m) (hout : m.assemble = .ok out) :
    decompile names (node.withAssembly out) = .ok m.reassembled
      ∧ m.reassembled.assemble = .ok out ∧ m.reassembled.strings = m.strings
      ∧ ∀ s ∈ m.scripts, ∀ f ∈ s.functions, f.Placed := by
  obtain ⟨htables, hcode, hpool, hheaderOut, hdataOut⟩ := assemble_eq_ok.mp hout
  obtain ⟨header, data, hheader, hdata, hparse, hlen, hscripts, hhashes, hbundle⟩ :=
    decompile_eq_ok.mp hm
  refine ⟨?_, assemble_reassembled hout, rfl, ?_⟩
  · -- the assembled header lists the scripts that were read, the assembled data has their code
    have hentries : pairs (Bytes.words32 out.header) = pairs (Bytes.words32 header) := by
      rw [hheaderOut, Bytes.words32_ofWords32, pairs_headerWords, hscripts, readScripts,
        List.map_map]
      exact List.map_fst_zip hlen
    have hcut := ScriptData.cut_of_parse hparse
    have hdataAgain : ScriptData.parse out.data = .ok m.assembledData := by
      rw [hdataOut]
      exact ScriptData.parse_write ⟨hcut.stringTable, hcut.padding⟩ hcode hpool
    have hscriptsAgain : Script.inOrder 0 m.scripts
        = readScripts (m.assembledData.pools names) out.header
            ((node.withAssembly out).childrenOfType ChunkType.scriptFunctionTable) := by
      -- nothing stands before the first function, and nothing behind the last one
      rw [hscripts] at htables
      have hcodeFront : m.assembledData.code.drop 0
          = (readScripts (m.toScriptData.pools names) header
              (node.childrenOfType ChunkType.scriptFunctionTable)).flatMap Script.words ++ [] := by
        rw [← hscripts, List.append_nil]
        rfl
      rw [functionTables_withAssembly, readScripts, hentries, hscripts]
      exact (readScripts_functionTables htables hcodeFront).symm
    refine decompile_eq_ok.mpr ⟨out.header, out.data, payload?_withAssembly_header out node hheader,
      payload?_withAssembly_data out node hdata, hdataAgain, ?_, hscriptsAgain, ?_, ?_⟩
    · rw [hentries, functionTables_withAssembly, Node.length_withPayloads]
      exact hlen
    · rw [payload?_withAssembly_of_ne out node (by decide) (by decide) (by decide)]
      exact hhashes
    · rw [payload?_withAssembly_of_ne out node (by decide) (by decide) (by decide)]
      exact hbundle
  · intro s hs f hf
    rw [hscripts] at hs
    obtain ⟨e, -, rfl⟩ := List.mem_map.mp hs
    exact (isRead_of_mem hf).placed

/-- A module with two functions that share their end, which the end of the code cuts off inside an
instruction, the first one behind a bad move, and with a third function that starts behind all
code. -/
def sharedNode : Node :=
  .branch ⟨0x5000, 0x8000, 0, 36⟩ [
    .leaf ⟨ChunkType.scriptHeader, 0, 0, 8⟩ (Bytes.ofWords32 [7, 0]),
    .leaf ⟨ChunkType.scriptData, 0, 8, 31⟩ (Bytes.ofWords32 [5, 11, 4] ++ Bytes.ofWords16 [9, 0]
      ++ Bytes.ofWords32 [0x3F800000] ++ Bytes.ofWords16 [0x0000, 0x4004, 0x4003, 0x0000, 0x1400]
      ++ [0]),
    .leaf ⟨ChunkType.scriptFunctionTable, 0, 39, 36⟩
      (Bytes.ofWords32 [1, 0, 0, 2, 3, 0, 3, 9, 0])]

/-- The functions of `sharedNode` one after the other, each with an `END`. -/
def sharedAssembly : Assembly where
  header := Bytes.ofWords32 [7, 0]
  functionTables := [Bytes.ofWords32 [1, 0, 0, 2, 5, 0, 3, 7, 0]]
  data := Bytes.ofWords32 [5, 16, 4] ++ Bytes.ofWords16 [9, 0] ++ Bytes.ofWords32 [0x3F800000]
    ++ Bytes.ofWords16 [0x0000, 0x4004, 0x4003, 0x0000, 0x3000, 0x0000, 0x3000, 0x3000]

theorem decompile_withAssembly_shared :
    ∃ m, decompile .empty sharedNode = .ok m ∧ m.assemble = .ok sharedAssembly
      ∧ decompile .empty (sharedNode.withAssembly sharedAssembly) = .ok m.reassembled
      ∧ m.reassembled.assemble = .ok sharedAssembly := by
  have hboth : (decompile .empty sharedNode >>= assemble) = .ok sharedAssembly := by decide +kernel
  obtain ⟨m, hm, hout⟩ := Outcome.bind_eq_ok.mp hboth
  obtain ⟨hagain, houtAgain, -⟩ := decompile_withAssembly hm hout
  exact ⟨m, hm, hout, hagain, houtAgain⟩

end ScriptModule

end ChunkArchive
