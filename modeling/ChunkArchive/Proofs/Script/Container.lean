import ChunkArchive.Proofs.Bytes
import ChunkArchive.Proofs.Reader
import ChunkArchive.Script.Assembly

/-!
# The chunks of a module

A module is read from a few of the chunks inside a node. A data chunk that is written is read again
(`ScriptData.parse_write`), and chunks that get other payloads one after the other
(`Node.refill`) leave those of all other types alone.
-/

set_option autoImplicit false

namespace ChunkArchive

/-! ## The data chunk -/

namespace ScriptData

/-- The words that a data chunk begins with; sizes are in bytes. -/
structure Header where
  hashType : UInt32
  codeSize : UInt32
  poolSize : UInt32
  stringTableSize : UInt16
  reserved : UInt16

namespace Header

def bytes (h : Header) : Bytes :=
  Bytes.ofWords32 [h.hashType, h.codeSize, h.poolSize]
    ++ Bytes.ofWords16 [h.stringTableSize, h.reserved]

@[simp] theorem length_bytes (h : Header) : h.bytes.length = headerLength := by
  simp [bytes, headerLength]

/-- The data that the header makes of what stands behind it. -/
def data (h : Header) (behind : Bytes) : ScriptData where
  hashType := h.hashType
  pool := (Bytes.words32 (behind.take h.poolSize.toNat)).toArray
  code := Bytes.words16 ((behind.drop h.poolSize.toNat).take h.codeSize.toNat)
  stringTable :=
    ((behind.drop h.poolSize.toNat).drop h.codeSize.toNat).take h.stringTableSize.toNat
  padding := ((behind.drop h.poolSize.toNat).drop h.codeSize.toNat).drop h.stringTableSize.toNat
  stringTableSize := h.stringTableSize
  reserved := h.reserved

/-- A size of the pool that is no whole number of words is rounded down. -/
theorem size_pool_data {h : Header} {behind : Bytes} (hle : h.poolSize.toNat ≤ behind.length) :
    (h.data behind).pool.size = h.poolSize.toNat / 4 := by
  simp only [data, List.size_toArray, Bytes.words32_length, List.length_take, Nat.min_eq_left hle]

end Header

/-- A data chunk is a header with at least as many bytes behind it as the pool has. -/
theorem parse_eq_ok {bytes : Bytes} {d : ScriptData} :
    parse bytes = .ok d ↔
      ∃ (h : Header) (behind : Bytes), bytes = h.bytes ++ behind
        ∧ h.poolSize.toNat ≤ behind.length ∧ d = h.data behind := by
  unfold parse
  constructor
  · intro h
    obtain ⟨⟨⟨hashType, codeSize, poolSize, stringTableSize, reserved⟩, rest⟩, hheader, h⟩ :=
      Outcome.bind_eq_ok.mp h
    obtain ⟨hle, h⟩ := Outcome.unless_eq_ok.mp h
    obtain rfl := Outcome.pure_eq_ok.mp h
    -- the header is what was taken word by word in front of the rest
    obtain ⟨_, _, h₁, hheader⟩ := Reader.bind_eq_ok.mp hheader
    obtain ⟨_, _, h₂, hheader⟩ := Reader.bind_eq_ok.mp hheader
    obtain ⟨_, _, h₃, hheader⟩ := Reader.bind_eq_ok.mp hheader
    obtain ⟨_, _, h₄, hheader⟩ := Reader.bind_eq_ok.mp hheader
    obtain ⟨_, _, h₅, hheader⟩ := Reader.bind_eq_ok.mp hheader
    obtain ⟨hfields, rfl⟩ := Reader.pure_eq_ok.mp hheader
    cases hfields
    refine ⟨⟨hashType, codeSize, poolSize, stringTableSize, reserved⟩, _, ?_,
      Nat.le_of_not_lt hle, rfl⟩
    rw [Reader.word32_eq_ok h₁, Reader.word32_eq_ok h₂, Reader.word32_eq_ok h₃,
      Reader.word16_eq_ok h₄, Reader.word16_eq_ok h₅]
    simp [Header.bytes]
  · rintro ⟨h, behind, rfl, hle, rfl⟩
    have hbytes : h.bytes ++ behind = Bytes.ofWord32 h.hashType ++ (Bytes.ofWord32 h.codeSize
        ++ (Bytes.ofWord32 h.poolSize ++ (Bytes.ofWord16 h.stringTableSize
        ++ (Bytes.ofWord16 h.reserved ++ behind)))) := by simp [Header.bytes]
    rw [hbytes]
    simp only [(Reader.takes_word32 _).run_bind, (Reader.takes_word16 _).run_bind]
    exact Outcome.bind_eq_ok.mpr ⟨_, rfl, Outcome.unless_eq_ok.mpr ⟨Nat.not_lt_of_le hle, rfl⟩⟩

/-- What the functions of a module with this data share. -/
def pools (d : ScriptData) (names : NameTable) : Pools :=
  { pool := d.pool, code := d.code, strings := d.stringTable, names }

/-- The string table ends where the header says, or where the data does. -/
structure Cut (d : ScriptData) : Prop where
  stringTable : (d.stringTable ++ d.padding).take d.stringTableSize.toNat = d.stringTable
  padding : (d.stringTable ++ d.padding).drop d.stringTableSize.toNat = d.padding

theorem cut_of_parse {data : Bytes} {d : ScriptData} (h : parse data = .ok d) : d.Cut := by
  obtain ⟨header, behind, -, -, rfl⟩ := parse_eq_ok.mp h
  refine ⟨?_, ?_⟩
  · rw [Header.data, List.take_append_drop]
  · rw [Header.data, List.take_append_drop]

/-! ### Writing a chunk -/

/-- The bytes of a data chunk with the given pool, code, string table and padding. -/
def write (d : ScriptData) : Bytes :=
  Bytes.ofWords32 [d.hashType, UInt32.ofNat (2 * d.code.length), UInt32.ofNat (4 * d.pool.size)]
    ++ Bytes.ofWords16 [d.stringTableSize, d.reserved]
    ++ Bytes.ofWords32 d.pool.toList ++ Bytes.ofWords16 d.code ++ d.stringTable ++ d.padding

/-- What is written is read again. -/
theorem parse_write {d : ScriptData} (hcut : d.Cut) (hcode : 2 * d.code.length < 0x100000000)
    (hpool : 4 * d.pool.size < 0x100000000) : parse d.write = .ok d := by
  have hcodeSize : (UInt32.ofNat (2 * d.code.length)).toNat = (Bytes.ofWords16 d.code).length := by
    rw [Bytes.ofWords16_length, UInt32.toNat_ofNat_of_lt' hcode]
  have hpoolSize : (UInt32.ofNat (4 * d.pool.size)).toNat
      = (Bytes.ofWords32 d.pool.toList).length := by
    rw [Bytes.ofWords32_length, UInt32.toNat_ofNat_of_lt' hpool, Array.length_toList]
  refine parse_eq_ok.mpr ⟨⟨d.hashType, UInt32.ofNat (2 * d.code.length),
    UInt32.ofNat (4 * d.pool.size), d.stringTableSize, d.reserved⟩,
    Bytes.ofWords32 d.pool.toList ++ (Bytes.ofWords16 d.code ++ (d.stringTable ++ d.padding)),
    ?_, ?_, ?_⟩
  · simp [write, Header.bytes]
  · simp only [hpoolSize, List.length_append]
    omega
  · simp only [Header.data, hpoolSize, hcodeSize, List.take_left, List.drop_left,
      hcut.stringTable, hcut.padding, Bytes.words32_ofWords32, Bytes.words16_ofWords16,
      Array.toArray_toList]

/-- A pool of the same size that is written over the one in a chunk is read in its place. -/
theorem parse_overwrite {data : Bytes} {d : ScriptData} (h : parse data = .ok d)
    {pool : Array UInt32} (hsize : pool.size = d.pool.size) :
    headerLength + 4 * pool.size ≤ data.length
      ∧ parse (Bytes.overwrite data headerLength (Bytes.ofWords32 pool.toList))
          = .ok { d with pool } := by
  obtain ⟨header, behind, rfl, hle, rfl⟩ := parse_eq_ok.mp h
  rw [Header.size_pool_data hle] at hsize
  have hpatch : (Bytes.ofWords32 pool.toList).length = 4 * pool.size := by simp
  have hfits : 4 * pool.size ≤ header.poolSize.toNat := by omega
  refine ⟨by rw [List.length_append, Header.length_bytes]; omega, ?_⟩
  refine parse_eq_ok.mpr ⟨header,
    Bytes.ofWords32 pool.toList ++ behind.drop (4 * pool.size), ?_, ?_, ?_⟩
  · rw [← header.length_bytes, Bytes.overwrite_append, hpatch]
  · rw [List.length_append, List.length_drop, hpatch]
    omega
  · -- fewer than four bytes of the old pool are left, and they are no word
    have hrest : Bytes.words32 ((behind.drop (4 * pool.size)).take
        (header.poolSize.toNat - 4 * pool.size)) = [] := by
      apply Bytes.words32_of_length_lt
      rw [List.length_take]
      omega
    have hdrop : (Bytes.ofWords32 pool.toList ++ behind.drop (4 * pool.size)).drop
        header.poolSize.toNat = behind.drop header.poolSize.toNat := by
      rw [List.drop_append, List.drop_of_length_le (by omega), List.nil_append, hpatch,
        List.drop_drop, Nat.add_sub_cancel' hfits]
    have htake : Bytes.words32 ((Bytes.ofWords32 pool.toList
        ++ behind.drop (4 * pool.size)).take header.poolSize.toNat) = pool.toList := by
      rw [List.take_append, List.take_of_length_le (by omega), hpatch,
        Bytes.words32_ofWords32_append, hrest, List.append_nil]
    simp only [Header.data, hdrop, htake, Array.toArray_toList]

/-- A pool that is written over the one in a chunk leaves the chunk as it is exactly when it is the
same pool. -/
theorem overwrite_eq_self_iff {data : Bytes} {d : ScriptData} (h : parse data = .ok d)
    {pool : Array UInt32} (hsize : pool.size = d.pool.size) :
    Bytes.overwrite data headerLength (Bytes.ofWords32 pool.toList) = data ↔ pool = d.pool := by
  obtain ⟨header, behind, rfl, hle, rfl⟩ := parse_eq_ok.mp h
  have hwhole := Header.size_pool_data hle
  -- the words of the old pool are the bytes that stand there
  have hold : Bytes.ofWords32 (header.data behind).pool.toList
      = behind.take (4 * (header.poolSize.toNat / 4)) := by
    rw [Header.data, List.toList_toArray, Bytes.ofWords32_words32, List.length_take,
      Nat.min_eq_left hle, List.take_take, Nat.min_eq_left (by omega)]
  have hlen : (Bytes.ofWords32 pool.toList).length = 4 * (header.poolSize.toNat / 4) := by
    rw [Bytes.ofWords32_length, Array.length_toList, hsize, hwhole]
  rw [← header.length_bytes, Bytes.overwrite_append, hlen]
  constructor
  · intro hsame
    have hbehind : Bytes.ofWords32 pool.toList ++ behind.drop (4 * (header.poolSize.toNat / 4))
        = behind := List.append_cancel_left hsame
    have hwords : Bytes.ofWords32 pool.toList
        = Bytes.ofWords32 (header.data behind).pool.toList := by
      rw [hold, ← hlen]
      conv_rhs => rw [← hbehind, List.take_left]
    have hlist := congrArg Bytes.words32 hwords
    rw [Bytes.words32_ofWords32, Bytes.words32_ofWords32] at hlist
    exact Array.toList_inj.mp hlist
  · rintro rfl
    rw [hold, List.take_append_drop]

end ScriptData

/-! ## Replacing payloads -/

namespace Node

/-- The chunk with another payload; a branch has none. -/
def withPayload (payload : Bytes) : Node → Node
  | .leaf h _ => .leaf { h with size := UInt32.ofNat payload.length } payload
  | .branch h cs => .branch h cs

theorem typeId_withPayload (payload : Bytes) (node : Node) :
    (node.withPayload payload).header.typeId = node.header.typeId := by
  cases node <;> rfl

/-- The chunks with other payloads, from the first on as far as there are payloads. -/
def withPayloads : List Bytes → List Node → List Node
  | payload :: payloads, node :: nodes =>
    node.withPayload payload :: withPayloads payloads nodes
  | _, nodes => nodes

@[simp] theorem length_withPayloads (payloads : List Bytes) (nodes : List Node) :
    (withPayloads payloads nodes).length = nodes.length := by
  induction nodes generalizing payloads with
  | nil => cases payloads <;> rfl
  | cons node nodes ih =>
      cases payloads with
      | nil => rfl
      | cons payload payloads => rw [withPayloads, List.length_cons, List.length_cons, ih]

/-- The chunks with other payloads for those of a type, from the first of them on. -/
def refillAll (typeId : UInt16) : List Bytes → List Node → List Node
  | payload :: payloads, node :: nodes =>
    if node.header.typeId = typeId then
      node.withPayload payload :: refillAll typeId payloads nodes
    else node :: refillAll typeId (payload :: payloads) nodes
  | _, nodes => nodes

/-- The node with other payloads for the chunks of a type directly inside it, from the first of
them on. -/
def refill (typeId : UInt16) (payloads : List Bytes) : Node → Node
  | .leaf h payload => .leaf h payload
  | .branch h cs => .branch h (refillAll typeId payloads cs)

theorem children_refill (typeId : UInt16) (payloads : List Bytes) (node : Node) :
    (node.refill typeId payloads).children = refillAll typeId payloads node.children := by
  cases node with
  | leaf h payload => cases payloads <;> rfl
  | branch h cs => rfl

theorem filter_refillAll (typeId : UInt16) (payloads : List Bytes) (nodes : List Node) :
    (refillAll typeId payloads nodes).filter (fun c => c.header.typeId = typeId)
      = withPayloads payloads (nodes.filter fun c => c.header.typeId = typeId) := by
  induction nodes generalizing payloads with
  | nil => cases payloads <;> rfl
  | cons node nodes ih =>
      cases payloads with
      | nil => rfl
      | cons payload payloads =>
          -- a payload is used up exactly where a chunk of the type is met
          by_cases htype : node.header.typeId = typeId
          · simp [refillAll, htype, typeId_withPayload, withPayloads, ih]
          · simp [refillAll, htype, ih]

theorem filter_refillAll_of_ne {typeId other : UInt16} (hne : other ≠ typeId)
    (payloads : List Bytes) (nodes : List Node) :
    (refillAll typeId payloads nodes).filter (fun c => c.header.typeId = other)
      = nodes.filter fun c => c.header.typeId = other := by
  induction nodes generalizing payloads with
  | nil => cases payloads <;> rfl
  | cons node nodes ih =>
      cases payloads with
      | nil => rfl
      | cons payload payloads =>
          by_cases htype : node.header.typeId = typeId
          · simp [refillAll, htype, typeId_withPayload, hne.symm, ih]
          · simp [refillAll, htype, List.filter_cons, ih]

theorem childrenOfType_refill (typeId : UInt16) (payloads : List Bytes) (node : Node) :
    (node.refill typeId payloads).childrenOfType typeId
      = withPayloads payloads (node.childrenOfType typeId) := by
  rw [childrenOfType, children_refill, filter_refillAll, childrenOfType]

theorem childrenOfType_refill_of_ne {typeId other : UInt16} (hne : other ≠ typeId)
    (payloads : List Bytes) (node : Node) :
    (node.refill typeId payloads).childrenOfType other = node.childrenOfType other := by
  rw [childrenOfType, children_refill, filter_refillAll_of_ne hne, childrenOfType]

end Node

/-! ## Reading a module -/

namespace ScriptModule

theorem payload?_eq (node : Node) (typeId : UInt16) :
    payload? node typeId = (node.childrenOfType typeId).head?.bind Node.payload? := by
  rw [payload?, Node.child?, Node.childrenOfType, List.head?_filter]

theorem payload?_refill_of_ne {typeId other : UInt16} (hne : other ≠ typeId)
    (payloads : List Bytes) (node : Node) :
    payload? (node.refill typeId payloads) other = payload? node other := by
  rw [payload?_eq, Node.childrenOfType_refill_of_ne hne, payload?_eq]

/-- A chunk that has a payload gets the new one. -/
theorem payload?_refill {typeId : UInt16} {node : Node} {old : Bytes}
    (hold : payload? node typeId = some old) (payload : Bytes) :
    payload? (node.refill typeId [payload]) typeId = some payload := by
  rw [payload?_eq] at hold
  rw [payload?_eq, Node.childrenOfType_refill]
  cases hnodes : node.childrenOfType typeId with
  | nil =>
      rw [hnodes] at hold
      cases hold
  | cons first rest =>
      rw [hnodes] at hold
      cases first with
      | leaf h x => rfl
      | branch h cs => cases hold

/-- A script with the functions that its table lists. -/
def readScript (pools : Pools) (entry : UInt32 × UInt32) (table : Node) : Script where
  nameHash := entry.1
  name := pools.names.nameOf entry.1
  stringBufferSize := entry.2
  functions := readFunctions pools (table.payload?.getD [])

/-- The scripts of the header, each with its table. -/
def readScripts (pools : Pools) (header : Bytes) (tables : List Node) : List Script :=
  ((pairs (Bytes.words32 header)).zip tables).map fun e => readScript pools e.1 e.2

def readStringHashes (payload : Option Bytes) : List StringHash :=
  (triples (Bytes.words32 (payload.getD []))).map fun e => ⟨e.1, e.2.1, e.2.2⟩

/-- What it takes to decompile a module, and what comes out. -/
theorem decompile_eq_ok {names : NameTable} {node : Node} {m : ScriptModule} :
    decompile names node = .ok m ↔
      ∃ header data, payload? node ChunkType.scriptHeader = some header
        ∧ payload? node ChunkType.scriptData = some data
        ∧ ScriptData.parse data = .ok m.toScriptData
        ∧ (pairs (Bytes.words32 header)).length
            ≤ (node.childrenOfType ChunkType.scriptFunctionTable).length
        ∧ m.scripts = readScripts (m.toScriptData.pools names) header
            (node.childrenOfType ChunkType.scriptFunctionTable)
        ∧ m.stringHashes = readStringHashes (payload? node ChunkType.scriptStringHashes)
        ∧ m.hashTable = Bytes.words32 ((payload? node ChunkType.scriptHashBundle).getD []) := by
  have hrequire : ∀ {part payload bytes},
      require part payload = .ok bytes ↔ payload = some bytes := by
    intro part payload bytes
    cases payload <;> simp [require]
  unfold decompile
  constructor
  · intro h
    obtain ⟨header, hheader, h⟩ := Outcome.bind_eq_ok.mp h
    obtain ⟨data, hdata, h⟩ := Outcome.bind_eq_ok.mp h
    obtain ⟨hlen, h⟩ := Outcome.unless_eq_ok.mp h
    obtain ⟨d, hd, h⟩ := Outcome.bind_eq_ok.mp h
    obtain rfl := Outcome.pure_eq_ok.mp h
    exact ⟨header, data, hrequire.mp hheader, hrequire.mp hdata, hd, Nat.le_of_not_lt hlen,
      rfl, rfl, rfl⟩
  · rintro ⟨header, data, hheader, hdata, hd, hlen, hscripts, hhashes, hbundle⟩
    refine Outcome.bind_eq_ok.mpr ⟨header, hrequire.mpr hheader, ?_⟩
    refine Outcome.bind_eq_ok.mpr ⟨data, hrequire.mpr hdata, ?_⟩
    refine Outcome.unless_eq_ok.mpr ⟨Nat.not_lt_of_le hlen, ?_⟩
    refine Outcome.bind_eq_ok.mpr ⟨m.toScriptData, hd, Outcome.pure_eq_ok.mpr ?_⟩
    obtain ⟨d, scripts, stringHashes, hashTable⟩ := m
    dsimp only at hscripts hhashes hbundle
    rw [hscripts, hhashes, hbundle]
    rfl

/-- A node whose data chunk gets another payload is decompiled with what this payload holds. All
else is read from other chunks. -/
theorem decompile_refill_data {names : NameTable} {node : Node} {m : ScriptModule} {payload : Bytes}
    {d : ScriptData} (hm : decompile names node = .ok m) (hparse : ScriptData.parse payload = .ok d) :
    ∃ header tables, m.scripts = readScripts (m.pools names) header tables
      ∧ decompile names (node.refill ChunkType.scriptData [payload])
        = .ok { d with
            scripts := readScripts (d.pools names) header tables
            stringHashes := m.stringHashes
            hashTable := m.hashTable } := by
  obtain ⟨header, data, hheader, hdata, -, htables, hscripts, hhashes, hbundle⟩ :=
    decompile_eq_ok.mp hm
  have hne : ∀ typeId, typeId ≠ ChunkType.scriptData → ∀ payloads,
      payload? (node.refill ChunkType.scriptData payloads) typeId = payload? node typeId :=
    fun typeId hne payloads => payload?_refill_of_ne hne payloads node
  refine ⟨header, node.childrenOfType ChunkType.scriptFunctionTable, hscripts, ?_⟩
  refine decompile_eq_ok.mpr ⟨header, _, ?_, payload?_refill hdata _, hparse, ?_, ?_, ?_, ?_⟩
  · rw [hne _ (by decide), hheader]
  · rwa [Node.childrenOfType_refill_of_ne (by decide)]
  · rw [Node.childrenOfType_refill_of_ne (by decide)]
  · rw [hne _ (by decide), ← hhashes]
  · rw [hne _ (by decide), ← hbundle]

end ScriptModule

end ChunkArchive
