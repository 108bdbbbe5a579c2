import ChunkArchive.Proofs.Script.Reassembly
import ChunkArchive.Proofs.Script.Lossless

/-!
# Modules that assembling leaves as they are

Assembling puts the functions of a module one after the other. Where they already stand like that,
each from where the listing of the one before ends and the last one up to the end of the code
(`Listing.Tile`), every function is written out where it was read, and the payloads come back byte
for byte (`ScriptModule.assemble_canonical`). What the words mean plays no part in this: functions
that cannot be decompiled are listed up to their `END` all the same.
-/

set_option autoImplicit false

namespace ChunkArchive

/-! ## Listings one after the other -/

namespace Listing

/-- The listing that starts at word number `start` ends in an `END`, and the next word is word
number `stop`. -/
def Spans (code : List UInt16) (start stop : Nat) : Prop :=
  ∃ i, (read code start).instructions.getLast? = some i ∧ i.opcode = .stop
    ∧ i.offset + 2 = 2 * stop

/-- Functions with these starts lie one after the other between two words of the code: each starts
where the listing of the one before ends. -/
inductive Tile (code : List UInt16) : (start : Nat) → List UInt32 → (stop : Nat) → Prop where
  | nil (start : Nat) : Tile code start [] start
  | cons {start : UInt32} {starts : List UInt32} {next stop : Nat}
      (hspans : Spans code start.toNat next) (hrest : Tile code next starts stop) :
      Tile code start.toNat (start :: starts) stop

theorem tile_append {code : List UInt16} {xs ys : List UInt32} {start stop : Nat} :
    Tile code start (xs ++ ys) stop
      ↔ ∃ middle, Tile code start xs middle ∧ Tile code middle ys stop := by
  induction xs generalizing start with
  | nil =>
      constructor
      · exact fun h => ⟨start, .nil start, h⟩
      · rintro ⟨middle, hx, hy⟩
        cases hx
        exact hy
  | cons x xs ih =>
      constructor
      · intro h
        cases h with
        | cons hspans hrest =>
            obtain ⟨middle, hx, hy⟩ := ih.mp hrest
            exact ⟨middle, .cons hspans hx, hy⟩
      · rintro ⟨middle, hx, hy⟩
        cases hx with
        | cons hspans hrest => exact .cons hspans (ih.mpr ⟨middle, hrest, hy⟩)

/-- A listing up to an `END` is written out as the words that it was read from. -/
theorem Spans.words {code : List UInt16} {start stop : Nat} (h : Spans code start stop) :
    start + (read code start).words.length = stop
      ∧ code.drop start = (read code start).words ++ code.drop stop := by
  obtain ⟨i, hlast, hstop, hoffset⟩ := h
  have hlists := lists_read code start
  have hfinished : (read code start).ending = .finished :=
    (proper_read code start).mpr (by rw [hlast, Option.map_some, hstop])
  have hwords : (read code start).words
      = (read code start).instructions.flatMap Instruction.words := by
    rw [Listing.words, hfinished, closing, List.flatMap_nil, List.append_nil]
  -- the END stands behind the words of all instructions before it, and is one word itself
  have hsplit := List.dropLast_append_getLast? i hlast
  obtain ⟨words, hbehind⟩ := hlists.behind hsplit.symm
  obtain ⟨hi, -⟩ := hbehind.first
  have hone : i.words.length = 1 := by
    rw [Instruction.words, hstop]
    rfl
  have hlen : start + (read code start).words.length = stop := by
    rw [hwords, ← hsplit, List.flatMap_append, List.length_append, List.flatMap_singleton, hone]
    omega
  obtain ⟨rest, hcode, -⟩ := hlists.words_append
  refine ⟨hlen, ?_⟩
  rw [← hlen, ← List.drop_drop, hcode, ← hwords, List.drop_left]

end Listing

namespace ScriptModule

/-! ## Entries of tables -/

theorem flatMap_pairs {ws : List UInt32} (h : 2 ∣ ws.length) :
    (pairs ws).flatMap (fun e => [e.1, e.2]) = ws := by
  fun_induction pairs ws with
  | case1 a b rest ih =>
      have hrest : 2 ∣ rest.length := by
        simp only [List.length_cons] at h
        omega
      rw [List.flatMap_cons, ih hrest]
      rfl
  | case2 ws hshort =>
      match ws, hshort with
      | [], _ => rfl
      | [_], _ => simp at h
      | a :: b :: rest, hshort => exact absurd rfl (hshort a b rest)

theorem flatMap_triples {ws : List UInt32} (h : 3 ∣ ws.length) :
    (triples ws).flatMap (fun e => [e.1, e.2.1, e.2.2]) = ws := by
  fun_induction triples ws with
  | case1 a b c rest ih =>
      have hrest : 3 ∣ rest.length := by
        simp only [List.length_cons] at h
        omega
      rw [List.flatMap_cons, ih hrest]
      rfl
  | case2 ws hshort =>
      match ws, hshort with
      | [], _ => rfl
      | [_], _ => simp at h
      | [_, _], _ => simp at h
      | a :: b :: c :: rest, hshort => exact absurd rfl (hshort a b c rest)

theorem length_pairs (ws : List UInt32) : (pairs ws).length = ws.length / 2 := by
  fun_induction pairs ws with
  | case1 a b rest ih =>
      simp only [List.length_cons, ih]
      omega
  | case2 ws hshort =>
      match ws, hshort with
      | [], _ | [_], _ => simp
      | a :: b :: rest, hshort => exact absurd rfl (hshort a b rest)

/-- The header chunk lists the scripts that were read from it. -/
theorem headerWords_readScripts {pools : Pools} {header : Bytes} {tables : List Node}
    (hlen : (pairs (Bytes.words32 header)).length ≤ tables.length)
    (heven : 2 ∣ (Bytes.words32 header).length) :
    headerWords (readScripts pools header tables) = Bytes.words32 header := by
  have hentries := List.map_fst_zip hlen
  rw [headerWords, readScripts, List.flatMap_map, ← flatMap_pairs heven]
  conv_rhs => rw [← hentries, List.flatMap_map]
  rw [flatMap_pairs heven]
  rfl

/-- The words at which the functions of a table start. -/
def starts (table : Bytes) : List UInt32 :=
  (triples (Bytes.words32 table)).map fun entry => entry.2.1

/-! ## Functions where they were read -/

section Tiled

variable {pools : Pools}

/-- Functions that lie one after the other get the table that they were read from. -/
theorem functionTable_entries {entries : List (UInt32 × UInt32 × UInt32)} {start stop : Nat}
    (htile : Listing.Tile pools.code start (entries.map fun e => e.2.1) stop) :
    let fs := entries.map fun e =>
      (⟨e.1, pools.names.nameOf e.1, e.2.1, e.2.2, .decode pools e.2.1⟩ : Function)
    functionTable start fs = .ok (Bytes.ofWords32 (entries.flatMap fun e => [e.1, e.2.1, e.2.2]))
      ∧ start + Function.length fs = stop
      ∧ pools.code.drop start = fs.flatMap Function.words ++ pools.code.drop stop := by
  induction entries generalizing start with
  | nil =>
      cases htile
      exact ⟨rfl, rfl, rfl⟩
  | cons e rest ih =>
      obtain ⟨nameHash, codeStart, flags⟩ := e
      cases htile with
      | cons hspans hrest =>
          obtain ⟨htable, hstop, hcode⟩ := ih hrest
          obtain ⟨hnext, hfirst⟩ := hspans.words
          -- the function is written out as it was read
          have hwords : Function.words ⟨nameHash, pools.names.nameOf nameHash, codeStart, flags,
              .decode pools codeStart⟩ = (Listing.read pools.code codeStart.toNat).words := by
            rw [Function.words_eq]
            exact Body.words_ofListing pools (Listing.proper_read pools.code codeStart.toNat)
          simp only [List.map_cons, List.flatMap_cons]
          refine ⟨?_, ?_, ?_⟩
          · rw [functionTable, if_pos codeStart.toNat_lt, hwords, hnext, htable]
            simp [UInt32.ofNat_toNat]
          · rw [Function.length, List.flatMap_cons, List.length_append, hwords, ← Nat.add_assoc,
              hnext]
            exact hstop
          · rw [hwords, List.append_assoc, ← hcode]
            exact hfirst

theorem functionTable_readFunctions {table : Bytes} (h12 : 12 ∣ table.length) {start stop : Nat}
    (htile : Listing.Tile pools.code start (starts table) stop) :
    functionTable start (readFunctions pools table) = .ok table
      ∧ start + Function.length (readFunctions pools table) = stop
      ∧ pools.code.drop start
          = (readFunctions pools table).flatMap Function.words ++ pools.code.drop stop := by
  have hwhole : 3 ∣ (Bytes.words32 table).length := by
    rw [Bytes.words32_length]
    omega
  have hbytes : Bytes.ofWords32 ((triples (Bytes.words32 table)).flatMap fun e =>
      [e.1, e.2.1, e.2.2]) = table := by
    rw [flatMap_triples hwhole, Bytes.ofWords32_words32_of_dvd (by omega)]
  have h := functionTable_entries htile
  rw [hbytes] at h
  exact h

/-- Tables of functions that lie one after the other come back, each as it was. -/
theorem functionTables_readScripts {entries : List (UInt32 × UInt32)} {nodes : List Node}
    {tables : List Bytes} (hnodes : nodes.map Node.payload? = tables.map some)
    (hlen : entries.length = tables.length) (h12 : ∀ t ∈ tables, 12 ∣ t.length) {start stop : Nat}
    (htile : Listing.Tile pools.code start (tables.flatMap starts) stop) :
    let scripts := (entries.zip nodes).map fun e => readScript pools e.1 e.2
    functionTables start scripts = .ok tables
      ∧ pools.code.drop start = scripts.flatMap Script.words ++ pools.code.drop stop := by
  induction tables generalizing entries nodes start with
  | nil =>
      cases List.length_eq_zero_iff.mp hlen
      cases htile
      exact ⟨rfl, rfl⟩
  | cons table tables ih =>
      cases entries with
      | nil => cases hlen
      | cons entry entries =>
      cases nodes with
      | nil => cases hnodes
      | cons node nodes =>
          rw [List.map_cons, List.map_cons, List.cons.injEq] at hnodes
          obtain ⟨hnode, hnodes⟩ := hnodes
          rw [List.flatMap_cons] at htile
          obtain ⟨middle, hfirst, hrest⟩ := Listing.tile_append.mp htile
          obtain ⟨htable, hmiddle, hcode⟩ :=
            functionTable_readFunctions (h12 table (by simp)) hfirst
          obtain ⟨htables, hbehind⟩ := ih hnodes (Nat.succ.inj hlen)
            (fun t ht => h12 t (by simp [ht])) hrest
          have hfunctions : (readScript pools entry node).functions
              = readFunctions pools table := by
            rw [readScript, hnode, Option.getD_some]
          simp only [List.zip_cons_cons, List.map_cons, List.flatMap_cons]
          refine ⟨?_, ?_⟩
          · rw [functionTables, hfunctions, htable, hmiddle, htables]
            rfl
          · rw [Script.words, hfunctions, List.append_assoc, ← hbehind]
            exact hcode

end Tiled

/-! ## Canonical modules -/

/-- The module inside the node has these payloads, and there is nothing in them that assembling
would leave out or put elsewhere: whole entries, a table for each script, a pool and a code of whole
words that are there as a whole, and functions that tile the code. -/
structure Canonical (node : Node) (payloads : Assembly) : Prop where
  header : payload? node ChunkType.scriptHeader = some payloads.header
  data : payload? node ChunkType.scriptData = some payloads.data
  tables : (node.childrenOfType ChunkType.scriptFunctionTable).map Node.payload?
    = payloads.functionTables.map some
  scripts : payloads.header.length = 8 * payloads.functionTables.length
  entries : ∀ table ∈ payloads.functionTables, 12 ∣ table.length
  parts : ∃ (h : ScriptData.Header) (behind : Bytes), payloads.data = h.bytes ++ behind
    ∧ 4 ∣ h.poolSize.toNat ∧ 2 ∣ h.codeSize.toNat
    ∧ h.poolSize.toNat + h.codeSize.toNat ≤ behind.length
    ∧ Listing.Tile (h.data behind).code 0 (payloads.functionTables.flatMap starts)
        (h.data behind).code.length

end ScriptModule

namespace ScriptData.Header

variable {h : Header} {behind : Bytes}

/-- A pool and a code that are there as a whole are written as they were read, with what stands
behind them. -/
theorem write_data (hpool : 4 ∣ h.poolSize.toNat) (hcode : 2 ∣ h.codeSize.toNat)
    (hle : h.poolSize.toNat + h.codeSize.toNat ≤ behind.length) :
    4 * (h.data behind).pool.size = h.poolSize.toNat
      ∧ 2 * (h.data behind).code.length = h.codeSize.toNat
      ∧ (h.data behind).write = h.bytes ++ behind := by
  have hpoolSize : 4 * (h.data behind).pool.size = h.poolSize.toNat := by
    rw [size_pool_data (by omega)]
    omega
  have hcodeSize : 2 * (h.data behind).code.length = h.codeSize.toNat := by
    rw [data, Bytes.words16_length, List.length_take, List.length_drop]
    omega
  refine ⟨hpoolSize, hcodeSize, ?_⟩
  have hpoolBytes : Bytes.ofWords32 (h.data behind).pool.toList
      = behind.take h.poolSize.toNat := by
    rw [data, List.toList_toArray, Bytes.ofWords32_words32_of_dvd]
    rwa [List.length_take, Nat.min_eq_left (by omega)]
  have hcodeBytes : Bytes.ofWords16 (h.data behind).code
      = (behind.drop h.poolSize.toNat).take h.codeSize.toNat := by
    rw [data, Bytes.ofWords16_words16_of_dvd]
    rwa [List.length_take, List.length_drop, Nat.min_eq_left (by omega)]
  rw [write, hpoolSize, hcodeSize, UInt32.ofNat_toNat, UInt32.ofNat_toNat, hpoolBytes, hcodeBytes]
  simp only [data, bytes, List.append_assoc, List.take_append_drop]

end ScriptData.Header

namespace ScriptModule

/-- **A canonical module is assembled to the payloads that it was decompiled from**, whatever the
string table, the size that the header gives it and the padding are. -/
theorem assemble_canonical {node : Node} {payloads : Assembly} (h : Canonical node payloads)
    (names : NameTable) :
    ∃ m, decompile names node = .ok m ∧ m.assemble = .ok payloads := by
  obtain ⟨head, behind, hdata, hpool, hcode, hle, htile⟩ := h.parts
  obtain ⟨hpoolSize, hcodeSize, hwrite⟩ := ScriptData.Header.write_data hpool hcode hle
  have hheader : 2 ∣ (Bytes.words32 payloads.header).length := by
    rw [Bytes.words32_length, h.scripts]
    omega
  have hentries : (pairs (Bytes.words32 payloads.header)).length
      = payloads.functionTables.length := by
    rw [length_pairs, Bytes.words32_length, h.scripts]
    omega
  have hnodes : (node.childrenOfType ChunkType.scriptFunctionTable).length
      = payloads.functionTables.length := by
    have := congrArg List.length h.tables
    rwa [List.length_map, List.length_map] at this
  let scripts := readScripts ((head.data behind).pools names) payloads.header
    (node.childrenOfType ChunkType.scriptFunctionTable)
  obtain ⟨htables, hwords⟩ :
      functionTables 0 scripts = .ok payloads.functionTables
        ∧ (head.data behind).code.drop 0
          = scripts.flatMap Script.words
            ++ (head.data behind).code.drop (head.data behind).code.length :=
    functionTables_readScripts h.tables hentries h.entries htile
  -- nothing is left of the code behind the last function
  rw [List.drop_zero, List.drop_length, List.append_nil] at hwords
  let m : ScriptModule := { head.data behind with
    scripts
    stringHashes := readStringHashes (payload? node ChunkType.scriptStringHashes)
    hashTable := Bytes.words32 ((payload? node ChunkType.scriptHashBundle).getD []) }
  have hsame : m.assembledData = head.data behind := by
    rw [assembledData, ← hwords]
  refine ⟨m, decompile_eq_ok.mpr ⟨payloads.header, payloads.data, h.header, h.data, ?_, ?_, rfl, rfl,
    rfl⟩, assemble_eq_ok.mpr ⟨htables, ?_, ?_, ?_, ?_⟩⟩
  · exact ScriptData.parse_eq_ok.mpr ⟨head, behind, hdata, by omega, rfl⟩
  · rw [hentries, hnodes]
  · rw [hsame, hcodeSize]
    exact head.codeSize.toNat_lt
  · have hsize : 4 * m.pool.size = head.poolSize.toNat := hpoolSize
    rw [hsize]
    exact head.poolSize.toNat_lt
  · have hwordsHeader : headerWords m.scripts = Bytes.words32 payloads.header :=
      headerWords_readScripts (by rw [hentries, hnodes]) hheader
    have hwhole : 4 ∣ payloads.header.length := by
      rw [h.scripts]
      omega
    rw [hwordsHeader, Bytes.ofWords32_words32_of_dvd hwhole]
  · rw [hsame, hwrite, hdata]

/-- Three functions: a jump in front of an operation without a name, a bad move, and an `END`. -/
def tiledCode : List UInt16 :=
  [0x1400, 0x0042, 0xFC01, 0x3005, 0x0000, 0x4003, 0x3000, 0x3000]

/-- Two scripts with the functions of `tiledCode`, and a string table that is shorter than its size
says. -/
def tiledPayloads : Assembly where
  header := Bytes.ofWords32 [7, 0, 8, 16]
  functionTables := [Bytes.ofWords32 [1, 0, 2, 2, 4, 0], Bytes.ofWords32 [3, 7, 0]]
  data := Bytes.ofWords32 [5, 16, 4] ++ Bytes.ofWords16 [9, 1] ++ Bytes.ofWords32 [0x3F800000]
    ++ Bytes.ofWords16 tiledCode ++ [0x68, 0x69]

def tiledNode : Node :=
  .branch ⟨0x5000, 0x8000, 0, 48⟩ [
    .leaf ⟨ChunkType.scriptHeader, 0, 0, 16⟩ tiledPayloads.header,
    .leaf ⟨ChunkType.scriptFunctionTable, 0, 16, 24⟩ (Bytes.ofWords32 [1, 0, 2, 2, 4, 0]),
    .leaf ⟨ChunkType.scriptData, 0, 40, 38⟩ tiledPayloads.data,
    .leaf ⟨ChunkType.scriptFunctionTable, 0, 78, 12⟩ (Bytes.ofWords32 [3, 7, 0])]

theorem canonical_tiledNode : Canonical tiledNode tiledPayloads where
  header := by decide
  data := by decide
  tables := by decide
  scripts := by decide
  entries := by decide
  parts := by
    refine ⟨⟨5, 16, 4, 9, 1⟩, tiledPayloads.data.drop 16, by decide, by decide, by decide, by decide,
      ?_⟩
    have hstarts : tiledPayloads.functionTables.flatMap starts = [0, 4, 7] := by decide
    have hcode : (ScriptData.Header.data ⟨5, 16, 4, 9, 1⟩ (tiledPayloads.data.drop 16)).code
        = tiledCode := by decide
    have hjump : Listing.Spans tiledCode (UInt32.toNat 0) 4 :=
      ⟨⟨6, .stop, 5, 0⟩, by decide, rfl, rfl⟩
    have hbad : Listing.Spans tiledCode (UInt32.toNat 4) 7 :=
      ⟨⟨12, .stop, 0, 0⟩, by decide, rfl, rfl⟩
    have hend : Listing.Spans tiledCode (UInt32.toNat 7) 8 :=
      ⟨⟨14, .stop, 0, 0⟩, by decide, rfl, rfl⟩
    rw [hstarts, hcode]
    exact .cons hjump (.cons hbad (.cons hend (.nil 8)))

theorem assemble_canonical_tiled :
    ∃ m, decompile .empty tiledNode = .ok m ∧ m.assemble = .ok tiledPayloads :=
  assemble_canonical canonical_tiledNode .empty

end ScriptModule

end ChunkArchive
