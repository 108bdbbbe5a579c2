import ChunkArchive.Proofs.Script.Container
import ChunkArchive.Proofs.Script.Outline
import ChunkArchive.Proofs.Script.Patch

/-!
# Patched modules read again

The pool of a patched module is written over the one in its data chunk, and the module is decompiled
again. The same stores are made then, from the same sources, as what is in the pool does not decide
about them (`Body.decode_eq_fill`). So the variable has its new value, if the pool can tell it
(`ScriptModule.decompile_patch`).
-/

set_option autoImplicit false

namespace ChunkArchive

/-! ## Values that the pool can tell -/

/-- The kind of the pool words that components of the value come from. -/
def Value.wordKind (v : Value) : String := if v.kind = "uint" then "uint" else "float"

namespace Variable

/-- For every component of the new value the slot that it goes to, if there is one, and its word. -/
def components (v : Variable) (value : Value) : List (Option UInt32 × UInt32) :=
  v.sources.zip (value.poolWords?.getD [])

theorem mem_components {v : Variable} {value : Value} {olds news : List UInt32}
    {source : Option UInt32} {old new : UInt32} (hnews : value.poolWords? = some news)
    (h : (source, old, new) ∈ v.sources.zip (olds.zip news)) :
    (source, new) ∈ v.components value := by
  obtain ⟨i, hi⟩ := List.mem_iff_getElem?.mp h
  rw [List.getElem?_zip_eq_some, List.getElem?_zip_eq_some] at hi
  obtain ⟨hsource, -, hnew⟩ := hi
  rw [components, hnews]
  exact List.mem_iff_getElem?.mpr ⟨i, List.getElem?_zip_eq_some.mpr ⟨hsource, hnew⟩⟩

/-- The pool can tell the new value of the variable. -/
structure Accepts (names : NameTable) (v : Variable) (value : Value) : Prop where
  /-- Components that share a slot have the same word. -/
  shared : ∀ slot word word', (some slot, word) ∈ v.components value →
    (some slot, word') ∈ v.components value → word = word'
  /-- Words are read as numbers of the kind that the variable has. -/
  kind : ∀ slot word, (some slot, word) ∈ v.components value →
    (Value.ofPoolWord names word).kind = v.value.wordKind

end Variable

/-- A word of the pool that reads as an integer. -/
theorem Value.ofPoolWord_eq_uint {names : NameTable} {word : UInt32}
    (h : (ofPoolWord names word).kind = "uint") : ofPoolWord names word = .uint word := by
  rcases ofPoolWord_cases names word with hw | hw
  · exact hw
  · rw [hw] at h
    simp [kind] at h

/-- A word of the pool that reads as a float. -/
theorem Value.ofPoolWord_eq_float {names : NameTable} {word : UInt32}
    (h : (ofPoolWord names word).kind = "float") : ofPoolWord names word = .float ⟨word⟩ := by
  rcases ofPoolWord_cases names word with hw | hw
  · rw [hw] at h
    simp [kind] at h
  · exact hw

/-! ## Sources under a written pool -/

/-- The sources of the components give the new words, or what they gave before where the word stays
the same. -/
def Rewritten (pools pools' : Pools) (kind : String)
    (components : List (Option UInt32 × UInt32 × UInt32)) : Prop :=
  ∀ (s : Source) (old new : UInt32), (s.slot?, old, new) ∈ components →
    (s.value pools' = .ofPoolWord pools.names new ∧ (Value.ofPoolWord pools.names new).kind = kind)
      ∨ (s.value pools' = s.value pools ∧ old = new)

/-- Writing the words of components that agree about shared slots rewrites them. -/
theorem rewritten_writeSlots (pools : Pools) {kind : String}
    {components : List (Option UInt32 × UInt32 × UInt32)}
    (hkept : ∀ c ∈ components, slotIn? pools.pool.size c.1 = none → c.2.1 = c.2.2)
    (hshared : ∀ slot old new old' new', (some slot, old, new) ∈ components →
      (some slot, old', new') ∈ components → new = new')
    (hkind : ∀ slot old new, (some slot, old, new) ∈ components →
      (Value.ofPoolWord pools.names new).kind = kind) :
    Rewritten pools { pools with
      pool := writeSlots pools.pool (plannedWrites pools.pool.size components) } kind components := by
  intro s old new hmem
  cases s with
  | slot n =>
      by_cases hn : n.toNat < pools.pool.size
      · -- every write to this slot has the word of a component that shares it
        have hagree : ∀ w ∈ plannedWrites pools.pool.size components, w.1 = n.toNat →
            w.2 = new := by
          rintro ⟨i, word⟩ hw hi
          obtain ⟨slot, old', hmem', -, hslot⟩ := mem_plannedWrites.mp hw
          obtain rfl : slot = n := UInt32.toNat_inj.mp (hslot.trans hi)
          exact hshared _ _ _ _ _ hmem' hmem
        have hwritten : (n.toNat, new) ∈ plannedWrites pools.pool.size components :=
          mem_plannedWrites.mpr ⟨n, old, hmem, hn, rfl⟩
        have hword := getElem?_writeSlots_of_agree hagree hn (Or.inr ⟨_, hwritten, rfl⟩)
        left
        refine ⟨?_, hkind n old new hmem⟩
        rw [Source.value, hword, Option.getD_some]
      · -- there is no such slot, before or after
        have hnone : ∀ pool : Array UInt32, pool.size = pools.pool.size → pool[n.toNat]? = none := by
          intro pool hsize
          exact Array.getElem?_eq_none (by omega)
        have hslot : slotIn? pools.pool.size (some n) = none := by
          rw [slotIn?, Option.filter_eq_none_iff]
          simpa using hn
        right
        refine ⟨?_, hkept _ hmem hslot⟩
        rw [Source.value, Source.value, hnone _ (size_writeSlots ..), hnone _ rfl]
  | text offset => exact Or.inr ⟨rfl, hkept _ hmem rfl⟩
  | literal n => exact Or.inr ⟨rfl, hkept _ hmem rfl⟩

section Rewritten

variable {pools pools' : Pools}

/-- Numbers whose sources are rewritten are the new ones. -/
theorem map_single?_rewritten {ss : List Source} {xs ys : List Single}
    (hlen : xs.length = ys.length)
    (h : ss.map (fun s => (s.value pools).single?) = xs.map some)
    (hr : Rewritten pools pools' "float"
      ((ss.map Source.slot?).zip ((xs.map Single.bits).zip (ys.map Single.bits)))) :
    ss.map (fun s => (s.value pools').single?) = ys.map some := by
  -- sources, old and new numbers are gone through side by side
  induction ss generalizing xs ys with
  | nil =>
      cases xs with
      | nil =>
          cases ys with
          | nil => rfl
          | cons y ys => cases hlen
      | cons x xs => cases h
  | cons s ss ih =>
      cases xs with
      | nil => cases h
      | cons x xs =>
          cases ys with
          | nil => cases hlen
          | cons y ys =>
              obtain ⟨hx, hxs⟩ := List.cons.inj h
              have hy : (s.value pools').single? = some y := by
                rcases hr s x.bits y.bits (List.mem_cons_self ..) with ⟨hvalue, hkind⟩ | ⟨hvalue, hbits⟩
                · rw [hvalue, Value.ofPoolWord_eq_float hkind]
                  rfl
                · rw [hvalue]
                  refine hx.trans ?_
                  exact congrArg (fun b => some (Single.mk b)) hbits
              rw [List.map_cons, List.map_cons, hy, ih (Nat.succ.inj hlen) hxs]
              intro s' old new hmem
              exact hr s' old new (List.mem_cons_of_mem _ hmem)

theorem numbers?_rewritten {n : Nat} {ss : List Source} {v w : Vector Single n}
    (h : numbers? n (ss.map (Source.item pools)) = some v)
    (hr : Rewritten pools pools' "float" ((ss.map Source.slot?).zip
      ((v.toList.map Single.bits).zip (w.toList.map Single.bits)))) :
    numbers? n (ss.map (Source.item pools')) = some w := by
  rw [numbers?_eq_some, List.map_map] at h ⊢
  exact map_single?_rewritten (by simp) h hr

/-- The same for a value that is made of the numbers. -/
theorem map_numbers?_rewritten {n : Nat} {make : Vector Single n → Value} {ss : List Source}
    {current : Value} {w : Vector Single n} {sources : List (Option UInt32)}
    {old new : List UInt32}
    (hmake : ∀ v, (make v).poolWords? = some (v.toList.map Single.bits)
      ∧ (make v).wordKind = "float")
    (h : (numbers? n (ss.map (Source.item pools))).map (fun v => (make v, ss.map Source.slot?))
      = some (current, sources))
    (hold : current.poolWords? = some old) (hnew : (make w).poolWords? = some new)
    (hr : Rewritten pools pools' current.wordKind (sources.zip (old.zip new))) :
    (numbers? n (ss.map (Source.item pools'))).map (fun v => (make v, ss.map Source.slot?))
      = some (make w, sources) := by
  obtain ⟨v, hv, hcurrent⟩ := Option.map_eq_some_iff.mp h
  obtain ⟨rfl, rfl⟩ := Prod.mk.inj hcurrent
  obtain rfl := Option.some.inj (hold.symm.trans (hmake v).1)
  obtain rfl := Option.some.inj (hnew.symm.trans (hmake w).1)
  rw [(hmake v).2] at hr
  rw [numbers?_rewritten hv hr, Option.map_some]

/-- A command whose arguments are rewritten makes the new value of them. -/
theorem commandValue?_rewritten {id : UInt32} {ss : List Source} {current value : Value}
    {sources : List (Option UInt32)} {old new : List UInt32}
    (h : commandValue? id (ss.map (Source.item pools)) = some (current, sources))
    (hkind : current.kind = value.kind) (hold : current.poolWords? = some old)
    (hnew : value.poolWords? = some new)
    (hr : Rewritten pools pools' current.wordKind (sources.zip (old.zip new))) :
    commandValue? id (ss.map (Source.item pools')) = some (value, sources) := by
  unfold commandValue? at h ⊢
  simp only [Source.map_source_item] at h ⊢
  have hcurrent : ∀ {n} {make : Vector Single n → Value},
      (numbers? n (ss.map (Source.item pools))).map (fun v => (make v, ss.map Source.slot?))
        = some (current, sources) → ∃ v, current = make v := by
    intro n make h
    obtain ⟨v, -, hv⟩ := Option.map_eq_some_iff.mp h
    exact ⟨v, (Prod.mk.inj hv).1.symm⟩
  split_ifs at h ⊢
  · obtain ⟨v, rfl⟩ := hcurrent h
    obtain ⟨w, rfl⟩ : ∃ w, value = .vec3 w := by cases value <;> simp [Value.kind] at hkind ⊢
    exact map_numbers?_rewritten (fun _ => ⟨rfl, rfl⟩) h hold hnew hr
  · obtain ⟨v, rfl⟩ := hcurrent h
    obtain ⟨w, rfl⟩ : ∃ w, value = .vec4 w := by cases value <;> simp [Value.kind] at hkind ⊢
    exact map_numbers?_rewritten (fun _ => ⟨rfl, rfl⟩) h hold hnew hr
  · obtain ⟨v, rfl⟩ := hcurrent h
    obtain ⟨w, rfl⟩ : ∃ w, value = .matrix w := by cases value <;> simp [Value.kind] at hkind ⊢
    exact map_numbers?_rewritten (fun _ => ⟨rfl, rfl⟩) h hold hnew hr
  · -- a truth value has no words in the pool
    cases ss with
    | nil => cases h
    | cons s ss =>
        obtain ⟨x, -, hx⟩ := Option.map_eq_some_iff.mp h
        cases hx
        cases hold

/-- What a source gives that is rewritten as a value of its own. -/
theorem Source.value_rewritten {s : Source} {value : Value} {old new : List UInt32}
    (hkind : (s.value pools).kind = value.kind) (hold : (s.value pools).poolWords? = some old)
    (hnew : value.poolWords? = some new)
    (hr : Rewritten pools pools' (s.value pools).wordKind ([s.slot?].zip (old.zip new))) :
    s.value pools' = value := by
  -- integers and floats have one word, a string has none
  rcases s.value_cases pools with ⟨n, hs⟩ | ⟨x, hs⟩ | ⟨t, hs⟩
  · rw [hs] at hkind hold hr
    obtain ⟨n', rfl⟩ : ∃ n', value = .uint n' := by cases value <;> simp [Value.kind] at hkind ⊢
    cases hold
    cases hnew
    rcases hr s n n' (List.mem_cons_self ..) with ⟨hvalue, hword⟩ | ⟨hvalue, rfl⟩
    · rw [hvalue, Value.ofPoolWord_eq_uint hword]
    · rw [hvalue, hs]
  · rw [hs] at hkind hold hr
    obtain ⟨y, rfl⟩ : ∃ y, value = .float y := by cases value <;> simp [Value.kind] at hkind ⊢
    cases hold
    cases hnew
    rcases hr s x.bits y.bits (List.mem_cons_self ..) with ⟨hvalue, hword⟩ | ⟨hvalue, hbits⟩
    · rw [hvalue, Value.ofPoolWord_eq_float hword]
    · rw [hvalue, hs]
      exact congrArg (fun b => Value.float ⟨b⟩) hbits
  · rw [hs] at hold
    cases hold

/-- A value in another width has no words in the pool. -/
theorem Source.width_of_poolWords? {s : Source} {width : UInt32} {words : List UInt32}
    (h : ((s.value pools).inWidth width).poolWords? = some words) : width = 4 := by
  by_contra hwidth
  unfold Value.inWidth at h
  rw [if_neg hwidth] at h
  rcases s.value_cases pools with ⟨n, hs⟩ | ⟨x, hs⟩ | ⟨t, hs⟩
  all_goals
    rw [hs] at h
    split_ifs at h <;> cases h

/-- A store whose sources are rewritten stores the new value. -/
theorem Store.value_rewritten {s : Store} {offset : UInt32} {value : Value}
    {old new : List UInt32} (hkind : (s.var pools offset).value.kind = value.kind)
    (hold : (s.var pools offset).value.poolWords? = some old)
    (hnew : value.poolWords? = some new)
    (hr : Rewritten pools pools' (s.var pools offset).value.wordKind
      ((s.var pools offset).sources.zip (old.zip new))) :
    (s.var pools' offset).value = value := by
  cases s with
  | move width top =>
      -- only a value of full width can be patched at all
      obtain rfl := Source.width_of_poolWords? hold
      exact top.value_rewritten hkind hold hnew hr
  | command id ss =>
      cases hcommand : commandValue? id (ss.map (Source.item pools)) with
      | none =>
          -- neither can bare arguments
          simp only [var, hcommand] at hold
          cases hold
      | some found =>
          simp only [var, hcommand] at hkind hold hr
          simp only [var, commandValue?_rewritten hcommand hkind hold hnew hr]

end Rewritten

/-! ## Reading a module with another pool -/

namespace ScriptModule

/-- What is stored at an offset by a function, as far as it is known without what is in the pool. -/
def storeAt? (slots : Nat) (code : List UInt16) (header : Bytes) (tables : List Node)
    (script function : Nat) (offset : UInt32) : Option (UInt32 × Store) :=
  (((pairs (Bytes.words32 header)).zip tables)[script]?.bind fun e =>
    (triples (Bytes.words32 (e.2.payload?.getD [])))[function]?).bind fun e =>
      (Body.outline slots code e.2.1).vars.find? (·.1 = offset)

theorem varAt?_eq {m : ScriptModule} {pools : Pools} {header : Bytes} {tables : List Node}
    (h : m.scripts = readScripts pools header tables) (script function : Nat) (offset : UInt32) :
    m.varAt? script function offset
      = (storeAt? pools.pool.size pools.code header tables script function offset).map
          (Outline.fillVar pools) := by
  unfold varAt? storeAt?
  rw [h, readScripts, List.getElem?_map]
  cases ((pairs (Bytes.words32 header)).zip tables)[script]? with
  | none => rfl
  | some e =>
      simp only [Option.map_some, Option.bind_some, readScript, readFunctions, List.getElem?_map]
      cases (triples (Bytes.words32 (e.2.payload?.getD [])))[function]? with
      | none => rfl
      | some e =>
          simp only [Option.map_some, Option.bind_some, Body.decode_eq_fill, Array.find?_map]
          congr 2
          funext stored
          exact congrArg (fun k => decide (k = offset)) (stored.2.offset_var pools stored.1)

/-- A node with another pool written into its data chunk is decompiled with that pool. -/
theorem decompile_writePool {names : NameTable} {node : Node} {m other : ScriptModule}
    (hm : decompile names node = .ok m) (hsize : other.pool.size = m.pool.size) :
    ∃ data written after header tables, payload? node ChunkType.scriptData = some data
      ∧ other.writePool data = .ok written
      ∧ decompile names (node.refill ChunkType.scriptData [written]) = .ok after
      ∧ after.toScriptData = { m.toScriptData with pool := other.pool }
      ∧ m.scripts = readScripts (m.pools names) header tables
      ∧ after.scripts = readScripts (after.pools names) header tables := by
  obtain ⟨-, data, -, hdata, hparse, -⟩ := decompile_eq_ok.mp hm
  obtain ⟨hfits, hparse⟩ := ScriptData.parse_overwrite hparse hsize
  obtain ⟨header, tables, hscripts, hafter⟩ := decompile_refill_data hm hparse
  exact ⟨data, _, _, header, tables, hdata, if_neg (Nat.not_lt_of_le hfits), hafter, rfl, hscripts,
    rfl⟩

/-- **A patched variable has its new value when the module is read again**, if the pool can tell the
value. Nothing is written to other slots than those that the variable comes from. -/
theorem decompile_patch {names : NameTable} {node : Node} {m patched : ScriptModule}
    {script function : Nat} {offset : UInt32} {value : Value}
    (hm : decompile names node = .ok m)
    (hpatch : m.patch script function offset value = .ok patched)
    (haccepts : ∀ v ∈ m.varAt? script function offset, v.Accepts names value) :
    ∃ data written after v v', payload? node ChunkType.scriptData = some data
      ∧ patched.writePool data = .ok written
      ∧ decompile names (node.refill ChunkType.scriptData [written]) = .ok after
      ∧ m.varAt? script function offset = some v
      ∧ after.varAt? script function offset = some v'
      ∧ v'.value = value
      ∧ after.pool.size = m.pool.size
      ∧ ∀ i, after.pool[i]? ≠ m.pool[i]? → ∃ slot, some slot ∈ v.sources ∧ slot.toNat = i := by
  obtain ⟨v, writes, hv, hwrites, hpatched⟩ := patch_eq_ok.mp hpatch
  obtain ⟨hkind, old, new, hold, hnew, -, hkept, rfl⟩ := Variable.writes_eq_ok.mp hwrites
  have hpool : patched.pool
      = writeSlots m.pool (plannedWrites m.pool.size (v.sources.zip (old.zip new))) := by
    rw [hpatched]
  have hsize : patched.pool.size = m.pool.size := by rw [hpool, size_writeSlots]
  obtain ⟨data, written, after, header, tables, hdata, hwritten, hafter, hsame, hscripts,
    hscripts'⟩ := decompile_writePool hm hsize
  -- the variable is what a store makes, and this store is made again
  have hfound := hv
  rw [varAt?_eq hscripts] at hfound
  obtain ⟨e, he, rfl⟩ := Option.map_eq_some_iff.mp hfound
  have hpools : after.pools names = { m.pools names with pool := patched.pool } := by
    rw [hsame]
    rfl
  have hstored : after.varAt? script function offset
      = some (Outline.fillVar (after.pools names) e) := by
    rw [varAt?_eq hscripts', hpools]
    show (storeAt? patched.pool.size _ _ _ _ _ _).map _ = _
    rw [hsize]
    exact congrArg (Option.map _) he
  refine ⟨data, written, after, _, _, hdata, hwritten, hafter, hv, hstored, ?_, ?_, ?_⟩
  · obtain ⟨hshared, hword⟩ := haccepts _ hv
    have hrewritten := rewritten_writeSlots (m.pools names) hkept
      (fun slot _ _ _ _ h h' => hshared slot _ _ (Variable.mem_components hnew h)
        (Variable.mem_components hnew h'))
      (fun slot _ _ h => hword slot _ (Variable.mem_components hnew h))
    rw [hpools, hpool]
    exact Store.value_rewritten hkind hold hnew hrewritten
  · rw [hsame]
    exact hsize
  · intro i hi
    by_contra hnone
    refine hi ?_
    rw [hsame, hpool]
    refine getElem?_writeSlots_of_ne ?_
    rintro ⟨i', word⟩ hw rfl
    obtain ⟨slot, old', hmem, -, hslot⟩ := mem_plannedWrites.mp hw
    exact hnone ⟨slot, (List.of_mem_zip hmem).1, hslot⟩

/-- A module whose function makes a vector of a slot, a number and the slot again, and then stores the
slot at the same offset. Two bytes of its pool are no whole word. -/
def echoNode : Node :=
  .branch ⟨0x5000, 0x8000, 0, 36⟩ [
    .leaf ⟨ChunkType.scriptHeader, 0, 0, 8⟩ (Bytes.ofWords32 [7, 0]),
    .leaf ⟨ChunkType.scriptData, 0, 8, 36⟩ (Bytes.ofWords32 [5, 14, 6] ++ Bytes.ofWords16 [0, 0]
      ++ Bytes.ofWords32 [0x3F800000]
      ++ Bytes.ofWords16 [9, 0x0000, 0x1007, 0x0000, 0x1F38, 0x0000, 0x4004, 0x3000]),
    .leaf ⟨ChunkType.scriptFunctionTable, 0, 44, 12⟩ (Bytes.ofWords32 [1, 0, 0])]

/-- The vector of 2, 7 and 2. -/
def echoValue : Value := .vec3 #v[⟨0x40000000⟩, ⟨0x40E00000⟩, ⟨0x40000000⟩]

theorem decompile_patch_echo :
    ∃ m patched, decompile .empty echoNode = .ok m ∧ m.patch 0 0 0 echoValue = .ok patched
      ∧ (∀ v ∈ m.varAt? 0 0 0, v.Accepts .empty echoValue)
      ∧ ∃ written after v', decompile .empty (echoNode.refill ChunkType.scriptData [written])
          = .ok after
        ∧ after.varAt? 0 0 0 = some v' ∧ v'.value = echoValue := by
  have hrun : (decompile .empty echoNode >>= fun m => m.patch 0 0 0 echoValue >>= fun patched =>
      .ok (m.varAt? 0 0 0 |>.map fun v => (v.sources, v.value.kind), patched.pool))
      = .ok (some ([some 0, none, some 0], "Vec3"), #[0x40000000]) := by decide +kernel
  obtain ⟨m, hm, hrun⟩ := Outcome.bind_eq_ok.mp hrun
  obtain ⟨patched, hpatch, hfound⟩ := Outcome.bind_eq_ok.mp hrun
  have haccepts : ∀ v ∈ m.varAt? 0 0 0, v.Accepts .empty echoValue := by
    intro v hv
    rw [Option.mem_def.mp hv] at hfound
    simp only [Option.map_some, Except.ok.injEq, Prod.mk.injEq, Option.some.injEq] at hfound
    obtain ⟨⟨hsources, hkind⟩, -⟩ := hfound
    have hcomponents : v.components echoValue
        = [(some 0, 0x40000000), (none, 0x40E00000), (some 0, 0x40000000)] := by
      rw [Variable.components, hsources]
      rfl
    have hwords : ∀ slot word, (some slot, word) ∈ v.components echoValue →
        word = 0x40000000 := by
      intro slot word hmem
      rw [hcomponents] at hmem
      have hboth : slot = 0 ∧ word = 0x40000000 := by simpa using hmem
      exact hboth.2
    constructor
    · intro slot word word' h h'
      rw [hwords slot word h, hwords slot word' h']
    · intro slot word h
      rw [hwords slot word h, Value.wordKind, hkind]
      decide +kernel
  obtain ⟨data, written, after, v, v', -, -, hafter, -, hv', hvalue, -⟩ :=
    decompile_patch hm hpatch haccepts
  exact ⟨m, patched, hm, hpatch, haccepts, written, after, v', hafter, hv', hvalue⟩

end ScriptModule

end ChunkArchive
