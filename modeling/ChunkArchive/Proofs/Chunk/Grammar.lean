import ChunkArchive.Chunk.Table
import ChunkArchive.Proofs.Bytes
import ChunkArchive.Proofs.Chunk.Walk
import ChunkArchive.Proofs.Reader

/-!
# What a chunk table says

A chunk table is read without loss: a forest is read from a table and data blocks exactly when the
table is the one written for the forest, with fewer zero bytes behind it than a header takes, and
every chunk of the forest is one that can be read (`Forest.parse_eq_ok_iff`). The bridge between
the two is `Node.Readable`, which follows the recursion of the parser over the levels that are
left.
-/

set_option autoImplicit false

namespace ChunkArchive

/-! ## What a chunk has to satisfy -/

namespace Node

/-- The flag of the header says what the body is. -/
def FlagFits : Node → Prop
  | .leaf h _ => h.hasChildren = false
  | .branch h _ => h.hasChildren = true

instance : DecidablePred FlagFits
  | .leaf h _ => inferInstanceAs (Decidable (h.hasChildren = false))
  | .branch h _ => inferInstanceAs (Decidable (h.hasChildren = true))

/-- The size in the header is the length of the payload, or of the headers inside. -/
def SizeFits : Node → Prop
  | .leaf h payload => h.size.toNat = payload.length
  | .branch h cs => h.size.toNat = tableLengths cs

instance : DecidablePred SizeFits
  | .leaf h payload => inferInstanceAs (Decidable (h.size.toNat = payload.length))
  | .branch h cs => inferInstanceAs (Decidable (h.size.toNat = tableLengths cs))

/-- A payload is what its data block holds in the range that the header gives. -/
def Backed (blocks : List Bytes) : Node → Prop
  | .leaf h payload => (blocks[h.blockIndex]?.bind fun block =>
      Bytes.slice? block h.offset.toNat h.stop) = some payload
  | .branch _ _ => True

instance (blocks : List Bytes) : DecidablePred (Backed blocks)
  | .leaf h payload => inferInstanceAs (Decidable ((blocks[h.blockIndex]?.bind fun block =>
      Bytes.slice? block h.offset.toNat h.stop) = some payload))
  | .branch _ _ => isTrue trivial

/-- The chunk can be read with the given number of levels from it downwards. -/
def Readable (blocks : List Bytes) : (levels : Nat) → Node → Prop
  | 0, _ => False
  | _ + 1, .leaf h payload => (Node.leaf h payload).FlagFits ∧ (Node.leaf h payload).Backed blocks
  | levels + 1, .branch h cs => (Node.branch h cs).FlagFits ∧ (Node.branch h cs).SizeFits
      ∧ ∀ c ∈ cs, Readable blocks levels c

theorem backed_leaf_iff {blocks : List Bytes} {h : Header} {payload : Bytes} :
    (Node.leaf h payload).Backed blocks ↔ ∃ block, blocks[h.blockIndex]? = some block
      ∧ Bytes.slice? block h.offset.toNat h.stop = some payload :=
  Option.bind_eq_some_iff

theorem Backed.sizeFits {blocks : List Bytes} {h : Header} {payload : Bytes}
    (hb : (Node.leaf h payload).Backed blocks) : (Node.leaf h payload).SizeFits := by
  obtain ⟨block, -, hslice⟩ := backed_leaf_iff.mp hb
  have hlen := (Bytes.slice?_bounds hslice).1
  show h.size.toNat = payload.length
  rw [Header.stop] at hlen
  omega

/-- Readability is a condition on every chunk that the walk meets: flag, size and payload fit, and
the levels suffice. -/
theorem readable_iff_walk (blocks : List Bytes) (levels : Nat) (node : Node) (path : Path) :
    node.Readable blocks levels ↔ ∀ e ∈ node.walk path,
      e.2.FlagFits ∧ e.2.SizeFits ∧ e.2.Backed blocks ∧ e.1.depth < path.depth + levels := by
  induction levels generalizing node path with
  | zero =>
      have hself := mem_walk_self node path
      constructor
      · intro h
        exact h.elim
      · intro h
        have := (h _ hself).2.2.2
        simp at this
  | succ levels ih =>
      cases node with
      | leaf h payload =>
          simp only [Readable, walk, List.mem_singleton, forall_eq]
          constructor
          · rintro ⟨hf, hb⟩
            exact ⟨hf, hb.sizeFits, hb, by omega⟩
          · rintro ⟨hf, -, hb, -⟩
            exact ⟨hf, hb⟩
      | branch h cs =>
          simp only [Readable, walk, List.mem_cons, forall_eq_or_imp]
          constructor
          · rintro ⟨hf, hs, hcs⟩
            refine ⟨⟨hf, hs, trivial, by omega⟩, fun e he => ?_⟩
            obtain ⟨j, c, hc, he⟩ := mem_walkFrom.mp he
            have hread := hcs c (List.mem_of_getElem? hc)
            have hw := (ih c (path.child (0 + j))).mp hread e he
            rw [Path.child_depth] at hw
            exact ⟨hw.1, hw.2.1, hw.2.2.1, by omega⟩
          · rintro ⟨⟨hf, hs, -, -⟩, hcs⟩
            refine ⟨hf, hs, fun c hc => ?_⟩
            obtain ⟨j, hj⟩ := List.mem_iff_getElem?.mp hc
            refine (ih c (path.child (0 + j))).mpr fun e he => ?_
            have hw := hcs e (mem_walkFrom.mpr ⟨j, c, hj, he⟩)
            rw [Path.child_depth]
            exact ⟨hw.1, hw.2.1, hw.2.2.1, by omega⟩

end Node

/-! ## Headers -/

namespace Header

theorem bytes_length (h : Header) : h.bytes.length = Header.length := rfl

/-- A header has two bits for the number of a block. -/
theorem blockIndex_lt (h : Header) : h.blockIndex < 4 := by
  have hle : h.blockIndex ≤ 3 := by
    rw [blockIndex, UInt16.toNat_and]
    exact Nat.and_le_right
  omega

/-- A header that is read stands at the front. -/
theorem read?_eq_some {bytes : Bytes} {h : Header} (hr : read? bytes = some h) :
    h.bytes <+: bytes := by
  unfold read? at hr
  split at hr
  · next t₀ t₁ f₀ f₁ o₀ o₁ o₂ o₃ s₀ s₁ s₂ s₃ rest =>
      obtain rfl := Option.some.inj hr
      refine ⟨rest, ?_⟩
      simp [bytes, Bytes.ofWord16_toWord16, Bytes.ofWord32_toWord32]
  · cases hr

theorem at_eq_ok {table : Bytes} {pos : Nat} {h : Header} :
    Header.at table pos = .ok h ↔ h.bytes <+: table.drop pos := by
  unfold Header.at
  constructor
  · intro hat
    split at hat
    · next hr =>
        cases hat
        exact read?_eq_some hr
    · cases hat
  · rintro ⟨rest, hrest⟩
    rw [← hrest, read?_bytes]

/-- The payload of a leaf is found exactly where the header says. -/
theorem payload_eq_ok {blocks : List Bytes} {pos : Nat} {h : Header} {payload : Bytes} :
    h.payload blocks pos = .ok payload ↔ (Node.leaf h payload).Backed blocks := by
  rw [Node.backed_leaf_iff]
  unfold Header.payload
  constructor
  · intro hp
    split at hp
    · cases hp
    · next block hblock =>
        split at hp
        · next part hpart =>
            cases hp
            exact ⟨block, hblock, hpart⟩
        · cases hp
  · rintro ⟨block, hblock, hpart⟩
    rw [hblock]
    simp only
    rw [hpart]

end Header

/-! ## The written table -/

namespace Node

theorem tableLength_pos (node : Node) : Header.length ≤ node.tableLength := by
  cases node with
  | leaf h payload => exact Nat.le_refl _
  | branch h cs => exact Nat.le_add_right _ _

theorem tableBytesOf_length {cs : List Node}
    (h : ∀ c ∈ cs, c.tableBytes.length = c.tableLength) :
    (tableBytesOf cs).length = tableLengths cs := by
  induction cs with
  | nil => rfl
  | cons c cs ih =>
      rw [tableBytesOf, tableLengths, List.length_append, h c (by simp),
        ih fun d hd => h d (by simp [hd])]

@[simp] theorem tableBytes_length (node : Node) : node.tableBytes.length = node.tableLength := by
  induction node with
  | leaf h payload => rfl
  | branch h cs ih =>
      rw [tableBytes, tableLength, List.length_append, Header.bytes_length, tableBytesOf_length ih]

@[simp] theorem length_tableBytesOf (cs : List Node) :
    (tableBytesOf cs).length = tableLengths cs :=
  tableBytesOf_length fun c _ => c.tableBytes_length

/-- The table has the header as it is when its size fits. -/
theorem header_of_size {h : Header} {n : Nat} (hn : h.size.toNat = n) :
    { h with size := UInt32.ofNat n } = h := by
  rw [← hn, UInt32.ofNat_toNat]

end Node

/-- What stands at `pos` and what stands behind it stand there together. -/
theorem prefix_drop_append {table a b : Bytes} {pos n : Nat} (ha : a <+: table.drop pos)
    (hn : a.length = n) (hb : b <+: table.drop (pos + n)) : a ++ b <+: table.drop pos := by
  obtain ⟨rest, hrest⟩ := ha
  have hdrop : table.drop (pos + n) = rest := by
    rw [← List.drop_drop, ← hrest, ← hn, List.drop_left]
  rw [hdrop] at hb
  rw [← hrest]
  exact (List.prefix_append_right_inj a).mpr hb

/-! ## What is read is what is written -/

namespace Node

section Soundness

variable {table : Bytes} {blocks : List Bytes} {levels : Nat}

/-- What reading a chunk at `pos` says about the chunk and the bytes that it takes. -/
def ReadAt (table : Bytes) (blocks : List Bytes) (levels pos : Nat) (node : Node) (n : Nat) : Prop :=
  node.tableBytes <+: table.drop pos ∧ n = node.tableLength ∧ node.Readable blocks levels

theorem parseRun_sound {parent stop bound pos : Nat} {cs : List Node}
    (hread : ∀ pos node n, parseWithin table blocks levels pos = .ok (node, n) →
      ReadAt table blocks levels pos node n)
    (hbound : stop ≤ pos + bound) (hpos : pos ≤ stop)
    (h : parseRun (parseWithin table blocks levels) parent stop bound pos = .ok cs) :
    tableBytesOf cs <+: table.drop pos ∧ pos + tableLengths cs = stop
      ∧ ∀ c ∈ cs, c.Readable blocks levels := by
  induction bound generalizing pos cs with
  | zero =>
      rw [parseRun] at h
      cases h
      exact ⟨List.nil_prefix, by rw [tableLengths]; omega, by simp⟩
  | succ bound ih =>
      rw [parseRun] at h
      split at h
      · cases h
        exact ⟨List.nil_prefix, by rw [tableLengths]; omega, by simp⟩
      · split at h
        · cases h
        · obtain ⟨⟨node, n⟩, hnode, h⟩ := Outcome.bind_eq_ok.mp h
          obtain ⟨hfit, h⟩ := Outcome.unless_eq_ok.mp h
          obtain ⟨others, hothers, h⟩ := Outcome.bind_eq_ok.mp h
          cases h
          obtain ⟨hbytes, rfl, hreadable⟩ := hread _ _ _ hnode
          -- a chunk takes bytes, so the run behind it needs fewer rounds
          have hlen := node.tableLength_pos
          rw [Header.length] at hlen
          obtain ⟨hrest, hstop, hall⟩ := ih (by omega) (by omega) hothers
          refine ⟨prefix_drop_append hbytes node.tableBytes_length hrest, ?_, ?_⟩
          · rw [tableLengths]
            omega
          · intro c hc
            rcases List.mem_cons.mp hc with rfl | hc
            · exact hreadable
            · exact hall c hc

/-- A chunk that is read stands in the table as it would be written, and is a readable one. -/
theorem parseWithin_sound : ∀ {levels pos n : Nat} {node : Node},
    parseWithin table blocks levels pos = .ok (node, n) → ReadAt table blocks levels pos node n := by
  intro levels
  -- chunks inside a branch are read with one level less
  induction levels with
  | zero =>
      intro pos n node h
      cases h
  | succ levels ih =>
      intro pos n node h
      rw [parseWithin] at h
      obtain ⟨hd, hat, h⟩ := Outcome.bind_eq_ok.mp h
      have hhead := Header.at_eq_ok.mp hat
      split at h
      · next hflag =>
          obtain ⟨hstop, h⟩ := Outcome.unless_eq_ok.mp h
          obtain ⟨cs, hrun, h⟩ := Outcome.bind_eq_ok.mp h
          cases h
          obtain ⟨hbytes, hsize, hall⟩ :=
            parseRun_sound (fun pos node n => ih) (by omega) (by omega) hrun
          have hfit : hd.size.toNat = tableLengths cs := by omega
          refine ⟨?_, ?_, ?_⟩
          · rw [tableBytes, header_of_size hfit]
            exact prefix_drop_append hhead hd.bytes_length hbytes
          · rw [tableLength, hfit]
          · exact ⟨hflag, hfit, hall⟩
      · next hflag =>
          obtain ⟨payload, hpayload, h⟩ := Outcome.bind_eq_ok.mp h
          cases h
          have hbacked := Header.payload_eq_ok.mp hpayload
          refine ⟨?_, rfl, ?_, hbacked⟩
          · rw [tableBytes, header_of_size hbacked.sizeFits]
            exact hhead
          · exact Bool.eq_false_iff.mpr hflag

end Soundness

/-! ## What is written is read -/

section Completeness

variable {table : Bytes} {blocks : List Bytes} {levels : Nat}

/-- Bytes at `pos` of which the first ones are known. -/
theorem prefix_drop_split {a b : Bytes} {pos n : Nat} (h : a ++ b <+: table.drop pos)
    (hn : a.length = n) : a <+: table.drop pos ∧ b <+: table.drop (pos + n) := by
  obtain ⟨rest, hrest⟩ := h
  rw [List.append_assoc] at hrest
  refine ⟨⟨b ++ rest, hrest⟩, ⟨rest, ?_⟩⟩
  rw [← List.drop_drop, ← hrest, ← hn, List.drop_left]

/-- Bytes that stand at `pos` end inside the table. -/
theorem le_of_prefix_drop {a : Bytes} {pos : Nat} (h : a <+: table.drop pos) (ha : 0 < a.length) :
    pos + a.length ≤ table.length := by
  have hlen := h.length_le
  rw [List.length_drop] at hlen
  omega

theorem parseRun_complete {parent stop bound pos : Nat} {cs : List Node}
    (hread : ∀ c ∈ cs, ∀ pos, c.tableBytes <+: table.drop pos →
      parseWithin table blocks levels pos = .ok (c, c.tableLength))
    (hbound : stop ≤ pos + bound) (hstop : pos + tableLengths cs = stop)
    (h : tableBytesOf cs <+: table.drop pos) :
    parseRun (parseWithin table blocks levels) parent stop bound pos = .ok cs := by
  induction cs generalizing bound pos with
  | nil =>
      rw [tableLengths] at hstop
      cases bound with
      | zero => rfl
      | succ bound => rw [parseRun, if_pos (by omega)]
  | cons c cs ih =>
      rw [tableLengths] at hstop
      have hlen := c.tableLength_pos
      rw [Header.length] at hlen
      obtain ⟨bound, rfl⟩ : ∃ b, bound = b + 1 := ⟨bound - 1, by omega⟩
      rw [tableBytesOf] at h
      obtain ⟨hc, hcs⟩ := prefix_drop_split h c.tableBytes_length
      have hothers : parseRun (parseWithin table blocks levels) parent stop bound
          (pos + c.tableLength) = .ok cs :=
        ih (fun d hd => hread d (by simp [hd])) (by omega) (by omega) hcs
      rw [parseRun, if_neg (by omega), if_neg (by rw [Header.length]; omega),
        hread c (by simp) pos hc]
      refine Outcome.bind_eq_ok.mpr ⟨_, rfl, Outcome.unless_eq_ok.mpr ⟨by omega, ?_⟩⟩
      rw [hothers]
      rfl

/-- A readable chunk is read wherever it is written. -/
theorem parseWithin_complete {node : Node} {pos : Nat} (hr : node.Readable blocks levels)
    (h : node.tableBytes <+: table.drop pos) :
    parseWithin table blocks levels pos = .ok (node, node.tableLength) := by
  induction levels generalizing node pos with
  | zero => exact hr.elim
  | succ levels ih =>
      rw [parseWithin]
      cases node with
      | leaf hd payload =>
          obtain ⟨hflag, hbacked⟩ := hr
          rw [tableBytes, header_of_size hbacked.sizeFits] at h
          refine Outcome.bind_eq_ok.mpr ⟨hd, Header.at_eq_ok.mpr h, ?_⟩
          rw [if_neg (Bool.eq_false_iff.mp hflag)]
          exact Outcome.bind_eq_ok.mpr ⟨payload, Header.payload_eq_ok.mpr hbacked, rfl⟩
      | branch hd cs =>
          obtain ⟨hflag, hsize, hcs⟩ := hr
          have hflag : hd.hasChildren = true := hflag
          have hsize : hd.size.toNat = tableLengths cs := hsize
          rw [tableBytes, header_of_size hsize] at h
          obtain ⟨hhead, hrun⟩ := prefix_drop_split h hd.bytes_length
          have hend := le_of_prefix_drop h (by simp [Header.bytes_length, Header.length])
          rw [List.length_append, Header.bytes_length, length_tableBytesOf] at hend
          refine Outcome.bind_eq_ok.mpr ⟨hd, Header.at_eq_ok.mpr hhead, ?_⟩
          rw [if_pos hflag]
          refine Outcome.unless_eq_ok.mpr ⟨by omega, Outcome.bind_eq_ok.mpr ⟨cs, ?_, ?_⟩⟩
          · exact parseRun_complete (fun c hc pos hpos => ih (hcs c hc) hpos) (by omega) (by omega)
              hrun
          · rw [tableLength, hsize]
            rfl

end Completeness

end Node

/-! ## Whole tables -/

namespace Forest

variable {table : Bytes} {blocks : List Bytes}

/-- Zero bytes behind a table, fewer than a header takes. -/
def IsPadding (bytes : Bytes) : Prop := bytes.length < Header.length ∧ ∀ b ∈ bytes, b = 0

instance : DecidablePred IsPadding := fun bytes =>
  inferInstanceAs (Decidable (bytes.length < Header.length ∧ ∀ b ∈ bytes, b = 0))

theorem isPadding_nil : IsPadding [] :=
  ⟨Nat.zero_lt_succ 11, fun _ hb => (List.not_mem_nil hb).elim⟩

/-- All roots can be read. -/
def Readable (blocks : List Bytes) (roots : List Node) : Prop :=
  ∀ root ∈ roots, root.Readable blocks (maxDepth + 1)

theorem parseFrom_sound {bound pos : Nat} {roots : List Node}
    (hbound : table.length < pos + bound) (h : parseFrom table blocks bound pos = .ok roots) :
    (∃ padding, table.drop pos = Node.tableBytesOf roots ++ padding ∧ IsPadding padding)
      ∧ Readable blocks roots := by
  induction bound generalizing pos roots with
  | zero =>
      rw [parseFrom] at h
      cases h
      refine ⟨⟨[], ?_, isPadding_nil⟩, by simp [Readable]⟩
      rw [List.drop_of_length_le (by omega)]
      rfl
  | succ bound ih =>
      rw [parseFrom] at h
      split at h
      · next hshort =>
          -- too little is left for a header, so that it has to be padding
          split at h
          · next hzero =>
              cases h
              refine ⟨⟨table.drop pos, rfl, hshort, ?_⟩, by simp [Readable]⟩
              simpa using hzero
          · cases h
      · next hlong =>
          rw [Header.length, List.length_drop] at hlong
          obtain ⟨⟨root, n⟩, hroot, h⟩ := Outcome.bind_eq_ok.mp h
          obtain ⟨others, hothers, h⟩ := Outcome.bind_eq_ok.mp h
          cases h
          obtain ⟨⟨rest, hrest⟩, rfl, hreadable⟩ := Node.parseWithin_sound hroot
          have hlen := root.tableLength_pos
          rw [Header.length] at hlen
          obtain ⟨⟨padding, hpadding, hzero⟩, hall⟩ := ih (by omega) hothers
          refine ⟨⟨padding, ?_, hzero⟩, List.forall_mem_cons.mpr ⟨hreadable, hall⟩⟩
          rw [← List.drop_drop, ← hrest, ← root.tableBytes_length, List.drop_left] at hpadding
          rw [← hrest, hpadding, Node.tableBytesOf, List.append_assoc]

theorem parseFrom_complete {bound pos : Nat} {roots : List Node} {padding : Bytes}
    (hbound : table.length < pos + bound) (hroots : Readable blocks roots)
    (hpadding : IsPadding padding) (h : table.drop pos = Node.tableBytesOf roots ++ padding) :
    parseFrom table blocks bound pos = .ok roots := by
  induction roots generalizing bound pos with
  | nil =>
      cases bound with
      | zero => rfl
      | succ bound =>
          have h : table.drop pos = padding := h
          rw [parseFrom, h, if_pos hpadding.1, if_pos (by simpa using hpadding.2)]
  | cons root roots ih =>
      obtain ⟨hroot, hothers⟩ := List.forall_mem_cons.mp hroots
      rw [Node.tableBytesOf, List.append_assoc] at h
      have hlen := root.tableLength_pos
      have hdrop := congrArg List.length h
      rw [List.length_append, List.length_drop, Node.tableBytes_length] at hdrop
      rw [Header.length] at hlen
      obtain ⟨bound, rfl⟩ : ∃ b, bound = b + 1 := ⟨bound - 1, by omega⟩
      have hrest : table.drop (pos + root.tableLength) = Node.tableBytesOf roots ++ padding := by
        rw [← List.drop_drop, h, ← root.tableBytes_length, List.drop_left]
      rw [parseFrom, if_neg (by rw [Header.length, List.length_drop]; omega)]
      refine Outcome.bind_eq_ok.mpr ⟨_, Node.parseWithin_complete hroot ⟨_, h.symm⟩, ?_⟩
      exact Outcome.bind_eq_ok.mpr ⟨roots, ih (by omega) hothers hrest, rfl⟩

/-- A forest is read exactly from its own table with padding, when all its roots can be read. -/
theorem parse_eq_ok {forest : Forest} :
    parse table blocks = .ok forest ↔
      (∃ padding, table = forest.table ++ padding ∧ IsPadding padding)
        ∧ Readable blocks forest.roots := by
  rw [parse, Outcome.bind_eq_ok]
  constructor
  · rintro ⟨roots, hroots, h⟩
    cases h
    exact parseFrom_sound (by omega) hroots
  · rintro ⟨⟨padding, htable, hpadding⟩, hreadable⟩
    exact ⟨forest.roots, parseFrom_complete (by omega) hreadable hpadding htable, rfl⟩

/-- All roots can be read exactly when flag, size and payload of every chunk fit and none is deeper
than the limit. -/
theorem readable_iff_walk {forest : Forest} :
    Readable blocks forest.roots ↔ ∀ e ∈ forest.walk,
      e.2.FlagFits ∧ e.2.SizeFits ∧ e.2.Backed blocks ∧ e.1.depth ≤ maxDepth := by
  simp only [walk, List.mem_flatMap]
  constructor
  · rintro h e ⟨⟨root, i⟩, hroot, he⟩
    have hroot := h root (List.fst_mem_of_mem_zipIdx hroot)
    obtain ⟨hf, hs, hb, hd⟩ := (Node.readable_iff_walk blocks _ root (.ofRoot i)).mp hroot e he
    rw [Path.ofRoot_depth] at hd
    exact ⟨hf, hs, hb, by omega⟩
  · intro h root hroot
    obtain ⟨i, hi⟩ := List.mem_iff_getElem?.mp hroot
    refine (Node.readable_iff_walk blocks _ root (.ofRoot i)).mpr fun e he => ?_
    obtain ⟨hf, hs, hb, hd⟩ := h e ⟨(root, i), List.mk_mem_zipIdx_iff_getElem?.mpr hi, he⟩
    rw [Path.ofRoot_depth]
    exact ⟨hf, hs, hb, by omega⟩

/-! ## The grammar of a table -/

/-- **A forest is read exactly from its own table.** Behind the table stand at most some zero
bytes, and in the forest every flag says what the body is, every size is that of the body, every
payload is what its data block holds at its place, and no chunk is deeper than the limit. A single
chunk is read from exactly the bytes that it is written as. -/
theorem parse_eq_ok_iff (table : Bytes) (blocks : List Bytes) :
    (∀ forest, parse table blocks = .ok forest ↔
      (∃ padding, table = forest.table ++ padding ∧ IsPadding padding)
        ∧ ∀ e ∈ forest.walk,
            e.2.FlagFits ∧ e.2.SizeFits ∧ e.2.Backed blocks ∧ e.1.depth ≤ maxDepth)
      ∧ ∀ pos node n, Node.parse table blocks pos = .ok (node, n) →
          n = node.tableLength ∧ Bytes.slice? table pos (pos + n) = some node.tableBytes := by
  refine ⟨fun forest => ?_, fun pos node n h => ?_⟩
  · rw [parse_eq_ok, readable_iff_walk]
  · obtain ⟨hbytes, rfl, -⟩ := Node.parseWithin_sound h
    have hlen := node.tableLength_pos
    have hstop := Node.le_of_prefix_drop hbytes (by
      rw [Node.tableBytes_length, Header.length] at *
      omega)
    rw [Node.tableBytes_length] at hstop
    refine ⟨rfl, ?_⟩
    -- the bytes at `pos` begin with those of the chunk, and are cut to their number
    rw [Bytes.slice?, if_pos ⟨by omega, hstop⟩, Nat.add_sub_cancel_left, ← node.tableBytes_length]
    exact congrArg some (List.prefix_iff_eq_take.mp hbytes).symm

/-- A branch with a leaf and an empty branch inside it stands at byte 12 of a table with padding. -/
theorem parse_eq_ok_iff_nested :
    let leaf := Node.ofPayload 5 0x1000 1 [7, 8]
    let inner := Node.ofChildren 1 0 0 [leaf, Node.ofChildren 2 0 0 []]
    let table := leaf.tableBytes ++ inner.tableBytes ++ [0, 0, 0]
    let blocks := [[], [9, 7, 8]]
    Node.parse table blocks 12 = .ok (inner, 36)
      ∧ 36 = inner.tableLength ∧ Bytes.slice? table 12 (12 + 36) = some inner.tableBytes := by
  intro leaf inner table blocks
  have h : Node.parse table blocks 12 = .ok (inner, 36) := by decide +kernel
  exact ⟨h, (parse_eq_ok_iff table blocks).2 12 inner 36 h⟩

end Forest

end ChunkArchive
