import ChunkArchive.Proofs.Chunk.Map
import ChunkArchive.Proofs.Chunk.Update

/-!
# Leaves within their blocks

A table that has been written for a forest can be parsed with blocks that know nothing of the
forest's payloads. All that counts is where the leaves lie: parsing succeeds exactly if each lies
within its data block, and takes the payloads from there (`Forest.Regular.parse_padded_eq_ok`).
-/

set_option autoImplicit false

namespace ChunkArchive

/-! ## Regular forests -/

namespace Forest

/-- The header of every chunk fits it, and none is deeper than the limit. -/
def Regular (forest : Forest) : Prop :=
  ∀ e ∈ forest.walk, e.2.FlagFits ∧ e.2.SizeFits ∧ e.1.depth ≤ maxDepth

namespace Regular

variable {forest : Forest} {path : Path} {h : Header}

theorem leaf (hregular : forest.Regular) {payload : Bytes}
    (hleaf : forest.leaf? path = some (h, payload)) :
    h.hasChildren = false ∧ h.size.toNat = payload.length ∧ path.depth ≤ maxDepth :=
  hregular _ (mem_walk.mpr (leaf?_eq_some.mp hleaf))

theorem branch (hregular : forest.Regular) {n : Nat}
    (hbranch : forest.branch? path = some (h, n)) :
    h.hasChildren = true ∧ h.size.toNat = n ∧ path.depth ≤ maxDepth := by
  obtain ⟨cs, hget, rfl⟩ := branch?_eq_some.mp hbranch
  exact hregular _ (mem_walk.mpr hget)

/-- It is enough to look at leaves and branches one by one. -/
theorem of_views (hleaf : ∀ path h payload, forest.leaf? path = some (h, payload) →
      h.hasChildren = false ∧ h.size.toNat = payload.length ∧ path.depth ≤ maxDepth)
    (hbranch : ∀ path h n, forest.branch? path = some (h, n) →
      h.hasChildren = true ∧ h.size.toNat = n ∧ path.depth ≤ maxDepth) : forest.Regular := by
  rintro ⟨path, node⟩ he
  rcases get?_cases (mem_walk.mp he) with ⟨h, x, rfl, hx⟩ | ⟨h, cs, rfl, hcs⟩
  · exact hleaf path h x hx
  · exact hbranch path h _ hcs

end Regular

end Forest

/-! ## Leaves within their blocks -/

namespace Node

/-- The range of a leaf lies inside its data block. -/
def Within (blocks : List Bytes) : Node → Prop
  | .leaf h _ => ∃ block, blocks[h.blockIndex]? = some block ∧ h.stop ≤ block.length
  | .branch _ _ => True

/-- The chunk with the bytes that the data blocks have in the place of every payload, and zeros
beyond the end of a block. -/
def reread (blocks : List Bytes) : Node → Node :=
  map header fun h payload =>
    Bytes.padTo payload.length ((blocks[h.blockIndex]?.getD []).drop h.offset.toNat)

variable {blocks : List Bytes}

theorem Backed.within {node : Node} (hbacked : node.Backed blocks) : node.Within blocks := by
  cases node with
  | branch h cs => exact trivial
  | leaf h payload =>
      obtain ⟨block, hblock, hslice⟩ := backed_leaf_iff.mp hbacked
      exact ⟨block, hblock, (Bytes.slice?_bounds hslice).2⟩

/-- A leaf within its block has the payload that is read there. -/
theorem Within.backed_reread {node : Node} (hwithin : node.Within blocks)
    (hsize : node.SizeFits) : (node.reread blocks).Backed blocks := by
  cases node with
  | branch h cs => exact trivial
  | leaf h payload =>
      obtain ⟨block, hblock, hstop⟩ := hwithin
      have hsize : h.size.toNat = payload.length := hsize
      have hroom : payload.length ≤ (block.drop h.offset.toNat).length := by
        rw [Header.stop] at hstop
        rw [List.length_drop]
        omega
      refine backed_leaf_iff.mpr ⟨block, hblock, ?_⟩
      show Bytes.slice? block h.offset.toNat h.stop = some (Bytes.padTo _ _)
      rw [Bytes.slice?, if_pos ⟨Nat.le_add_right _ _, hstop⟩, Header.stop, Nat.add_sub_cancel_left,
        hsize, hblock, Option.getD_some, Bytes.padTo, Nat.sub_eq_zero_of_le hroom]
      simp [Bytes.zeros]

theorem sizeFits_reread {node : Node} : (node.reread blocks).SizeFits ↔ node.SizeFits := by
  cases node with
  | leaf h payload =>
      show h.size.toNat = (Bytes.padTo _ _).length ↔ h.size.toNat = payload.length
      rw [Bytes.padTo_length]
  | branch h cs =>
      show h.size.toNat = tableLengths (mapAll _ _ cs) ↔ h.size.toNat = tableLengths cs
      rw [tableLengths_mapAll]

end Node

/-! ## Parsing the table with other blocks -/

namespace Forest

/-- The forest with the bytes that the data blocks have in the place of every payload. -/
def reread (blocks : List Bytes) : Forest → Forest :=
  map Node.header fun h payload =>
    Bytes.padTo payload.length ((blocks[h.blockIndex]?.getD []).drop h.offset.toNat)

variable {forest other : Forest} {blocks : List Bytes}

theorem table_reread (blocks : List Bytes) (forest : Forest) :
    (forest.reread blocks).table = forest.table :=
  table_map (fun n => ⟨n.header.size, rfl⟩) (fun _ _ => Bytes.padTo_length _ _) forest

theorem get?_reread (blocks : List Bytes) (forest : Forest) (path : Path) :
    (forest.reread blocks).get? path = (forest.get? path).map (Node.reread blocks) :=
  forest.get?_map path

/-- There are blocks that every leaf lies within. -/
theorem exists_blocks_within : ∃ blocks : List Bytes, ∀ node : Node, node.Within blocks := by
  obtain ⟨length, hlength⟩ : ∃ length, 2 ^ 33 ≤ length := ⟨2 ^ 33, Nat.le_refl _⟩
  refine ⟨List.replicate 4 (Bytes.zeros length), fun node => ?_⟩
  cases node with
  | branch h cs => exact trivial
  | leaf h payload =>
      refine ⟨Bytes.zeros length, ?_, ?_⟩
      · rw [List.getElem?_replicate, if_pos h.blockIndex_lt]
      · have hoffset := h.offset.toNat_lt
        have hsize := h.size.toNat_lt
        rw [Bytes.zeros_length, Header.stop]
        omega

/-- Where all leaves lie within the blocks, the table is parsed with what is read there. -/
theorem Regular.parse_reread (hregular : forest.Regular)
    (hwithin : ∀ e ∈ forest.walk, e.2.Within blocks) {table padding : Bytes}
    (htable : table = forest.table ++ padding) (hpadding : IsPadding padding) :
    parse table blocks = .ok (forest.reread blocks) := by
  refine parse_eq_ok.mpr ⟨⟨padding, ?_, hpadding⟩, readable_iff_walk.mpr ?_⟩
  · rw [table_reread, htable]
  · rintro ⟨path, node⟩ he
    obtain ⟨n, hn, rfl⟩ := mem_walk_map.mp he
    obtain ⟨hflag, hsize, hdepth⟩ := hregular _ hn
    exact ⟨(Node.flagFits_map fun n => ⟨n.header.size, rfl⟩).mpr hflag,
      Node.sizeFits_reread.mpr hsize, (hwithin _ hn).backed_reread hsize, hdepth⟩

section Padded

variable (hregular : forest.Regular) {table padding : Bytes}
  (htable : table = forest.table ++ padding) (hpadding : IsPadding padding)

include hregular htable hpadding

/-- A forest that is parsed from the table of another one has a leaf with the same header wherever
that one has a leaf. -/
theorem Regular.leaf_of_parse (hparse : parse table blocks = .ok other) {path : Path} {h : Header}
    {x : Bytes} (hleaf : forest.get? path = some (.leaf h x)) :
    ∃ y, other.get? path = some (.leaf h y) := by
  obtain ⟨⟨padding', htable', hpadding'⟩, hreadable⟩ := parse_eq_ok.mp hparse
  have hread := readable_iff_walk.mp hreadable
  have hother : other.Regular := fun e he => ⟨(hread e he).1, (hread e he).2.1, (hread e he).2.2.2⟩
  -- with blocks that are large enough both forests are read from the one table
  obtain ⟨large, hlarge⟩ := exists_blocks_within
  have hforest := hregular.parse_reread (fun e _ => hlarge e.2) htable hpadding
  have hsame := hother.parse_reread (fun e _ => hlarge e.2) htable' hpadding'
  rw [hforest, Except.ok.injEq] at hsame
  have hget := congrArg (get? · path) hsame
  simp only [get?_reread, hleaf, Option.map_some] at hget
  obtain ⟨node, hnode, hheader⟩ := Option.map_eq_some_iff.mp hget.symm
  cases node with
  | branch k cs => cases hheader
  | leaf k y =>
      obtain rfl : k = h := (Node.leaf.inj hheader).1
      exact ⟨y, hnode⟩

/-- **The table of a forest is parsed exactly if every leaf lies within its block**, and then with
the payloads that are read there. -/
theorem Regular.parse_padded_eq_ok :
    parse table blocks = .ok other ↔
      (∀ e ∈ forest.walk, e.2.Within blocks) ∧ other = forest.reread blocks := by
  have hreread : (∀ e ∈ forest.walk, e.2.Within blocks) →
      parse table blocks = .ok (forest.reread blocks) := fun hwithin =>
    hregular.parse_reread hwithin htable hpadding
  constructor
  · intro hparse
    have hwithin : ∀ e ∈ forest.walk, e.2.Within blocks := by
      rintro ⟨path, node⟩ he
      cases node with
      | branch h cs => exact trivial
      | leaf h x =>
          obtain ⟨y, hy⟩ := hregular.leaf_of_parse htable hpadding hparse (mem_walk.mp he)
          have hbacked := (readable_iff_walk.mp (parse_eq_ok.mp hparse).2 _ (mem_walk.mpr hy)).2.2.1
          exact hbacked.within
    have hsame := hparse.symm.trans (hreread hwithin)
    exact ⟨hwithin, Except.ok.inj hsame⟩
  · rintro ⟨hwithin, rfl⟩
    exact hreread hwithin

end Padded

/-- The same for the table as it is written. -/
theorem Regular.parse_table_eq_ok (hregular : forest.Regular) :
    parse forest.table blocks = .ok other ↔
      (∀ e ∈ forest.walk, e.2.Within blocks) ∧ other = forest.reread blocks :=
  hregular.parse_padded_eq_ok (List.append_nil _).symm isPadding_nil

end Forest

end ChunkArchive
