import ChunkArchive.Proofs.Chunk.Map
import ChunkArchive.Proofs.Chunk.Update

/-!
# Writing a forest and parsing it again

The table of a forest has the size of every body, whatever the headers say, and its blocks hold
every payload at its offset, unless leaves of one block disagree about a byte. So what is parsed
from the two is the forest with its sizes recomputed (`Forest.resized`). In particular a forest
whose sizes are right is parsed as it is, and the sizes that an insertion has left behind on the
way to its place are put right (`Forest.parse_table_layOut`).
-/

set_option autoImplicit false

namespace ChunkArchive

/-! ## Sizes recomputed -/

namespace Node

/-- What the size in the header is the size of. -/
def bodyLength : Node → Nat
  | .leaf _ payload => payload.length
  | .branch _ cs => tableLengths cs

/-- The chunk with the size of every header recomputed from the body. -/
def resized : Node → Node :=
  map (fun node => { node.header with size := UInt32.ofNat node.bodyLength }) fun _ payload => payload

theorem header_resized (node : Node) :
    ∃ size, { node.header with size := UInt32.ofNat node.bodyLength } = { node.header with size } :=
  ⟨_, rfl⟩

theorem flagFits_resized {node : Node} : node.resized.FlagFits ↔ node.FlagFits :=
  flagFits_map header_resized

/-- A size that fits 32 bits is right once it has been recomputed. -/
theorem sizeFits_resized {node : Node} (h : node.bodyLength < 2 ^ 32) : node.resized.SizeFits := by
  cases node with
  | leaf k payload =>
      show (UInt32.ofNat payload.length).toNat = payload.length
      rw [bodyLength] at h
      rw [UInt32.toNat_ofNat']
      omega
  | branch k cs =>
      show (UInt32.ofNat (tableLengths cs)).toNat = tableLengths (mapAll _ _ cs)
      rw [bodyLength] at h
      rw [tableLengths_mapAll, UInt32.toNat_ofNat']
      omega

/-- A chunk with right sizes stays as it is. -/
theorem resized_eq_self {node : Node} {path : Path} (h : ∀ e ∈ node.walk path, e.2.SizeFits) :
    node.resized = node := by
  induction node generalizing path with
  | leaf k payload =>
      have hsize : (Node.leaf k payload).SizeFits := h _ (mem_walk_self _ path)
      show Node.leaf { k with size := UInt32.ofNat payload.length } payload = _
      rw [header_of_size hsize]
  | branch k cs ih =>
      have hsize : (Node.branch k cs).SizeFits := h _ (mem_walk_self _ path)
      have hcs : cs.map resized = cs := by
        refine (List.map_congr_left fun c hc => ?_).trans (List.map_id cs)
        obtain ⟨i, hi⟩ := List.mem_iff_getElem?.mp hc
        have hinside : ∀ e ∈ c.walk (path.child (0 + i)), e.2.SizeFits := by
          intro e he
          refine h e ?_
          rw [walk, List.mem_cons]
          exact Or.inr (mem_walkFrom.mpr ⟨i, c, hi, he⟩)
        exact ih c hc hinside
      show Node.branch { k with size := UInt32.ofNat (tableLengths cs) } (mapAll _ _ cs) = _
      rw [mapAll_eq_map, header_of_size hsize]
      exact congrArg (Node.branch k) hcs

/-! ### Lengths inside a chunk -/

theorem tableLength_le_of_mem {c : Node} {cs : List Node} (h : c ∈ cs) :
    c.tableLength ≤ tableLengths cs := by
  induction cs with
  | nil => cases h
  | cons d ds ih =>
      rw [tableLengths]
      rcases List.mem_cons.mp h with rfl | h
      · omega
      · have := ih h
        omega

theorem tableLength_le_of_follow? {node n : Node} {steps : List Nat}
    (h : node.follow? steps = some n) : n.tableLength ≤ node.tableLength := by
  induction steps generalizing node with
  | nil =>
      rw [follow?_nil, Option.some.injEq] at h
      rw [h]
  | cons i steps ih =>
      cases node with
      | leaf k payload => cases h
      | branch k cs =>
          rw [follow?_branch_cons, Option.bind_eq_some_iff] at h
          obtain ⟨c, hc, h⟩ := h
          have hle := ih h
          have hmem := tableLength_le_of_mem (List.mem_of_getElem? hc)
          rw [tableLength]
          omega

end Node

namespace Forest

/-- The forest with the size of every header recomputed from the body. -/
def resized : Forest → Forest :=
  map (fun node => { node.header with size := UInt32.ofNat node.bodyLength }) fun _ payload => payload

theorem table_resized (forest : Forest) : forest.resized.table = forest.table :=
  table_map Node.header_resized (fun _ _ => rfl) forest

theorem get?_resized (forest : Forest) (path : Path) :
    forest.resized.get? path = (forest.get? path).map Node.resized := forest.get?_map path

/-- The walk through the resized forest meets the resized chunks. -/
theorem mem_walk_resized {forest : Forest} {path : Path} {node : Node} :
    (path, node) ∈ forest.resized.walk ↔ ∃ n, (path, n) ∈ forest.walk ∧ n.resized = node :=
  mem_walk_map

theorem tableLength_le_of_mem_walk {forest : Forest} {path : Path} {node : Node}
    (h : (path, node) ∈ forest.walk) : node.tableLength ≤ forest.table.length := by
  rw [mem_walk, get?, Option.bind_eq_some_iff] at h
  obtain ⟨root, hroot, h⟩ := h
  have hle := Node.tableLength_le_of_follow? h
  have hmem := Node.tableLength_le_of_mem (List.mem_of_getElem? hroot)
  rw [table, Node.length_tableBytesOf]
  omega

/-- Where the table and all payloads are shorter than 4 GiB, so is every body. -/
theorem bodyLength_lt {forest : Forest} (htable : forest.table.length < 2 ^ 32)
    (hpayloads : ∀ e ∈ forest.walk, ∀ payload, e.2.payload? = some payload → payload.length < 2 ^ 32)
    {e : Path × Node} (he : e ∈ forest.walk) : e.2.bodyLength < 2 ^ 32 := by
  obtain ⟨path, node⟩ := e
  cases node with
  | leaf h payload => exact hpayloads _ he payload rfl
  | branch h cs =>
      have hle := tableLength_le_of_mem_walk he
      rw [Node.tableLength] at hle
      show Node.tableLengths cs < 2 ^ 32
      omega

/-- A forest with right sizes stays as it is. -/
theorem resized_eq_self {forest : Forest} (h : ∀ e ∈ forest.walk, e.2.SizeFits) :
    forest.resized = forest := by
  have hroots : forest.roots.map Node.resized = forest.roots := by
    refine (List.map_congr_left fun root hroot => ?_).trans (List.map_id forest.roots)
    obtain ⟨i, hi⟩ := List.mem_iff_getElem?.mp hroot
    have hinside : ∀ e ∈ root.walk (.ofRoot i), e.2.SizeFits := by
      intro e he
      refine h e ?_
      rw [walk, List.mem_flatMap]
      exact ⟨(root, i), List.mk_mem_zipIdx_iff_getElem?.mpr hi, he⟩
    exact Node.resized_eq_self hinside
  rw [resized, map, Node.mapAll_eq_map]
  exact congrArg Forest.mk hroots

/-- A chunk in which all sizes are right is the same in the resized forest. -/
theorem get?_resized_of_fits {forest : Forest} {path : Path} {node : Node}
    (h : forest.get? path = some node) (hfits : ∀ e ∈ node.walk path, e.2.SizeFits) :
    forest.resized.get? path = some node := by
  rw [get?_resized, h, Option.map_some, Node.resized_eq_self hfits]

end Forest

/-! ## Payloads in the blocks -/

/-- Leaves of one data block have the same byte wherever they overlap. -/
def Node.Agree : Node → Node → Prop
  | .leaf h x, .leaf k y => h.blockIndex = k.blockIndex →
    ∀ i < x.length, ∀ j < y.length, h.offset.toNat + i = k.offset.toNat + j → x[i]? = y[j]?
  | _, _ => True

instance : DecidableRel Node.Agree
  | .leaf h x, .leaf k y => inferInstanceAs (Decidable (h.blockIndex = k.blockIndex →
    ∀ i < x.length, ∀ j < y.length, h.offset.toNat + i = k.offset.toNat + j → x[i]? = y[j]?))
  | .leaf _ _, .branch _ _ => isTrue trivial
  | .branch _ _, .leaf _ _ => isTrue trivial
  | .branch _ _, .branch _ _ => isTrue trivial

namespace Forest

/-- The payload lies in its data block at the offset of the header. -/
def Holds (blocks : List Bytes) (h : Header) (x : Bytes) : Prop :=
  ∃ block, blocks[h.blockIndex]? = some block
    ∧ Bytes.slice? block h.offset.toNat (h.offset.toNat + x.length) = some x

theorem Holds.backed_resized {blocks : List Bytes} {h : Header} {x : Bytes}
    (hholds : Holds blocks h x) (hsize : (Node.leaf h x).resized.SizeFits) :
    (Node.leaf h x).resized.Backed blocks := by
  obtain ⟨block, hblock, hslice⟩ := hholds
  refine Node.backed_leaf_iff.mpr ⟨block, hblock, ?_⟩
  have hsize : (UInt32.ofNat x.length).toNat = x.length := hsize
  show Bytes.slice? block h.offset.toNat (h.offset.toNat + (UInt32.ofNat x.length).toNat) = some x
  rw [hsize, hslice]

/-- A placed leaf gets the block that it is written into, and all blocks there were are kept. -/
theorem getElem?_place (blocks : List Bytes) (k : Header) (y : Bytes) :
    (place blocks (.leaf k y))[k.blockIndex]?
        = some (Bytes.overwrite (blocks[k.blockIndex]?.getD []) k.offset.toNat y)
      ∧ ∀ (i : Nat) (block : Bytes), blocks[i]? = some block → i ≠ k.blockIndex →
        (place blocks (.leaf k y))[i]? = some block := by
  rw [place]
  constructor
  · rw [List.getElem?_modify_eq]
    by_cases hlt : k.blockIndex < blocks.length
    · rw [List.getElem?_append_left hlt, List.getElem?_eq_getElem hlt]
      rfl
    · rw [List.getElem?_append_right (by omega), List.getElem?_replicate, if_pos (by omega),
        List.getElem?_eq_none (by omega)]
      rfl
  · intro i block hblock hne
    have hlt := (List.getElem?_eq_some_iff.mp hblock).1
    rw [List.getElem?_modify_ne _ _ hne.symm, List.getElem?_append_left hlt, hblock]

theorem holds_place_self (blocks : List Bytes) (h : Header) (x : Bytes) :
    Holds (place blocks (.leaf h x)) h x :=
  ⟨_, (getElem?_place blocks h x).1, Bytes.slice?_overwrite _ _ _⟩

/-- A leaf that agrees leaves a payload where it is. -/
theorem Holds.place {blocks : List Bytes} {h : Header} {x : Bytes} (hholds : Holds blocks h x)
    {node : Node} (hagree : (Node.leaf h x).Agree node) : Holds (place blocks node) h x := by
  cases node with
  | branch k cs => exact hholds
  | leaf k y =>
      obtain ⟨block, hblock, hslice⟩ := hholds
      obtain ⟨hsame, hothers⟩ := getElem?_place blocks k y
      by_cases heq : h.blockIndex = k.blockIndex
      · rw [← heq, hblock] at hsame
        exact ⟨_, hsame, Bytes.slice?_overwrite_of_agree hslice (hagree heq)⟩
      · exact ⟨block, hothers _ _ hblock heq, hslice⟩

/-- Of leaves that agree with each other each one's payload is there in the end, and so is what
was there before and agrees with them. -/
theorem holds_places {nodes : List Node} {blocks : List Bytes} (hagree : nodes.Pairwise Node.Agree) :
    (∀ h x, Holds blocks h x → (∀ n ∈ nodes, (Node.leaf h x).Agree n) →
        Holds (nodes.foldl place blocks) h x)
      ∧ ∀ h x, Node.leaf h x ∈ nodes → Holds (nodes.foldl place blocks) h x := by
  induction nodes generalizing blocks with
  | nil => exact ⟨fun h x hholds _ => hholds, fun h x hmem => (List.not_mem_nil hmem).elim⟩
  | cons n ns ih =>
      obtain ⟨hfirst, hothers⟩ := List.pairwise_cons.mp hagree
      obtain ⟨hkept, hplaced⟩ := @ih (place blocks n) hothers
      refine ⟨fun h x hholds hall => ?_, fun h x hmem => ?_⟩
      · obtain ⟨hn, hns⟩ := List.forall_mem_cons.mp hall
        exact hkept h x (hholds.place hn) hns
      · rcases List.mem_cons.mp hmem with rfl | hmem
        · exact hkept h x (holds_place_self blocks h x) hfirst
        · exact hplaced h x hmem

/-- Where all leaves agree, the blocks hold every payload. -/
theorem holds_layOut {forest : Forest} (hagree : forest.walk.Pairwise fun e f => e.2.Agree f.2)
    (count : Nat) {path : Path} {h : Header} {x : Bytes} (hmem : (path, .leaf h x) ∈ forest.walk) :
    Holds (forest.layOut count) h x :=
  (holds_places (List.pairwise_map.mpr hagree)).2 h x (List.mem_map_of_mem hmem)

end Forest

/-! ## How far the blocks reach

A block that is missing counts as an empty one. -/

namespace Forest

theorem getD_place (blocks : List Bytes) (k : Header) (y : Bytes) (i : Nat) :
    (place blocks (.leaf k y))[i]?.getD []
      = if i = k.blockIndex then Bytes.overwrite (blocks[i]?.getD []) k.offset.toNat y
        else blocks[i]?.getD [] := by
  by_cases hi : i = k.blockIndex
  · rw [if_pos hi, hi, (getElem?_place blocks k y).1]
    rfl
  · rw [if_neg hi, place, List.getElem?_modify_ne _ _ (Ne.symm hi)]
    by_cases hlt : i < blocks.length
    · rw [List.getElem?_append_left hlt]
    · rw [List.getElem?_append_right (by omega), List.getElem?_replicate,
        List.getElem?_eq_none (by omega)]
      split <;> rfl

theorem lt_length_places {nodes : List Node} {blocks : List Bytes} {i : Nat} :
    i < (nodes.foldl place blocks).length ↔
      i < blocks.length ∨ ∃ h x, Node.leaf h x ∈ nodes ∧ i ≤ h.blockIndex := by
  induction nodes generalizing blocks with
  | nil => simp
  | cons n ns ih =>
      rw [List.foldl_cons, ih]
      cases n with
      | branch k cs => simp [place]
      | leaf k y =>
          rw [place, List.length_modify, List.length_append, List.length_replicate]
          simp only [List.mem_cons, Node.leaf.injEq]
          constructor
          · rintro (h | ⟨h, x, hmem, hi⟩)
            · by_cases hk : i ≤ k.blockIndex
              · exact Or.inr ⟨k, y, Or.inl ⟨rfl, rfl⟩, hk⟩
              · exact Or.inl (by omega)
            · exact Or.inr ⟨h, x, Or.inr hmem, hi⟩
          · rintro (h | ⟨h, x, ⟨rfl, rfl⟩ | hmem, hi⟩)
            · exact Or.inl (by omega)
            · exact Or.inl (by omega)
            · exact Or.inr ⟨h, x, hmem, hi⟩

/-- A block reaches as far as its leaves. -/
theorem lt_length_getD_places {nodes : List Node} {blocks : List Bytes} {i n : Nat} :
    n < ((nodes.foldl place blocks)[i]?.getD []).length ↔ n < (blocks[i]?.getD []).length
      ∨ ∃ h x, Node.leaf h x ∈ nodes ∧ h.blockIndex = i ∧ n < h.offset.toNat + x.length := by
  induction nodes generalizing blocks with
  | nil => simp
  | cons m ns ih =>
      rw [List.foldl_cons, ih]
      cases m with
      | branch k cs => simp [place]
      | leaf k y =>
          have hplace : n < ((place blocks (.leaf k y))[i]?.getD []).length ↔
              n < (blocks[i]?.getD []).length
                ∨ k.blockIndex = i ∧ n < k.offset.toNat + y.length := by
            rw [getD_place]
            by_cases hi : i = k.blockIndex
            · rw [if_pos hi, Bytes.length_overwrite, lt_max_iff]
              simp [hi]
            · rw [if_neg hi]
              simp [Ne.symm hi]
          rw [hplace]
          simp only [List.mem_cons, Node.leaf.injEq]
          constructor
          · rintro ((h | h) | ⟨h, x, hmem, hx⟩)
            · exact Or.inl h
            · exact Or.inr ⟨k, y, Or.inl ⟨rfl, rfl⟩, h⟩
            · exact Or.inr ⟨h, x, Or.inr hmem, hx⟩
          · rintro (h | ⟨h, x, ⟨rfl, rfl⟩ | hmem, hx⟩)
            · exact Or.inl (Or.inl h)
            · exact Or.inl (Or.inr hx)
            · exact Or.inr ⟨h, x, hmem, hx⟩

/-- Bytes that no leaf has are as they were. -/
theorem getD_places_of_outside {nodes : List Node} {blocks : List Bytes} {i n : Nat}
    (houtside : ∀ h x, Node.leaf h x ∈ nodes → h.blockIndex = i →
      n < h.offset.toNat ∨ h.offset.toNat + x.length ≤ n) :
    ((nodes.foldl place blocks)[i]?.getD [])[n]?.getD 0 = (blocks[i]?.getD [])[n]?.getD 0 := by
  induction nodes generalizing blocks with
  | nil => rfl
  | cons m ns ih =>
      rw [List.foldl_cons, ih fun h x hmem => houtside h x (List.mem_cons_of_mem m hmem)]
      cases m with
      | branch k cs => rfl
      | leaf k y =>
          rw [getD_place]
          split
          · next hi =>
              exact Bytes.getD_overwrite_of_outside (houtside k y (List.mem_cons_self ..) hi.symm)
          · rfl

theorem mem_walk_leaf {forest : Forest} {h : Header} {x : Bytes} :
    Node.leaf h x ∈ forest.walk.map Prod.snd ↔ ∃ q, forest.leaf? q = some (h, x) := by
  simp only [List.mem_map, Prod.exists, exists_eq_right, mem_walk, leaf?_eq_some]

section LayOut

variable {forest : Forest} {i n : Nat}

/-- There are no more blocks than the leaves ask for. -/
theorem lt_length_layOut :
    i < (forest.layOut 0).length ↔ ∃ q h x, forest.leaf? q = some (h, x) ∧ i ≤ h.blockIndex := by
  rw [layOut, lt_length_places]
  simp only [mem_walk_leaf, List.replicate_zero, List.length_nil, Nat.not_lt_zero, false_or]
  constructor
  · rintro ⟨h, x, ⟨q, hq⟩, hi⟩
    exact ⟨q, h, x, hq, hi⟩
  · rintro ⟨q, h, x, hq, hi⟩
    exact ⟨h, x, ⟨q, hq⟩, hi⟩

theorem lt_length_getD_layOut :
    n < ((forest.layOut 0)[i]?.getD []).length ↔ ∃ q h x, forest.leaf? q = some (h, x)
      ∧ h.blockIndex = i ∧ n < h.offset.toNat + x.length := by
  rw [layOut, lt_length_getD_places]
  simp only [mem_walk_leaf, List.replicate_zero, List.getElem?_nil, Option.getD_none,
    List.length_nil, Nat.not_lt_zero, false_or]
  constructor
  · rintro ⟨h, x, ⟨q, hq⟩, hx⟩
    exact ⟨q, h, x, hq, hx⟩
  · rintro ⟨q, h, x, hq, hx⟩
    exact ⟨h, x, ⟨q, hq⟩, hx⟩

/-- There are zeros between the leaves. -/
theorem getD_layOut_of_outside (houtside : ∀ q h x, forest.leaf? q = some (h, x) →
      h.blockIndex = i → n < h.offset.toNat ∨ h.offset.toNat + x.length ≤ n) :
    ((forest.layOut 0)[i]?.getD [])[n]?.getD 0 = 0 := by
  rw [layOut, getD_places_of_outside]
  · rfl
  · intro h x hmem hblock
    obtain ⟨q, hq⟩ := mem_walk_leaf.mp hmem
    exact houtside q h x hq hblock

end LayOut

end Forest

/-! ## Insertion -/

namespace Node

/-- Puts chunks into a branch, before the one at position `i`. The header is left as it is. -/
def insertInside (i : Nat) (new : List Node) : Node → Node
  | .leaf h payload => .leaf h payload
  | .branch h cs => .branch h (cs.take i ++ new ++ cs.drop i)

theorem mem_inserted {c : Node} {i : Nat} {new cs : List Node}
    (h : c ∈ cs.take i ++ new ++ cs.drop i) : c ∈ new ∨ c ∈ cs := by
  rw [List.mem_append, List.mem_append] at h
  rcases h with (h | h) | h
  · exact Or.inr (List.mem_of_mem_take h)
  · exact Or.inl h
  · exact Or.inr (List.mem_of_mem_drop h)

/-- Of the sizes inside a chunk, an insertion leaves wrong at most those on the way to its place. -/
theorem sizeFits_of_insertion {i : Nat} {new : List Node}
    (hnew : ∀ c ∈ new, ∀ q n, c.follow? q = some n → n.SizeFits) {node : Node} {steps : List Nat}
    (hnode : ∀ q n, q ≠ [] → node.follow? q = some n → n.SizeFits) {q : List Nat} {n : Node}
    (hn : (node.update (insertInside i new) steps).follow? q = some n) :
    q <+: steps ∨ n.SizeFits := by
  cases q with
  | nil => exact Or.inl List.nil_prefix
  | cons j q =>
      induction steps generalizing node j q with
      | nil =>
          cases node with
          | leaf h payload => cases hn
          | branch h cs =>
              rw [update, insertInside, follow?_branch_cons, Option.bind_eq_some_iff] at hn
              obtain ⟨c, hc, hn⟩ := hn
              refine Or.inr ?_
              rcases mem_inserted (List.mem_of_getElem? hc) with hmem | hmem
              · exact hnew c hmem q n hn
              · obtain ⟨k, hk⟩ := List.mem_iff_getElem?.mp hmem
                refine hnode (k :: q) n (List.cons_ne_nil k q) ?_
                rw [follow?_branch_cons, hk, Option.bind_some, hn]
      | cons k steps ih =>
          cases node with
          | leaf h payload => cases hn
          | branch h cs =>
              rw [update, follow?_branch_cons, List.getElem?_modify, Option.bind_eq_some_iff] at hn
              obtain ⟨c, hc, hn⟩ := hn
              obtain ⟨d, hd, rfl⟩ := Option.map_eq_some_iff.mp hc
              have hbelow : ∀ r m, d.follow? r = some m → m.SizeFits := by
                intro r m hm
                refine hnode (j :: r) m (List.cons_ne_nil j r) ?_
                rw [follow?_branch_cons, hd, Option.bind_some, hm]
              by_cases hjk : k = j
              · subst hjk
                rw [if_pos rfl] at hn
                rw [List.cons_prefix_cons]
                cases q with
                | nil => exact Or.inl ⟨rfl, List.nil_prefix⟩
                | cons l q =>
                    rcases ih (fun r m _ hm => hbelow r m hm) _ _ hn with hle | hfits
                    · exact Or.inl ⟨rfl, hle⟩
                    · exact Or.inr hfits
              · rw [if_neg hjk] at hn
                exact Or.inr (hbelow q n hn)

end Node

namespace Forest

theorem sizeFits_of_insertion {original : Forest} {path : Path} {i : Nat} {new : List Node}
    (horiginal : ∀ e ∈ original.walk, e.2.SizeFits)
    (hnew : ∀ c ∈ new, ∀ e ∈ c.walk path, e.2.SizeFits) {e : Path × Node}
    (he : e ∈ (original.update path (Node.insertInside i new)).walk) :
    e.1.positions <+: path.positions ∨ e.2.SizeFits := by
  -- the roots are looked at as what is inside a branch
  have hinside : ((Node.branch default original.roots).update (Node.insertInside i new)
      path.positions).follow? e.1.positions = some e.2 := mem_walk.mp he
  refine Node.sizeFits_of_insertion (fun c hc q n hn => ?_) (fun q n hq hn => ?_) hinside
  · exact hnew c hc _ (Node.mem_walk.mpr ⟨q, rfl, hn⟩)
  · cases q with
    | nil => exact absurd rfl hq
    | cons r steps => exact horiginal (⟨r, steps⟩, n) (mem_walk.mpr hn)

/-- All chunks but those on the way to the place of an insertion are the same in the resized
forest. -/
theorem get?_resized_of_insertion {original : Forest} {path : Path} {i : Nat} {new : List Node}
    (horiginal : ∀ e ∈ original.walk, e.2.SizeFits)
    (hnew : ∀ c ∈ new, ∀ e ∈ c.walk path, e.2.SizeFits) {q : Path} {node : Node}
    (hq : (original.update path (Node.insertInside i new)).get? q = some node)
    (haway : ¬ q.positions <+: path.positions) :
    (original.update path (Node.insertInside i new)).resized.get? q = some node := by
  refine get?_resized_of_fits hq fun e he => ?_
  obtain ⟨p, n⟩ := e
  obtain ⟨steps, rfl, hn⟩ := Node.mem_walk.mp he
  have hmem := mem_walk.mpr ((get?_append _ q steps).trans (by rw [hq, Option.bind_some, hn]))
  rcases sizeFits_of_insertion horiginal hnew hmem with hle | hfits
  · exact absurd ((List.prefix_append q.positions steps).trans hle) haway
  · exact hfits

/-! ## The round trip -/

/-- **What is written is parsed again with its sizes recomputed**, whatever number of blocks is
asked for. All sizes are right then, a forest whose sizes were right is the same, and after an
insertion only headers on the way to its place are other ones. -/
theorem parse_table_layOut {forest : Forest} (hflags : ∀ e ∈ forest.walk, e.2.FlagFits)
    (hdepth : ∀ e ∈ forest.walk, e.1.depth ≤ maxDepth) (htable : forest.table.length < 2 ^ 32)
    (hpayloads : ∀ e ∈ forest.walk, ∀ payload, e.2.payload? = some payload → payload.length < 2 ^ 32)
    (hagree : forest.walk.Pairwise fun e f => e.2.Agree f.2) (count : Nat) :
    parse forest.table (forest.layOut count) = .ok forest.resized
      ∧ (∀ e ∈ forest.resized.walk, e.2.SizeFits)
      ∧ ((∀ e ∈ forest.walk, e.2.SizeFits) → forest.resized = forest)
      ∧ ∀ (original : Forest) (path : Path) (i : Nat) (new : List Node),
          forest = original.update path (Node.insertInside i new) →
          (∀ e ∈ original.walk, e.2.SizeFits) → (∀ c ∈ new, ∀ e ∈ c.walk path, e.2.SizeFits) →
          ∀ q node, forest.get? q = some node → ¬ q.positions <+: path.positions →
            forest.resized.get? q = some node := by
  have hsizes : ∀ e ∈ forest.resized.walk, e.2.SizeFits := by
    rintro ⟨path, node⟩ he
    obtain ⟨n, hn, rfl⟩ := mem_walk_resized.mp he
    exact Node.sizeFits_resized (bodyLength_lt htable hpayloads hn)
  refine ⟨?_, hsizes, resized_eq_self, ?_⟩
  · refine parse_eq_ok.mpr ⟨⟨[], ?_, isPadding_nil⟩, readable_iff_walk.mpr ?_⟩
    · rw [table_resized, List.append_nil]
    · rintro ⟨path, node⟩ he
      have hsize := hsizes _ he
      obtain ⟨n, hn, rfl⟩ := mem_walk_resized.mp he
      refine ⟨Node.flagFits_resized.mpr (hflags _ hn), hsize, ?_, hdepth (path, n) hn⟩
      cases n with
      | branch h cs => exact trivial
      | leaf h payload => exact (holds_layOut hagree count hn).backed_resized hsize
  · rintro original path i new rfl horiginal hnew q node hq haway
    exact get?_resized_of_insertion horiginal hnew hq haway

/-- Two chunks are inserted two levels down. One overlaps a leaf and agrees with it, the other is
empty and lies behind the end of its block. -/
theorem parse_table_layOut_inserted :
    let forest (inner outer : UInt32) (new : List Node) : Forest :=
      ⟨[.branch ⟨1, 0x8000, 0, outer⟩ [.branch ⟨2, 0x8000, 0, inner⟩ new, .ofPayload 5 0 2 [7, 8]]]⟩
    let new : List Node := [.ofPayload 6 0 3 [8, 9], .ofPayload 7 0x1000 4 []]
    let stale := forest 0 24 new
    (∀ e ∈ stale.walk, e.2.FlagFits) ∧ (∀ e ∈ stale.walk, e.1.depth ≤ maxDepth)
      ∧ stale.table.length < 2 ^ 32
      ∧ (∀ e ∈ stale.walk, ∀ payload, e.2.payload? = some payload → payload.length < 2 ^ 32)
      ∧ (stale.walk.Pairwise fun e f => e.2.Agree f.2)
      ∧ stale = (forest 0 24 []).update ⟨0, [0]⟩ (Node.insertInside 0 new)
      ∧ parse stale.table (stale.layOut 3) = .ok (forest 24 48 new)
      ∧ stale.resized.get? ⟨0, [0, 1]⟩ = some (.ofPayload 7 0x1000 4 []) := by
  intro forest new stale
  have hflags : ∀ e ∈ stale.walk, e.2.FlagFits := by decide
  have hdepth : ∀ e ∈ stale.walk, e.1.depth ≤ maxDepth := by decide
  have htable : stale.table.length < 2 ^ 32 := by decide
  have hpayloads : ∀ e ∈ stale.walk, ∀ payload, e.2.payload? = some payload →
      payload.length < 2 ^ 32 := by
    intro e he payload hpayload
    have hall : ∀ e ∈ stale.walk, (e.2.payload?.getD []).length < 2 ^ 32 := by decide
    have hlt := hall e he
    rwa [hpayload] at hlt
  have hagree : stale.walk.Pairwise fun e f => e.2.Agree f.2 := by decide
  have hinserted : stale = (forest 0 24 []).update ⟨0, [0]⟩ (Node.insertInside 0 new) := by decide
  obtain ⟨hparse, -, -, hkept⟩ := parse_table_layOut hflags hdepth htable hpayloads hagree 3
  have hresized : stale.resized = forest 24 48 new := by decide
  rw [hresized] at hparse
  exact ⟨hflags, hdepth, htable, hpayloads, hagree, hinserted, hparse,
    hkept _ _ _ _ hinserted (by decide) (by decide) _ _ rfl (by decide)⟩

end Forest

end ChunkArchive
