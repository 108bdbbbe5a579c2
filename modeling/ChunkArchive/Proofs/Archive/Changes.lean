import ChunkArchive.Archive.InPlace
import ChunkArchive.Proofs.Archive.Overlap

/-!
# What changes keep

Flags and sizes that fit the bodies fit them after every change, however deep the chunks lie and
whether or not leaves overlap (`Change.fitting_apply`). Damaged blocks stay as they are, but for the
first one, which gets the new table of the forest all the same (`Change.keeps_run`).
-/

set_option autoImplicit false

namespace ChunkArchive

/-! ## Fitting forests -/

/-- Every chunk has a flag and a size that fit its body. -/
def Forest.Fitting (forest : Forest) : Prop :=
  ∀ e ∈ forest.walk, e.2.FlagFits ∧ e.2.SizeFits

namespace Forest.Fitting

variable {forest : Forest} {path : Path} {h : Header}

theorem flags (hf : forest.Fitting) : ∀ e ∈ forest.walk, e.2.FlagFits := fun e he => (hf e he).1

theorem leaf (hf : forest.Fitting) {payload : Bytes}
    (hleaf : forest.leaf? path = some (h, payload)) :
    h.hasChildren = false ∧ h.size.toNat = payload.length :=
  hf _ (mem_walk.mpr (leaf?_eq_some.mp hleaf))

theorem branch (hf : forest.Fitting) {n : Nat} (hbranch : forest.branch? path = some (h, n)) :
    h.hasChildren = true ∧ h.size.toNat = n := by
  obtain ⟨cs, hget, rfl⟩ := branch?_eq_some.mp hbranch
  exact hf _ (mem_walk.mpr hget)

/-- It is enough to look at leaves and branches one by one. -/
theorem of_views (hleaf : ∀ path h payload, forest.leaf? path = some (h, payload) →
      h.hasChildren = false ∧ h.size.toNat = payload.length)
    (hbranch : ∀ path h n, forest.branch? path = some (h, n) →
      h.hasChildren = true ∧ h.size.toNat = n) : forest.Fitting := by
  rintro ⟨path, node⟩ he
  rcases get?_cases (mem_walk.mp he) with ⟨h, x, rfl, hx⟩ | ⟨h, cs, rfl, hcs⟩
  · exact hleaf path h x hx
  · exact hbranch path h _ hcs

end Forest.Fitting

theorem Forest.get?_of_resolve {forest : Forest} {path : Path} {node : Node}
    (h : forest.resolve path = .ok node) : forest.get? path = some node := by
  unfold resolve at h
  cases hget : forest.get? path with
  | none =>
      rw [hget] at h
      cases h
  | some found =>
      rw [hget] at h
      rw [Except.ok.inj h]

namespace Archive

variable {a b : Archive} {path : Path} {payload : Bytes}

theorem mem_faults {a : Archive} {index : Nat} {damage : Damage} :
    (index, damage) ∈ a.faults ↔
      ∃ x, a.blocks[index]? = some x ∧ x.damage = some damage := by
  rw [faults, List.mem_filterMap]
  constructor
  · rintro ⟨⟨x, i⟩, hx, hdamage⟩
    obtain ⟨damage', hdamage', heq⟩ := Option.map_eq_some_iff.mp hdamage
    obtain ⟨rfl, rfl⟩ := Prod.mk.inj heq
    exact ⟨x, List.mk_mem_zipIdx_iff_getElem?.mp hx, hdamage'⟩
  · rintro ⟨x, hx, hdamage⟩
    exact ⟨(x, index), List.mk_mem_zipIdx_iff_getElem?.mpr hx,
      congrArg (Option.map fun damage => (index, damage)) hdamage⟩

theorem fitting_of_load {codec : Codec} {strict : Bool} {pair : FilePair}
    (h : load codec strict pair = .ok a) : a.forest.Fitting := by
  intro e he
  obtain ⟨hflag, hsize, -⟩ := fits_of_load h e he
  exact ⟨hflag, hsize⟩

/-- An edit that is carried out is one of a leaf in a block without damage. -/
theorem target_of_setPayload (hset : a.setPayload path payload = .ok b) :
    ∃ h old moves block, a.forest.leaf? path = some (h, old) ∧ block.damage = none
      ∧ Edited a path h payload moves block b := by
  obtain ⟨target, hresolve, hrest⟩ := Outcome.bind_eq_ok.mp hset
  obtain ⟨hkind, hrest⟩ := Outcome.unless_eq_ok.mp hrest
  have hget := Forest.get?_of_resolve hresolve
  cases target with
  | branch h cs => simp [Node.payload?] at hkind
  | leaf h old =>
      have hleaf := Forest.leaf?_eq_some.mpr hget
      obtain ⟨moves, block, he⟩ := edited_of_setPayload hleaf hset
      refine ⟨h, old, moves, block, hleaf, ?_, he⟩
      have hfound : a.blocks[1 + (Node.leaf h old).header.blockIndex]? = some block := he.found
      simp only [hfound] at hrest
      obtain ⟨hdamage, -⟩ := Outcome.unless_eq_ok.mp hrest
      simpa using hdamage

/-- Flags and sizes fit after an edit where they did so before. -/
theorem Edited.fitting {h : Header} {old : Bytes} {moves : List Move} {block : Block}
    (he : Edited a path h payload moves block b) (hf : a.forest.Fitting)
    (htarget : a.forest.leaf? path = some (h, old)) : b.forest.Fitting := by
  have hleaves := he.leaf?_of_moved hf.flags
  rw [he.forest]
  apply Forest.Fitting.of_views
  · intro q k x hq
    rcases Forest.leaf?_edited_cases he.plan htarget hleaves hq with
      ⟨rfl, rfl, rfl⟩ | ⟨m, -, rfl, k₀, -, hk₀, rfl⟩ | ⟨-, -, hk⟩
    · obtain ⟨hflag, -⟩ := hf.leaf htarget
      exact ⟨hflag, UInt32.toNat_ofNat_of_lt' he.short⟩
    · obtain ⟨hflag, hsize⟩ := hf.leaf hk₀
      exact ⟨hflag, hsize⟩
    · exact hf.leaf hk
  · intro q k n hq
    rw [Forest.branch?_edited he.plan htarget hleaves] at hq
    exact hf.branch hq

/-! ## The length of the table -/

theorem length_table_update {forest : Forest} {change : Node → Node} {h h' : Header}
    {x x' : Bytes} (hchange : change (.leaf h x) = .leaf h' x')
    (hleaf : forest.leaf? path = some (h, x)) :
    (forest.update path change).table.length = forest.table.length := by
  obtain ⟨root, hroot, hfollow⟩ :=
    Option.bind_eq_some_iff.mp (Forest.leaf?_eq_some.mp hleaf)
  rw [Forest.table, Forest.table, Node.length_tableBytesOf, Node.length_tableBytesOf]
  exact Node.tableLengths_modify hroot (Node.tableLength_update hchange hfollow)

theorem length_table_shifts {forest : Forest} {moves : List Move}
    (hleaf : ∀ m ∈ moves, ∃ e, forest.leaf? m.path = some e)
    (hdistinct : (moves.map Move.path).Nodup) :
    (moves.foldl Forest.shift forest).table.length = forest.table.length := by
  induction moves generalizing forest with
  | nil => rfl
  | cons first moves ih =>
      rw [List.map_cons, List.nodup_cons] at hdistinct
      have hothers := Forest.leaf?_shift_others (hleaf first (by simp)) hdistinct.1
      obtain ⟨⟨h, x⟩, hfirst⟩ := hleaf first (by simp)
      have hlength : (forest.shift first).table.length = forest.table.length :=
        length_table_update rfl hfirst
      rw [List.foldl_cons, ih ?_ hdistinct.2, hlength]
      intro m hm
      rw [hothers m hm]
      exact hleaf m (by simp [hm])

namespace Edited

variable {h : Header} {old : Bytes} {moves : List Move} {block : Block}

/-- An edit changes headers of the table, but adds none and takes none away. -/
theorem length_table (he : Edited a path h payload moves block b) (hf : a.forest.Fitting)
    (htarget : a.forest.leaf? path = some (h, old)) :
    b.forest.table.length = a.forest.table.length := by
  have hleaves := he.leaf?_of_moved hf.flags
  have hstay := (Forest.leaf?_shifts hleaves he.plan.distinct).1 path
    (he.plan.target_not_mem htarget)
  rw [he.forest, Forest.edited_eq, length_table_update rfl (hstay.trans htarget),
    length_table_shifts hleaves he.plan.distinct]

/-- A block that is neither the first nor the one of the target stays as it is. -/
theorem block_of_ne (he : Edited a path h payload moves block b) {i : Nat} (hzero : i ≠ 0)
    (hne : i ≠ 1 + h.blockIndex) : b.blocks[i]? = a.blocks[i]? := by
  rw [he.blocks, List.getElem?_modify_ne _ _ (Ne.symm hzero),
    List.getElem?_modify_ne _ _ (Ne.symm hne)]

/-- The first block holds the new table, whatever it held before. -/
theorem block_zero (he : Edited a path h payload moves block b) {x : Block}
    (hx : a.blocks[0]? = some x) : b.blocks[0]? = some (x.withBytes b.forest.table) := by
  have hne : 1 + h.blockIndex ≠ 0 := by omega
  rw [he.blocks, List.getElem?_modify_eq, List.getElem?_modify_ne _ _ hne, hx]
  rfl

end Edited

end Archive

/-! ## Changes one after the other -/

namespace Change

/-- What a change leaves behind fits. -/
theorem fitting_apply {a b : Archive} {c : Change} (h : c.apply a = .ok b)
    (hf : a.forest.Fitting) : b.forest.Fitting := by
  cases c with
  | payload path bytes =>
      obtain ⟨k, old, moves, block, htarget, -, he⟩ := Archive.target_of_setPayload h
      exact he.fitting hf htarget
  | storage compressed =>
      obtain rfl := Except.ok.inj h
      exact hf

def isEdit : Change → Bool
  | .payload _ _ => true
  | .storage _ => false

/-- What changes keep of an archive, `edits` saying whether there are edits among them: damaged
blocks but for the first one, which holds the table of the forest once there has been an edit. -/
structure Keeps (edits : Bool) (a b : Archive) : Prop where
  names : b.frame.names = a.frame.names
  damage : b.blocks.map Block.damage = a.blocks.map Block.damage
  others : ∀ i x, a.blocks[i]? = some x → x.damage.isSome → i ≠ 0 → b.blocks[i]? = some x
  first : ∀ x, a.blocks[0]? = some x →
    ∃ y, b.blocks[0]? = some y ∧ y.bytes = if edits then b.forest.table else x.bytes
  forest : edits = false → b.forest = a.forest
  table : b.forest.table.length = a.forest.table.length

/-- Everything is kept where only the mode changes. -/
theorem Keeps.of_same {a b : Archive} (hnames : b.frame.names = a.frame.names)
    (hblocks : b.blocks = a.blocks) (hforest : b.forest = a.forest) : Keeps false a b where
  names := hnames
  damage := by rw [hblocks]
  others i x hx _ _ := by rw [hblocks, hx]
  first x hx := ⟨x, by rw [hblocks, hx], rfl⟩
  forest _ := hforest
  table := by rw [hforest]

theorem Keeps.trans {edits edits' : Bool} {a b c : Archive} (h : Keeps edits a b)
    (h' : Keeps edits' b c) : Keeps (edits || edits') a c where
  names := h'.names.trans h.names
  damage := h'.damage.trans h.damage
  others i x hx hdamage hi := h'.others i x (h.others i x hx hdamage hi) hdamage hi
  first x hx := by
    obtain ⟨y, hy, hbytes⟩ := h.first x hx
    obtain ⟨z, hz, hbytes'⟩ := h'.first y hy
    refine ⟨z, hz, ?_⟩
    cases edits' with
    | true => rw [hbytes', Bool.or_true, if_pos rfl, if_pos rfl]
    | false =>
        -- the forest is the one that the earlier changes have led to
        rw [hbytes', if_neg Bool.false_ne_true, hbytes, h'.forest rfl, Bool.or_false]
  forest hedits := by
    obtain ⟨hfirst, hsecond⟩ := Bool.or_eq_false_iff.mp hedits
    rw [h'.forest hsecond, h.forest hfirst]
  table := h'.table.trans h.table

/-- What a single change keeps. -/
theorem keeps_apply {a b : Archive} {c : Change} (h : c.apply a = .ok b)
    (hf : a.forest.Fitting) : Keeps c.isEdit a b := by
  cases c with
  | payload path bytes =>
      obtain ⟨k, old, moves, block, htarget, hsound, he⟩ := Archive.target_of_setPayload h
      refine ⟨congrArg Frame.names he.frame, he.damage, ?_, ?_, nofun, he.length_table hf htarget⟩
      · intro i x hx hdamage hi
        rw [he.block_of_ne hi, hx]
        -- the block of the target is not damaged
        rintro rfl
        rw [he.found] at hx
        obtain rfl := Option.some.inj hx
        rw [hsound] at hdamage
        cases hdamage
      · exact fun x hx => ⟨_, he.block_zero hx, rfl⟩
  | storage compressed =>
      obtain rfl := Except.ok.inj h
      exact .of_same rfl rfl rfl

/-- What a run of changes keeps. -/
theorem keeps_run {changes : List Change} {a b : Archive}
    (h : changes.foldlM (fun a c => c.apply a) a = .ok b) (hf : a.forest.Fitting) :
    Keeps (changes.any isEdit) a b := by
  induction changes generalizing a with
  | nil =>
      obtain rfl := Outcome.pure_eq_ok.mp h
      exact .of_same rfl rfl rfl
  | cons c changes ih =>
      rw [List.foldlM_cons] at h
      obtain ⟨mid, hmid, h⟩ := Outcome.bind_eq_ok.mp h
      exact (keeps_apply hmid hf).trans (ih h (fitting_apply hmid hf))

end Change

end ChunkArchive
