import ChunkArchive.Proofs.Archive.Coherence

/-!
# Runs of edits

An archive that has been loaded or built from a forest is edited any number of times. It stays
coherent, every leaf holds what was put into it last, and whenever the archive is saved it opens
again with the forest that it has (`Archive.Edits.keeps_in_step`).
-/

set_option autoImplicit false

namespace ChunkArchive

namespace Archive

/-! ## Archives that can be kept -/

/-- The dictionary of the archive can be written and read again, and its first block is a table of
its forest. -/
structure Kept (a : Archive) : Prop where
  savable : a.dictionary.Savable
  names : ∀ name ∈ a.frame.names, 0 ∉ Utf8.encode name
  forest : readForest (a.blocks.map Block.bytes) = .ok a.forest

theorem kept_of_load {codec : Codec} {strict : Bool} {pair : FilePair} {a : Archive}
    (h : load codec strict pair = .ok a) : a.Kept := by
  have hsound := sound_of_load h
  obtain ⟨d, hd, -, hframe, hblocks, -, -⟩ := load_eq_ok.mp h
  refine ⟨(Dictionary.savable_of_load hd).1.congr ?_ ?_ ?_, hsound.names, hsound.forest⟩
  · show (a.blocks.map Block.descriptor).length = d.blocks.length
    rw [hblocks, List.length_map, List.length_map]
  · exact congrArg Frame.tableReferences hframe
  · exact congrArg Frame.names hframe

/-- A coherent archive whose first block is the table of its forest reads as this forest. -/
theorem Coherent.readForest {a : Archive} (hc : a.Coherent)
    (htable : a.blocks.map Block.bytes = a.forest.table :: a.dataBlocks) :
    readForest (a.blocks.map Block.bytes) = .ok a.forest := by
  rw [htable]
  refine Forest.parse_eq_ok.mpr ⟨⟨[], (List.append_nil _).symm, Forest.isPadding_nil⟩, ?_⟩
  exact Forest.readable_iff_walk.mpr hc.fits

theorem Kept.edited {a b : Archive} {path : Path} {h : Header} {payload : Bytes} {moves : List Move}
    {block : Block} (hk : a.Kept) (he : Edited a path h payload moves block b) (hb : b.Coherent) :
    b.Kept := by
  refine ⟨hk.savable.congr ?_ ?_ ?_, ?_, hb.readForest he.head_blocks⟩
  · show (b.blocks.map Block.descriptor).length = (a.blocks.map Block.descriptor).length
    rw [List.length_map, List.length_map, he.length_blocks]
  · exact congrArg Frame.tableReferences he.frame
  · exact congrArg Frame.names he.frame
  · rw [he.frame]
    exact hk.names

/-! ### Archives built from a forest -/

theorem length_place_le {blocks : List Bytes} (h : blocks.length ≤ 4) (node : Node) :
    (Forest.place blocks node).length ≤ 4 := by
  cases node with
  | branch k cs => exact h
  | leaf k payload =>
      have hlt := k.blockIndex_lt
      rw [Forest.place, List.length_modify, List.length_append, List.length_replicate]
      omega

theorem length_layOut_le (forest : Forest) : (forest.layOut 0).length ≤ 4 := by
  have hall : ∀ (nodes : List Node) (blocks : List Bytes), blocks.length ≤ 4 →
      (nodes.foldl Forest.place blocks).length ≤ 4 := by
    intro nodes
    induction nodes with
    | nil => exact fun blocks h => h
    | cons node nodes ih => exact fun blocks h => ih _ (length_place_le h node)
  exact hall _ _ (by simp)

theorem kept_ofForest {forest : Forest} {compressed : Bool}
    (hc : (ofForest forest compressed).Coherent) :
    (ofForest forest compressed).Kept := by
  have hblocks : ((ofForest forest compressed).blocks.map Block.descriptor).length < 256 := by
    have hle := length_layOut_le forest
    simp only [ofForest, List.length_map, List.length_cons]
    omega
  refine ⟨⟨hblocks, ?_, ?_, ?_⟩, fun name hname => ?_, hc.readForest rfl⟩
  · show 0 / Dictionary.tableReferenceSize < 256
    decide
  · show 0 < 256
    decide
  · show 0 % Dictionary.tableReferenceSize = 0
    decide
  · cases hname

/-! ## Saving a coherent archive -/

/-- **A coherent archive that is kept can be saved in either mode, and is opened with the same
forest**, if every block and the data file stay below 4 GiB. -/
theorem Kept.save_load {a : Archive} (hk : a.Kept) (hfaults : a.faults = []) (codec : Codec)
    (level : Nat) (compressed : Bool) (hblocks : ∀ x ∈ a.blocks, x.bytes.length < 2 ^ 32)
    (hdata : (((a.setCompressed compressed).stored codec level).flatMap Prod.snd).length < 2 ^ 32) :
    ∃ saved, (a.setCompressed compressed).save codec level = .ok saved
      ∧ ∀ strict, ∃ c, load codec strict saved = .ok c ∧ c.forest = a.forest := by
  have hsound : (a.setCompressed compressed).Sound codec :=
    ⟨sound_of_faults_eq_nil hfaults hblocks, hk.names, hk.forest⟩
  obtain ⟨ds, hds⟩ :
      ∃ ds, assignOffsets 0 0 ((a.setCompressed compressed).stored codec level) = .ok ds :=
    assignOffsets_isOk (by omega)
  have hlen : ds.length = a.blocks.length := by
    rw [← (places_of_assignOffsets hds).length_eq, stored, List.length_map]
    rfl
  have hsavable : Dictionary.Savable { (a.setCompressed compressed).frame with blocks := ds } := by
    refine hk.savable.congr ?_ rfl rfl
    show ds.length = (a.blocks.map Block.descriptor).length
    rw [hlen, List.length_map]
  have hsave : (a.setCompressed compressed).save codec level = .ok ⟨_, _⟩ :=
    save_eq_ok.mpr ⟨ds, hds, Dictionary.save_eq_ok.mpr ⟨hsavable, rfl⟩, rfl⟩
  refine ⟨_, hsave, fun strict => ?_⟩
  have hfit : ∀ s ∈ (a.setCompressed compressed).stored codec level, s.2.length < 2 ^ 32 := by
    intro s hs
    exact (length_le_of_mem_stored hs).trans_lt hdata
  obtain ⟨b, hb, hload⟩ := load_save hsound hfit hsave
  have hnone : b.faults = [] := by
    rw [hb.faults]
    have hfaults : (a.setCompressed compressed).faults = [] := hfaults
    rw [hfaults, ite_self]
  exact ⟨b, hload strict fun _ => hnone, hb.forest⟩

/-! ## Runs -/

/-- The archive has been loaded, or built from a forest. -/
def Obtained (codec : Codec) (a : Archive) : Prop :=
  (∃ strict pair, load codec strict pair = .ok a)
    ∨ ∃ forest compressed, a = ofForest forest compressed

/-- Edits one after the other, each of a leaf that is not empty when its turn comes. -/
inductive Edits : Archive → List (Path × Bytes) → Archive → Prop
  | nil (a : Archive) : Edits a [] a
  | cons {a b c : Archive} {path : Path} {payload : Bytes} {edits : List (Path × Bytes)}
      {h : Header} {old : Bytes}
      (target : a.forest.get? path = some (.leaf h old)) (nonempty : old ≠ [])
      (step : a.setPayload path payload = .ok b) (rest : Edits b edits c) :
      Edits a ((path, payload) :: edits) c

/-- What has been put last into the leaf at `q`, which held `original` before. -/
def lastSet (edits : List (Path × Bytes)) (q : Path) (original : Option Bytes) : Option Bytes :=
  edits.foldl (fun held edit => if q = edit.1 then some edit.2 else held) original

/-- What a run of edits keeps. -/
theorem Edits.keeps {a b : Archive} {edits : List (Path × Bytes)} (hrun : Edits a edits b)
    (hc : a.Coherent) (hk : a.Kept) :
    b.Coherent ∧ b.Kept ∧ ∀ q, (b.forest.leaf? q).map Prod.snd
      = lastSet edits q ((a.forest.leaf? q).map Prod.snd) := by
  induction hrun with
  | nil a => exact ⟨hc, hk, fun q => rfl⟩
  | cons target nonempty step _ ih =>
      have htarget := Forest.leaf?_eq_some.mpr target
      obtain ⟨moves, block, he⟩ := edited_of_setPayload htarget step
      -- coherence is what the next edit needs, and it passes from one to the next
      have hcoherent := he.coherent hc htarget nonempty
      obtain ⟨hlast, hkept, hpayloads⟩ := ih hcoherent (hk.edited he hcoherent)
      refine ⟨hlast, hkept, fun q => ?_⟩
      rw [hpayloads q, he.payload?_edited htarget (he.moved_leaf hc.inStep) q]
      rfl

/-- **A run of edits keeps forest, blocks and table in step.** A coherent archive that has been
loaded or built from a forest is coherent after every run of edits of leaves that are not empty,
and each of its leaves holds what was put into it last. While every block and the data file stay
below 4 GiB it can be saved in either mode and is opened again with the forest that it has. -/
theorem Edits.keeps_in_step {codec : Codec} {a b : Archive} {edits : List (Path × Bytes)}
    (hobtained : Obtained codec a) (hc : a.Coherent) (hrun : Edits a edits b) :
    b.Coherent
      ∧ (∀ q, (b.forest.get? q).bind Node.payload?
          = lastSet edits q ((a.forest.get? q).bind Node.payload?))
      ∧ ∀ level compressed, (∀ x ∈ b.blocks, x.bytes.length < 2 ^ 32) →
          (((b.setCompressed compressed).stored codec level).flatMap Prod.snd).length < 2 ^ 32 →
          ∃ saved, (b.setCompressed compressed).save codec level = .ok saved
            ∧ ∀ strict, ∃ c, load codec strict saved = .ok c ∧ c.forest = b.forest := by
  have hk : a.Kept := by
    rcases hobtained with ⟨strict, pair, hload⟩ | ⟨forest, compressed, rfl⟩
    · exact kept_of_load hload
    · exact kept_ofForest hc
  obtain ⟨hcoherent, hkept, hpayloads⟩ := hrun.keeps hc hk
  refine ⟨hcoherent, fun q => ?_, fun level compressed hblocks hdata => ?_⟩
  · rw [Forest.payload?_get?, Forest.payload?_get?, hpayloads q]
  · exact hkept.save_load hcoherent.undamaged codec level compressed hblocks hdata

/-- The first leaf of a block is given more bytes, so that the three others move, then another one
none. -/
theorem Edits.keeps_in_step_two_edits :
    let archive (x y : Bytes) (i j k : UInt32) (data : Bytes) : Archive :=
      let forest : Forest := ⟨[.ofChildren 1 0 0 [.ofPayload 5 0 i x, .ofPayload 6 0 0 y,
        .ofPayload 7 0x0100 j [6, 7, 8]], .ofPayload 8 0 k []]⟩
      ⟨{ isCompressed := true }, [⟨⟨0, 60, 60, 0, (0, 0, 0)⟩, forest.table, none⟩,
        ⟨⟨0, UInt32.ofNat data.length, 11, 0, (0, 0, 0)⟩, data, none⟩], forest⟩
    let a := archive [4, 5] [1, 2] 4 8 6 [1, 2, 0, 0, 4, 5, 0, 0, 6, 7, 8]
    let b := archive [] [9, 9, 9, 9, 9] 8 16 12
      [9, 9, 9, 9, 9, 0, 0, 4, 0, 6, 7, 8, 0, 0, 6, 7, 6, 7, 8]
    let edits := [(⟨0, [1]⟩, [9, 9, 9, 9, 9]), (⟨0, [0]⟩, [])]
    Obtained Codec.deflate a ∧ a.Coherent ∧ Edits a edits b
      ∧ (∀ x ∈ b.blocks, x.bytes.length < 2 ^ 32)
      ∧ (((b.setCompressed true).stored Codec.deflate 0).flatMap Prod.snd).length < 2 ^ 32
      ∧ b.Coherent ∧ (b.forest.get? ⟨0, [2]⟩).bind Node.payload? = some [6, 7, 8]
      ∧ ∃ saved, (b.setCompressed true).save Codec.deflate 0 = .ok saved
        ∧ ∀ strict, ∃ c, load Codec.deflate strict saved = .ok c ∧ c.forest = b.forest := by
  intro archive a b edits
  have hobtained : Obtained Codec.deflate a := Or.inr ⟨a.forest, true, by decide +kernel⟩
  have hc : a.Coherent := ⟨by decide +kernel, by decide +kernel, by decide +kernel⟩
  let mid := archive [4, 5] [9, 9, 9, 9, 9] 8 16 12
    [9, 9, 9, 9, 9, 0, 0, 4, 4, 5, 0, 6, 7, 8, 0, 0, 6, 7, 8]
  have hgrown : a.forest.moves ⟨0, [1]⟩ ⟨6, 0, 0, 2⟩ 5 = .ok [
      ⟨⟨0, [0]⟩, .ofPayload 5 0 4 [4, 5], 8⟩,
    ⟨⟨1, []⟩, .ofPayload 8 0 6 [], 12⟩, ⟨⟨0, [2]⟩, .ofPayload 7 0x0100 8 [6, 7, 8], 16⟩] := by cbv
  have hshrunk : mid.forest.moves ⟨0, [0]⟩ ⟨5, 0, 8, 2⟩ 0 = .ok [
      ⟨⟨1, []⟩, .ofPayload 8 0 12 [], 12⟩,
    ⟨⟨0, [2]⟩, .ofPayload 7 0x0100 16 [6, 7, 8], 16⟩] := by cbv
  have hfirst : a.setPayload ⟨0, [1]⟩ [9, 9, 9, 9, 9] = .ok mid :=
    (setPayload_of_moves rfl rfl rfl rfl (by decide) hgrown).trans (by decide +kernel)
  have hsecond : mid.setPayload ⟨0, [0]⟩ [] = .ok b :=
    (setPayload_of_moves rfl rfl rfl rfl (by decide) hshrunk).trans (by decide +kernel)
  have hrun : Edits a edits b :=
    .cons rfl (List.cons_ne_nil 1 [2]) hfirst
      (.cons rfl (List.cons_ne_nil 4 [5]) hsecond (.nil b))
  have hblocks : ∀ x ∈ b.blocks, x.bytes.length < 2 ^ 32 := by decide +kernel
  have hdata :
      (((b.setCompressed true).stored Codec.deflate 0).flatMap Prod.snd).length < 2 ^ 32 := by
    decide +kernel
  obtain ⟨hcoherent, hpayloads, hsave⟩ := Edits.keeps_in_step hobtained hc hrun
  exact ⟨hobtained, hc, hrun, hblocks, hdata, hcoherent, hpayloads ⟨0, [2]⟩,
    hsave 0 true hblocks hdata⟩

end Archive

end ChunkArchive
