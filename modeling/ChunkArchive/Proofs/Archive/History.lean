import ChunkArchive.Proofs.Archive.Changes
import ChunkArchive.Proofs.Chunk.LayOut

/-!
# The history of an archive

An archive of a forest that has been built goes through edits one after the other. What holds all
the way is compared with what holds of each single edit (`Archive.throughout_iff`).
-/

set_option autoImplicit false

namespace ChunkArchive

/-! ## Forests that have been built -/

/-- The chunk and all chunks inside it have headers that have been made for their bodies. -/
inductive Node.Built : Node → Prop
  | leaf (typeId flags : UInt16) (offset : UInt32) (payload : Bytes) :
      Built (.ofPayload typeId flags offset payload)
  | branch (typeId flags : UInt16) (offset : UInt32) {children : List Node}
      (inside : ∀ c ∈ children, Built c) : Built (.ofChildren typeId flags offset children)

namespace Node.Built

theorem follow? {node n : Node} {steps : List Nat} (hbuilt : node.Built)
    (h : node.follow? steps = some n) : n.Built := by
  induction steps generalizing node with
  | nil =>
      rw [follow?_nil, Option.some.injEq] at h
      exact h ▸ hbuilt
  | cons i steps ih =>
      cases hbuilt with
      | leaf typeId flags offset payload => cases h
      | branch typeId flags offset inside =>
          rw [ofChildren, follow?_branch_cons, Option.bind_eq_some_iff] at h
          obtain ⟨c, hc, h⟩ := h
          exact ih (inside c (List.mem_of_getElem? hc)) h

theorem flagFits {node : Node} (hbuilt : node.Built) : node.FlagFits := by
  cases hbuilt with
  | leaf typeId flags offset payload =>
      have hclear : (flags &&& ~~~Header.childrenFlag) &&& Header.childrenFlag = 0 := by
        rw [UInt16.and_assoc]
        exact UInt16.and_zero
      simp [ofPayload, FlagFits, Header.hasChildren, hclear]
  | branch typeId flags offset inside =>
      have hset : (flags ||| Header.childrenFlag) &&& Header.childrenFlag
          = Header.childrenFlag := by
        apply UInt16.toBitVec_inj.mp
        rw [UInt16.toBitVec_and, UInt16.toBitVec_or]
        ext i hi
        rw [BitVec.getElem_and, BitVec.getElem_or]
        cases flags.toBitVec[i] <;> simp
      show decide ((flags ||| Header.childrenFlag) &&& Header.childrenFlag ≠ 0) = true
      rw [hset]
      rfl

theorem size_eq {node : Node} (hbuilt : node.Built) :
    node.header.size = UInt32.ofNat node.bodyLength := by
  cases hbuilt <;> rfl

end Node.Built

def Forest.Built (forest : Forest) : Prop := ∀ root ∈ forest.roots, root.Built

namespace Forest.Built

variable {forest : Forest}

theorem of_mem_walk (hbuilt : forest.Built) {e : Path × Node} (he : e ∈ forest.walk) :
    e.2.Built := by
  obtain ⟨root, hroot, hfollow⟩ := Option.bind_eq_some_iff.mp (mem_walk.mp he)
  exact (hbuilt root (List.mem_of_getElem? hroot)).follow? hfollow

theorem flags (hbuilt : forest.Built) : ∀ e ∈ forest.walk, e.2.FlagFits :=
  fun _ he => (hbuilt.of_mem_walk he).flagFits

/-- Sizes are right unless they are cut to 32 bits. -/
theorem sizeFits (hbuilt : forest.Built) {e : Path × Node} (he : e ∈ forest.walk)
    (hlt : e.2.bodyLength < 2 ^ 32) : e.2.SizeFits := by
  have hsize : e.2.header.size.toNat = e.2.bodyLength := by
    rw [(hbuilt.of_mem_walk he).size_eq, UInt32.toNat_ofNat']
    omega
  obtain ⟨path, node⟩ := e
  cases node with
  | leaf h x => exact hsize
  | branch h cs => exact hsize

end Forest.Built

/-! ## Edits one after the other -/

namespace Archive

theorem dataBlocks_ofForest (forest : Forest) (compressed : Bool) :
    (ofForest forest compressed).dataBlocks = forest.layOut 0 := by
  rw [dataBlocks, ofForest, List.map_cons, List.tail_cons, List.map_map]
  exact List.map_id _

/-- The archive after edits, each of which has to be carried out. -/
def setPayloads (a : Archive) (edits : List (Path × Bytes)) : Except Error Archive :=
  edits.foldlM (fun a e => a.setPayload e.1 e.2) a

/-- Something holds of an archive, and after every edit for as long as they are carried out. -/
def Throughout (holds : Archive → Prop) : Archive → List (Path × Bytes) → Prop
  | a, [] => holds a
  | a, (path, payload) :: edits =>
      holds a ∧ ∀ b, a.setPayload path payload = .ok b → Throughout holds b edits

/-- Something holds of every edit that is carried out, with the archives before and after it. -/
def OfEachEdit (holds : Archive → Path → Bytes → Archive → Prop) :
    Archive → List (Path × Bytes) → Prop
  | _, [] => True
  | a, (path, payload) :: edits => ∀ b, a.setPayload path payload = .ok b →
      holds a path payload b ∧ OfEachEdit holds b edits

section History

variable {invariant holds : Archive → Prop} {of : Archive → Path → Bytes → Archive → Prop}
  {a b : Archive} {edits : List (Path × Bytes)}

/-- What every edit keeps is kept by a run of them. -/
theorem keeps_of_setPayloads (ha : invariant a)
    (hstep : ∀ e ∈ edits, ∀ c d, invariant c → c.setPayload e.1 e.2 = .ok d → invariant d)
    (hrun : a.setPayloads edits = .ok b) : invariant b := by
  induction edits generalizing a with
  | nil => exact Outcome.pure_eq_ok.mp hrun ▸ ha
  | cons e edits ih =>
      rw [setPayloads, List.foldlM_cons] at hrun
      obtain ⟨c, hc, hrun⟩ := Outcome.bind_eq_ok.mp hrun
      obtain ⟨hfirst, hothers⟩ := List.forall_mem_cons.mp hstep
      exact ih (hfirst a c ha hc) hothers hrun

/-- Something holds all the way if it holds in the beginning and no edit makes it get lost. -/
theorem throughout_of (ha : invariant a) (hholds : holds a)
    (hstep : ∀ e ∈ edits, ∀ c d, invariant c → c.setPayload e.1 e.2 = .ok d →
      invariant d ∧ (holds c → of c e.1 e.2 d → holds d))
    (hof : OfEachEdit of a edits) : Throughout holds a edits := by
  induction edits generalizing a with
  | nil => exact hholds
  | cons e edits ih =>
      obtain ⟨hfirst, hothers⟩ := List.forall_mem_cons.mp hstep
      refine ⟨hholds, fun b hb => ?_⟩
      obtain ⟨hinvariant, hkept⟩ := hfirst a b ha hb
      obtain ⟨hedit, hrest⟩ := hof b hb
      exact ih hinvariant (hkept hholds hedit) hothers hrest

/-- Where it can be said of an edit exactly whether something gets lost, it holds all the way
exactly if it holds in the beginning and each edit is such that it does not. -/
theorem throughout_iff (ha : invariant a)
    (hstep : ∀ e ∈ edits, ∀ c d, invariant c → c.setPayload e.1 e.2 = .ok d →
      invariant d ∧ (holds c → (holds d ↔ of c e.1 e.2 d))) :
    Throughout holds a edits ↔ holds a ∧ OfEachEdit of a edits := by
  induction edits generalizing a with
  | nil => exact (and_iff_left trivial).symm
  | cons e edits ih =>
      obtain ⟨path, payload⟩ := e
      obtain ⟨hfirst, hothers⟩ := List.forall_mem_cons.mp hstep
      refine and_congr_right fun hholds => forall_congr' fun b => forall_congr' fun hb => ?_
      obtain ⟨hinvariant, hiff⟩ := hfirst a b ha hb
      rw [ih hinvariant hothers, hiff hholds]

end History

end Archive

end ChunkArchive
