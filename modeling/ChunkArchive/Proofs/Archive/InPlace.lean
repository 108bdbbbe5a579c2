import ChunkArchive.Proofs.Archive.Changes
import ChunkArchive.Proofs.InPlace

/-!
# Editing in place

The program that edits an archive in place does what `Archive.setPayload` says, and does nothing
where this fails (`Archive.run_setPayloadInPlace`): all that it refuses it refuses before the
first change, and no range that it copies lies outside. This needs flags and sizes that fit the
bodies, and changes keep these fitting, so that it holds after any run of them
(`Archive.setPayloadInPlace_all_or_nothing`).
-/

set_option autoImplicit false

namespace ChunkArchive

/-! ## Writing a table -/

theorem Header.write_eq (out : Bytes) (h : Header) : h.write out = .ok (out ++ h.bytes) := by
  have happend : ∀ {α : Type} (buffer bytes : Bytes) (next : Bytes → Except Stop α),
      (buffer.append bytes >>= next) = next (buffer ++ bytes) := fun _ _ _ => rfl
  simp only [Header.write, happend]
  simp only [Bytes.append, Header.bytes, List.append_assoc]

namespace Node

mutual

theorem write_eq (out : Bytes) : (node : Node) → node.write out = .ok (out ++ node.tableBytes)
  | .leaf h payload => by rw [write, Header.write_eq, tableBytes]
  | .branch h cs => by
      rw [write, Header.write_eq]
      refine (writeAll_eq _ cs).trans ?_
      rw [tableBytes, List.append_assoc]

/-- The table of the chunks is written behind what there is. -/
theorem writeAll_eq (out : Bytes) :
    (nodes : List Node) → writeAll out nodes = .ok (out ++ tableBytesOf nodes)
  | [] => by rw [writeAll, tableBytesOf, List.append_nil]
  | n :: ns => by
      rw [writeAll, write_eq]
      refine (writeAll_eq _ ns).trans ?_
      rw [tableBytesOf, List.append_assoc]

end

end Node

/-! ## Building a block -/

namespace Forest

section Rebuild

variable {forest : Forest} {path : Path} {h : Header} {old payload : Bytes} {moves : List Move}

/-- The moves are of leaves of the forest, whose sizes fit. -/
def OfLeaves (forest : Forest) (moves : List Move) : Prop :=
  ∀ m ∈ moves, forest.get? m.path = some m.node
    ∧ ∃ k x, m.node = .leaf k x ∧ k.size.toNat = x.length

/-- A moved leaf that ends within the buffer is written into it. -/
theorem copyMoved_eq {buffer : Bytes} {m : Move} (hmoves : forest.OfLeaves [m])
    (hstop : m.stop ≤ buffer.length) :
    forest.copyMoved buffer m = .ok (m.write buffer) := by
  obtain ⟨hget, k, x, hnode, hsize⟩ := hmoves m (List.mem_singleton_self m)
  rw [Move.stop, hnode, Node.header, hsize] at hstop
  rw [copyMoved, hget, Option.bind_some, Move.write, hnode]
  exact Bytes.copyInto_eq_overwrite hstop

theorem foldlM_copyMoved {buffer : Bytes} (hmoves : forest.OfLeaves moves)
    (hstops : ∀ m ∈ moves, m.stop ≤ buffer.length) :
    moves.foldlM forest.copyMoved buffer = .ok (moves.foldl Move.write buffer) := by
  induction moves generalizing buffer with
  | nil => rfl
  | cons m moves ih =>
      obtain ⟨hm, hothers⟩ := List.forall_mem_cons.mp hmoves
      obtain ⟨hstop, hstops⟩ := List.forall_mem_cons.mp hstops
      rw [List.foldlM_cons, copyMoved_eq (List.forall_mem_singleton.mpr hm) hstop]
      -- the buffer does not get shorter
      exact ih hothers fun n hn => (hstops n hn).trans (Move.length_le_write buffer m)

theorem movedStops_eq (hmoves : forest.OfLeaves moves) :
    (moves.filterMap fun m =>
        (forest.get? m.path).map fun node => m.offset + node.header.size.toNat)
      = moves.map Move.stop := by
  rw [← List.filterMap_eq_map]
  refine List.filterMap_congr fun m hm => ?_
  rw [(hmoves m hm).1]
  rfl

/-- **No range that is copied lies outside**, and the block is built as it should be. -/
theorem rebuild_eq {x : Bytes} (htarget : forest.leaf? path = some (h, x))
    (hmoves : forest.OfLeaves moves) :
    forest.rebuild path old payload moves = .ok (rebuildBlock old h payload moves) := by
  let head := old.take h.offset.toNat
  let gap := h.offset.toNat - old.length
  let tail := old.drop h.stop
  let movedStop := (moves.map Move.stop).foldl max 0
  have hhead : head.length = min h.offset.toNat old.length := List.length_take
  have hstart : min h.offset.toNat old.length + gap = h.offset.toNat := by omega
  have hlength : h.offset.toNat + payload.length + tail.length
      + (movedStop - (h.offset.toNat + payload.length + tail.length))
        = max (h.offset.toNat + payload.length + tail.length) movedStop := by omega
  have hpieces := Bytes.copy_pieces hhead hstart rfl hlength
  obtain ⟨first, hfirst, hpieces⟩ := Outcome.bind_eq_ok.mp hpieces
  obtain ⟨second, hsecond, hthird⟩ := Outcome.bind_eq_ok.mp hpieces
  unfold rebuild
  rw [Forest.leaf?_eq_some.mp htarget]
  simp only [movedStops_eq hmoves]
  refine Outcome.bind_eq_ok.mpr ⟨tail, Bytes.cut_behind old h.stop, ?_⟩
  refine Outcome.bind_eq_ok.mpr ⟨head, Bytes.cut_before old h.offset.toNat, ?_⟩
  refine Outcome.bind_eq_ok.mpr ⟨first, hfirst, ?_⟩
  refine Outcome.bind_eq_ok.mpr ⟨second, hsecond, ?_⟩
  refine Outcome.bind_eq_ok.mpr ⟨_, hthird, ?_⟩
  -- every moved leaf ends within the buffer
  have hbody : (head ++ Bytes.zeros gap ++ payload ++ tail).length
      = h.offset.toNat + payload.length + tail.length := by
    simp only [List.length_append, Bytes.zeros_length, hhead, hstart]
  refine (foldlM_copyMoved hmoves fun m hm => ?_).trans ?_
  · have hle : m.stop ≤ movedStop := le_foldl_max (List.mem_map_of_mem hm) 0
    rw [List.length_append, hbody, Bytes.zeros_length]
    omega
  · rw [← hbody]
    rfl

end Rebuild

end Forest

/-! ## Carrying out an edit -/

namespace Archive

theorem run_changeNode (path : Path) (change : Node → Node) (a : Archive) :
    (changeNode path change).run a = .ok () { a with forest := a.forest.update path change } := rfl

theorem run_setLength (index length : Nat) (a : Archive) :
    (setLength index length).run a = .ok () { a with blocks := a.blocks.modify index fun b =>
      { b with descriptor := { b.descriptor with unpackedSize := UInt32.ofNat length } } } := rfl

theorem run_changeNodes (moves : List Move) (a : Archive) :
    (moves.forM fun m => changeNode m.path fun node =>
        node.withHeader { node.header with offset := UInt32.ofNat m.offset }).run a
      = .ok () { a with forest := moves.foldl Forest.shift a.forest } := by
  induction moves generalizing a with
  | nil => rfl
  | cons m moves ih => exact (InPlace.run_bind_of_ok (run_changeNode ..)).trans (ih _)

theorem run_putBlock {a : Archive} {index : Nat} (h : index < a.blocks.length) (bytes : Bytes) :
    (putBlock index bytes).run a
      = .ok () { a with blocks := a.blocks.modify index fun b => { b with bytes } } := by
  refine (InPlace.run_bind_of_ok (InPlace.run_get a)).trans ?_
  rw [if_pos h]
  rfl

theorem run_refreshTable (a : Archive) :
    refreshTable.run a
      = .ok () { a with blocks := a.blocks.modify 0 (Block.withBytes a.forest.table) } := by
  refine (InPlace.run_bind_of_ok (InPlace.run_get a)).trans ?_
  rw [Node.writeAll_eq]
  refine (InPlace.run_bind_of_ok (InPlace.run_ofExcept_ok ..)).trans ?_
  refine (InPlace.run_bind_of_ok (run_setLength ..)).trans ?_
  -- the length comes first and the bytes second
  refine congrArg (fun blocks => EStateM.Result.ok () { a with blocks := blocks }) ?_
  exact List.modify_modify_eq ..

end Archive

/-- The archive after a planned edit. -/
def Edit.onto (e : Edit) (a : Archive) : Archive :=
  { a with
    forest := a.forest.edited e.path e.payload e.moves
    blocks := (a.blocks.modify e.index (Block.withBytes e.bytes)).modify 0
      (Block.withBytes (a.forest.edited e.path e.payload e.moves).table) }

namespace Archive

/-- A planned edit is carried out to its end. -/
theorem run_commit {a : Archive} {e : Edit} (h : e.index < a.blocks.length) :
    (commit e).run a = .ok () (e.onto a) := by
  refine (InPlace.run_bind_of_ok (run_changeNodes e.moves a)).trans ?_
  refine (InPlace.run_bind_of_ok (run_changeNode ..)).trans ?_
  refine (InPlace.run_bind_of_ok (run_putBlock (by exact h) e.bytes)).trans ?_
  refine (InPlace.run_bind_of_ok (run_setLength ..)).trans ?_
  refine (run_refreshTable _).trans ?_
  simp only [List.modify_modify_eq]
  rfl

/-! ## Planning an edit -/

theorem any_faults_iff {a : Archive} {index : Nat} :
    a.faults.any (·.1 = index) = true ↔
      ∃ x, a.blocks[index]? = some x ∧ x.damage.isSome := by
  simp only [List.any_eq_true, decide_eq_true_iff]
  constructor
  · rintro ⟨⟨i, damage⟩, hfault, rfl⟩
    obtain ⟨x, hx, hdamage⟩ := mem_faults.mp hfault
    exact ⟨x, hx, hdamage ▸ rfl⟩
  · rintro ⟨x, hx, hdamage⟩
    obtain ⟨damage, hdamage⟩ := Option.isSome_iff_exists.mp hdamage
    exact ⟨(index, damage), mem_faults.mpr ⟨x, hx, hdamage⟩, rfl⟩

/-- Moves of fitting forests are of leaves whose sizes fit. -/
theorem ofLeaves_of_plan {forest : Forest} (hf : forest.Fitting) {path : Path} {h : Header}
    {size : Nat} {moves : List Move} (hplan : forest.Plan path h size moves) :
    forest.OfLeaves moves := by
  intro m hm
  obtain ⟨hget, hfollows⟩ := hplan.following m hm
  refine ⟨hget, ?_⟩
  have hfits := hf _ (Forest.mem_walk.mpr hget)
  cases hnode : m.node with
  | leaf k x =>
      rw [hnode] at hfits
      exact ⟨k, x, rfl, hfits.2⟩
  | branch k cs =>
      -- the flag of a branch says that it is none that follows
      rw [hnode] at hfits hfollows
      have hflag : k.hasChildren = true := hfits.1
      simp [Forest.follows, Node.header, hflag] at hfollows

/-- A plan for an archive and what is to come of it agree: there is an edit and it leads there, or
both fail for the same reason. -/
def Agree (a : Archive) (plan : Except Stop Edit) (result : Except Error Archive) : Prop :=
  (∃ e, plan = .ok e ∧ e.index < a.blocks.length ∧ result = .ok (e.onto a))
    ∨ ∃ e, plan = .error (.refused e) ∧ result = .error e

namespace Agree

variable {a : Archive} {α : Type}

/-- Both make the same step first. -/
theorem bind {step : Except Error α} {plan : α → Except Stop Edit}
    {result : α → Except Error Archive} (h : ∀ r, step = .ok r → Agree a (plan r) (result r)) :
    Agree a (step.mapError .refused >>= plan) (step >>= result) := by
  cases step with
  | error e => exact Or.inr ⟨e, rfl, rfl⟩
  | ok r => exact h r rfl

/-- Both make the same check first. -/
theorem check {c : Prop} [Decidable c] {e : Error} {plan : Unit → Except Stop Edit}
    {result : Unit → Except Error Archive} (h : ¬ c → Agree a (plan ()) (result ())) :
    Agree a (if c then (Except.error (.refused e) >>= plan) else plan ())
      (if c then (Except.error e >>= result) else result ()) := by
  by_cases hc : c
  · rw [if_pos hc, if_pos hc]
    exact Or.inr ⟨e, rfl, rfl⟩
  · rw [if_neg hc, if_neg hc]
    exact h hc

end Agree

/-- **An edit is planned exactly when it can be made**, and otherwise refused for the reason that
there is against it. -/
theorem agree_planEdit {a : Archive} (hf : a.forest.Fitting) (path : Path) (payload : Bytes) :
    Agree a (a.planEdit path payload) (a.setPayload path payload) := by
  unfold planEdit setPayload
  refine Agree.bind fun target hresolve => Agree.check fun hkind => ?_
  obtain ⟨old, hold⟩ : ∃ old, target = .leaf target.header old := by
    cases target with
    | leaf h old => exact ⟨old, rfl⟩
    | branch h cs => simp [Node.payload?] at hkind
  have hleaf : a.forest.leaf? path = some (target.header, old) :=
    Forest.leaf?_eq_some.mpr (hold ▸ Forest.get?_of_resolve hresolve)
  -- one of them asks for damage before it looks whether there is such a block
  have hdamage : a.faults.any (·.1 = 1 + target.header.blockIndex)
      = (a.blocks[1 + target.header.blockIndex]?.any fun block => block.damage.isSome) := by
    rw [Bool.eq_iff_iff, any_faults_iff, Option.any_eq_true]
  dsimp only
  rw [hdamage]
  cases hblock : a.blocks[1 + target.header.blockIndex]? with
  | none => exact Or.inr ⟨_, rfl, rfl⟩
  | some block =>
      refine Agree.check fun _ => Agree.check fun hshort => Agree.bind fun moves hmoves => ?_
      have hplan := Forest.plan_of_moves hmoves
      rw [Forest.rebuild_eq hleaf (ofLeaves_of_plan hf hplan)]
      exact Or.inl ⟨_, rfl, (List.getElem?_eq_some_iff.mp hblock).1, rfl⟩

/-- **The program in place does what the edit says, or nothing.** -/
theorem run_setPayloadInPlace {a : Archive} (hf : a.forest.Fitting) (path : Path)
    (payload : Bytes) :
    (setPayloadInPlace path payload).run a
      = match a.setPayload path payload with
        | .ok b => .ok () b
        | .error e => .error (.refused e) a := by
  refine (InPlace.run_bind_of_ok (InPlace.run_get a)).trans ?_
  rcases agree_planEdit hf path payload with ⟨e, hplan, hindex, hset⟩ | ⟨e, hplan, hset⟩
  · rw [hplan, hset]
    exact (InPlace.run_bind_of_ok (InPlace.run_ofExcept_ok ..)).trans (run_commit hindex)
  · rw [hplan, hset]
    exact InPlace.run_bind_of_error (InPlace.run_ofExcept_error ..)

end Archive

/-! ## Runs of changes -/

namespace Change

/-- A change either is carried out, or is refused and leaves the archive as it is. -/
theorem leave_cases {a : Archive} (hf : a.forest.Fitting) (c : Change) :
    c.apply a = .ok (c.leave a) ∨ ∃ e, c.apply a = .error e ∧ c.leave a = a := by
  cases c with
  | storage compressed => exact Or.inl rfl
  | payload path bytes =>
      have hrun := Archive.run_setPayloadInPlace hf path bytes
      cases hset : a.setPayload path bytes with
      | ok b =>
          rw [hset] at hrun
          have hleave : (Change.payload path bytes).leave a = b := by rw [leave, program, hrun]
          exact Or.inl (hset.trans (by rw [hleave]))
      | error e =>
          rw [hset] at hrun
          exact Or.inr ⟨e, hset, by rw [leave, program, hrun]⟩

theorem fitting_leave {a : Archive} (hf : a.forest.Fitting) (c : Change) :
    (c.leave a).forest.Fitting := by
  rcases leave_cases hf c with h | ⟨e, -, h⟩
  · exact fitting_apply h hf
  · rw [h]
    exact hf

/-- After any run of changes flags and sizes fit. -/
theorem fitting_leaves {a : Archive} (hf : a.forest.Fitting) (changes : List Change) :
    (changes.foldl leave a).forest.Fitting := by
  induction changes generalizing a with
  | nil => exact hf
  | cons c changes ih => exact ih (fitting_leave hf c)

end Change

namespace Archive

/-- **Replacing a payload in place is all or nothing.** In an archive that has been loaded, or
built from a forest with flags and sizes that fit, and that has gone through any changes since,
also such as have been refused: the program does what `setPayload` says; where it stops the
archive is as it was, and it is for a reason against the call; when it has been planned it is
carried out to its end; and no range and no index lies outside. -/
theorem setPayloadInPlace_all_or_nothing {codec : Codec} {a : Archive}
    (hobtained : (∃ strict pair, load codec strict pair = .ok a)
      ∨ ∃ forest compressed, forest.Fitting ∧ a = ofForest forest compressed)
    (changes : List Change) (path : Path) (payload : Bytes) :
    let b := changes.foldl Change.leave a
    (∀ c, (setPayloadInPlace path payload).run b = .ok () c ↔ b.setPayload path payload = .ok c)
      ∧ (∀ stop c, (setPayloadInPlace path payload).run b = .error stop c →
          c = b ∧ ∃ e, stop = .refused e ∧ b.setPayload path payload = .error e)
      ∧ (∀ e, b.planEdit path payload = .ok e → ∃ c, (commit e).run b = .ok () c)
      ∧ b.planEdit path payload ≠ .error .outOfRange := by
  intro b
  have hf : a.forest.Fitting := by
    rcases hobtained with ⟨strict, pair, hload⟩ | ⟨forest, compressed, hforest, rfl⟩
    · exact fitting_of_load hload
    · exact hforest
  have hb : b.forest.Fitting := Change.fitting_leaves hf changes
  have hrun := run_setPayloadInPlace hb path payload
  have hagree := agree_planEdit hb path payload
  refine ⟨fun c => ?_, fun stop c h => ?_, fun e he => ?_, fun hrange => ?_⟩
  · rw [hrun]
    cases b.setPayload path payload <;> simp
  · rw [hrun] at h
    cases hset : b.setPayload path payload with
    | ok d =>
        rw [hset] at h
        cases h
    | error e =>
        rw [hset] at h
        cases h
        exact ⟨rfl, e, rfl, rfl⟩
  · rcases hagree with ⟨e', he', hindex, -⟩ | ⟨e', he', -⟩
    · rw [he] at he'
      cases he'
      exact ⟨_, run_commit hindex⟩
    · rw [he] at he'
      cases he'
  · rcases hagree with ⟨e', he', -⟩ | ⟨e', he', -⟩
    · rw [hrange] at he'
      cases he'
    · rw [hrange] at he'
      cases he'

/-- An edit that is refused, one that is carried out, another mode, and one that is refused again.
-/
theorem setPayloadInPlace_all_or_nothing_missing :
    let forest : Forest := ⟨[.ofPayload 1 0 0 [1, 2], .ofPayload 2 0 4 [3]]⟩
    let b := [.payload ⟨0, [0]⟩ [], .payload ⟨0, []⟩ [7, 7, 7, 7, 7], .storage true].foldl
      Change.leave (ofForest forest false)
    forest.Fitting ∧ (setPayloadInPlace ⟨2, []⟩ [9]).run b
      = .error (.refused (.chunkNotFound "2")) b := by
  intro forest b
  have hforest : forest.Fitting := by
    unfold Forest.Fitting
    decide +kernel
  have hobtained : (∃ strict pair, load Codec.deflate strict pair = .ok (ofForest forest false))
      ∨ ∃ f compressed, f.Fitting ∧ ofForest forest false = ofForest f compressed :=
    Or.inr ⟨forest, false, hforest, rfl⟩
  obtain ⟨hok, herror, -, -⟩ := setPayloadInPlace_all_or_nothing hobtained
    [.payload ⟨0, [0]⟩ [], .payload ⟨0, []⟩ [7, 7, 7, 7, 7], .storage true] ⟨2, []⟩ [9]
  have hset : b.setPayload ⟨2, []⟩ [9] = .error (.chunkNotFound "2") := by decide +kernel
  refine ⟨hforest, ?_⟩
  cases h : (setPayloadInPlace ⟨2, []⟩ [9]).run b with
  | ok u c =>
      have hsame := (hok c).mp h
      rw [hset] at hsame
      cases hsame
  | error stop c =>
      obtain ⟨rfl, e, rfl, he⟩ := herror stop c h
      rw [hset] at he
      cases he
      rfl

end Archive

end ChunkArchive
