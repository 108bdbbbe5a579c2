import ChunkArchive.Steps
import ChunkArchive.Proofs.Reader

/-!
# Programs that work in place

What a program leaves behind is found step by step: a step that is carried out hands over what it
leaves, and behind one that stops there is nothing (`InPlace.run_bind_of_ok`,
`InPlace.run_bind_of_error`). Ranges of a buffer that are there can be cut out and written over.
-/

set_option autoImplicit false

namespace ChunkArchive

/-! ## Steps -/

namespace InPlace

variable {σ α β : Type} {x : EStateM Stop σ α} {next : α → EStateM Stop σ β} {s t : σ} {r : α}

/-- What comes behind a step that is carried out starts from the state that the step leaves. -/
theorem run_bind_of_ok (h : x.run s = .ok r t) : (x >>= next).run s = (next r).run t := by
  show EStateM.bind x next s = next r t
  have h : x s = .ok r t := h
  rw [EStateM.bind, h]

/-- Nothing comes behind a step that stops. -/
theorem run_bind_of_error {stop : Stop} (h : x.run s = .error stop t) :
    (x >>= next).run s = .error stop t := by
  show EStateM.bind x next s = .error stop t
  have h : x s = .error stop t := h
  rw [EStateM.bind, h]

theorem run_get (s : σ) : (get : EStateM Stop σ σ).run s = .ok s s := rfl

theorem run_ofExcept_ok (r : α) (s : σ) :
    (MonadExcept.ofExcept (.ok r : Except Stop α) : EStateM Stop σ α).run s = .ok r s := rfl

theorem run_ofExcept_error (stop : Stop) (s : σ) :
    (MonadExcept.ofExcept (.error stop : Except Stop α) : EStateM Stop σ α).run s
      = .error stop s := rfl

end InPlace

/-! ## Buffers -/

namespace Bytes

theorem cut_eq_ok {bytes part : Bytes} {start stop : Nat}
    (h : slice? bytes start stop = some part) : bytes.cut start stop = .ok part := by
  rw [cut, h]

/-- A source that has its place inside the buffer is written over what is there. -/
theorem copyInto_eq_overwrite {buffer source : Bytes} {start : Nat}
    (h : start + source.length ≤ buffer.length) :
    buffer.copyInto start (start + source.length) source
      = .ok (overwrite buffer start source) := by
  have hpad : padTo start buffer = buffer.take start := by
    rw [padTo, Nat.sub_eq_zero_of_le (by omega)]
    exact List.append_nil _
  rw [copyInto, if_pos ⟨by omega, h, by omega⟩, overwrite, hpad]

/-- A source takes the place of a piece of its length. -/
theorem copyInto_middle {front middle behind source : Bytes} {start stop : Nat}
    (hstart : front.length = start) (hlen : source.length = middle.length)
    (hstop : start + source.length = stop) :
    (front ++ middle ++ behind).copyInto start stop source = .ok (front ++ source ++ behind) := by
  subst hstart hstop
  have hfront : (front ++ middle ++ behind).take front.length = front := by
    rw [List.append_assoc, List.take_left]
  have hbehind : (front ++ middle ++ behind).drop (front.length + source.length) = behind := by
    rw [hlen, ← List.length_append, List.drop_left]
  rw [copyInto, if_pos ⟨by omega, by simp [hlen], by omega⟩, hfront, hbehind]

theorem zeros_add (m n : Nat) : zeros (m + n) = zeros m ++ zeros n :=
  List.replicate_add m n 0

/-- Three pieces are copied into a buffer of zeros, the last one before the one in the middle. -/
theorem copy_pieces {head middle tail : Bytes} {gap rest headStop start stop length : Nat}
    (hhead : head.length = headStop) (hstart : headStop + gap = start)
    (hstop : start + middle.length = stop) (hlength : stop + tail.length + rest = length) :
    (do
      let buffer ← (zeros length).copyInto 0 headStop head
      let buffer ← buffer.copyInto stop (stop + tail.length) tail
      buffer.copyInto start stop middle)
      = .ok (head ++ zeros gap ++ middle ++ tail ++ zeros rest) := by
  subst hhead hstart hstop hlength
  -- the buffer is made of one piece of zeros for each of them, and of what stays
  have hzeros : zeros (head.length + gap + middle.length + tail.length + rest)
      = [] ++ zeros head.length
        ++ (zeros gap ++ zeros middle.length ++ zeros tail.length ++ zeros rest) := by
    simp only [zeros_add, List.append_assoc, List.nil_append]
  have hstart : (head ++ zeros gap).length = head.length + gap := by
    rw [List.length_append, zeros_length]
  have hstop : (head ++ zeros gap ++ zeros middle.length).length
      = head.length + gap + middle.length := by
    rw [List.length_append, hstart, zeros_length]
  rw [hzeros]
  refine Outcome.bind_eq_ok.mpr ⟨_, copyInto_middle rfl (by simp) (by simp), ?_⟩
  refine Outcome.bind_eq_ok.mpr ⟨head ++ zeros gap ++ zeros middle.length ++ tail ++ zeros rest,
    ?_, ?_⟩
  · rw [List.nil_append, ← List.append_assoc, ← List.append_assoc, ← List.append_assoc]
    exact copyInto_middle hstop (by simp) rfl
  · rw [List.append_assoc _ tail, List.append_assoc _ tail]
    exact copyInto_middle hstart (by simp) rfl

/-- What is left of a string behind a place, which may lie behind its end. -/
theorem cut_behind (bytes : Bytes) (start : Nat) :
    bytes.cut (min start bytes.length) bytes.length = .ok (bytes.drop start) := by
  refine cut_eq_ok ?_
  rw [slice?, if_pos ⟨Nat.min_le_right _ _, Nat.le_refl _⟩, Option.some.injEq]
  rcases Nat.le_total start bytes.length with h | h
  · rw [Nat.min_eq_left h, List.take_of_length_le (by rw [List.length_drop])]
  · rw [Nat.min_eq_right h, List.drop_of_length_le h, List.drop_length, List.take_nil]

/-- What a string has in front of a place, which may lie behind its end. -/
theorem cut_before (bytes : Bytes) (stop : Nat) :
    bytes.cut 0 (min stop bytes.length) = .ok (bytes.take stop) := by
  refine cut_eq_ok ?_
  rw [slice?, if_pos ⟨Nat.zero_le _, Nat.min_le_right _ _⟩, List.drop_zero, Nat.sub_zero,
    Option.some.injEq]
  rcases Nat.le_total stop bytes.length with h | h
  · rw [Nat.min_eq_left h]
  · rw [Nat.min_eq_right h, List.take_of_length_le h, List.take_length]

end Bytes

end ChunkArchive
