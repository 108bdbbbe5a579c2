import ChunkArchive.Codec.Decoder
import ChunkArchive.Deflate.Codec
import ChunkArchive.Proofs.Reader

/-!
# Blocks that are unpacked

A packed block is unpacked under its own size and under no other, with or without one of the frames
that are skipped. `Codec.unpackBlock` says so at once; the program that reads it piece by piece does
the same (`Decoder.unpackBlock_eq`), as its limit of one byte past the known size cuts off no more
than it takes to see that there is too much (`Decoder.readUpTo_eq`). `Decoder.unpackBlock_packed`
says when a packed block is unpacked and how it fails otherwise.
-/

set_option autoImplicit false

namespace ChunkArchive

namespace Codec

variable {codec : Codec}

theorem length_of_unpackBlock {packed bytes : Bytes} {size : Nat}
    (h : codec.unpackBlock packed size = .ok bytes) : bytes.length = size := by
  unfold unpackBlock at h
  split at h
  · cases h
  · split at h <;> cases h
  · split at h
    · next hlen =>
        cases h
        exact hlen
    · cases h

/-- A stream that unpacks to its end is judged by its length alone. -/
theorem unpackBlock_of_complete {packed bytes : Bytes}
    (h : codec.unpack (skipFrame packed) = .complete bytes) (size : Nat) :
    codec.unpackBlock packed size = if bytes.length = size then .ok bytes
      else .error (.wrongLength (min bytes.length (size + 1)) size) := by
  rw [unpackBlock, h]

/-- What has been packed comes out again, with or without a frame in front of it. -/
theorem unpack_skipFrame_pack (codec : Codec) (level : Nat) (bytes : Bytes) {frame : Bytes}
    (hframe : frame ∈ [[], [0x78, 0x9C], [0x78, 0xDA]]) :
    codec.unpack (skipFrame (frame ++ codec.pack level bytes)) = .complete bytes := by
  have hskip : skipFrame (frame ++ codec.pack level bytes) = codec.pack level bytes := by
    simp only [List.mem_cons, List.not_mem_nil, or_false] at hframe
    rcases hframe with rfl | rfl | rfl
    · exact codec.skipFrame_pack level bytes
    · rfl
    · rfl
  rw [hskip, codec.unpack_pack]

theorem unpackBlock_pack (codec : Codec) (level : Nat) (bytes : Bytes) :
    codec.unpackBlock (codec.pack level bytes) bytes.length = .ok bytes := by
  have hunpack : codec.unpack (skipFrame ([] ++ codec.pack level bytes)) = .complete bytes :=
    codec.unpack_skipFrame_pack level bytes (by simp)
  rw [← List.nil_append (codec.pack level bytes), unpackBlock_of_complete hunpack, if_pos rfl]

end Codec

namespace Decoder

variable {codec : Codec} (decoder : Decoder codec) {room : Bytes → Nat}

/-- However the pieces fall, together they are the bytes that were still to come, up to the limit. -/
theorem readUpTo_eq (hroom : ∀ gathered, 0 < room gathered) {limit : Nat} {state : decoder.State}
    {bytes : Bytes} (h : decoder.Pending state bytes) (gathered : Bytes) :
    decoder.readUpTo room limit state gathered = .ok (gathered ++ bytes.take limit) := by
  -- every piece but an empty one lowers the limit
  induction limit using Nat.strong_induction_on generalizing state bytes gathered with
  | _ limit ih =>
      rw [readUpTo]
      by_cases hlimit : limit = 0
      · rw [if_pos hlimit, hlimit, List.take_zero, List.append_nil]
      · have hpos : 0 < min (room gathered) limit := by
          have := hroom gathered
          omega
        obtain ⟨piece, rest, next, hread, hnext, rfl, hfits, hend⟩ :=
          decoder.read_of_pending hpos h
        rw [if_neg hlimit, hread]
        by_cases hpiece : piece.length = 0
        · -- nothing is left
          have hnil := hend (List.length_eq_zero_iff.mp hpiece)
          show (if piece.length = 0 then _ else _) = _
          rw [if_pos hpiece, hnil, List.take_nil, List.append_nil]
        · have hle : piece.length ≤ limit := by omega
          show (if piece.length = 0 then _ else _) = _
          rw [if_neg hpiece, ih (limit - piece.length) (by omega) hnext, List.append_assoc,
            List.take_append, List.take_of_length_le hle]

/-- **Piece by piece a block is unpacked as it is at once**, if its stream unpacks to its end. -/
theorem unpackBlock_eq (hroom : ∀ gathered, 0 < room gathered) {packed bytes : Bytes}
    (h : codec.unpack (skipFrame packed) = .complete bytes) (size : UInt32) :
    decoder.unpackBlock room packed size
      = (codec.unpackBlock packed size.toNat).mapError (.corruptBlock 0) := by
  have hread : decoder.readUpTo room (size.toNat + 1) (decoder.start (skipFrame packed)) []
      = .ok ([] ++ bytes.take (size.toNat + 1)) :=
    decoder.readUpTo_eq hroom (decoder.pending_start h) []
  have hlen : (bytes.take (size.toNat + 1)).length = min bytes.length (size.toNat + 1) := by
    rw [List.length_take, Nat.min_comm]
  rw [unpackBlock, hread, List.nil_append, Codec.unpackBlock_of_complete h]
  show (if (bytes.take (size.toNat + 1)).length ≠ size.toNat then _ else _) = _
  rw [hlen]
  by_cases hsize : bytes.length = size.toNat
  · rw [if_pos hsize, if_neg (by omega), List.take_of_length_le (by omega)]
    rfl
  · rw [if_neg hsize, if_pos (by omega)]
    rfl

theorem length_of_unpackBlock {packed bytes : Bytes} {size : UInt32}
    (h : decoder.unpackBlock room packed size = .ok bytes) : bytes.length = size.toNat := by
  obtain ⟨gathered, -, h⟩ := Outcome.bind_eq_ok.mp h
  obtain ⟨hlen, h⟩ := Outcome.unless_eq_ok.mp h
  obtain rfl := Outcome.pure_eq_ok.mp h
  exact Decidable.not_not.mp hlen

/-- **A packed block is unpacked under its own size and under no other.** Piece by piece, with any
room for the pieces, or at once; behind one of the frames that are skipped, or without one. Under
another size the error tells how many bytes there were, counting no more than the first surplus one.
Whatever bytes are given, nothing of another size is ever taken for the block. -/
theorem unpackBlock_packed (hroom : ∀ gathered, 0 < room gathered) (level : Nat) {bytes : Bytes}
    (hshort : bytes.length < 2 ^ 32) :
    (∀ frame ∈ [[], [0x78, 0x9C], [0x78, 0xDA]],
        decoder.unpackBlock room (frame ++ codec.pack level bytes) (UInt32.ofNat bytes.length)
            = .ok bytes
          ∧ (∀ size, size ≠ UInt32.ofNat bytes.length →
              decoder.unpackBlock room (frame ++ codec.pack level bytes) size
                = .error (.corruptBlock 0
                    (.wrongLength (min bytes.length (size.toNat + 1)) size.toNat)))
          ∧ ∀ size : UInt32, decoder.unpackBlock room (frame ++ codec.pack level bytes) size
              = (codec.unpackBlock (frame ++ codec.pack level bytes) size.toNat).mapError
                  (.corruptBlock 0))
      ∧ (∀ packed size out, decoder.unpackBlock room packed size = .ok out →
          out.length = size.toNat)
      ∧ ∀ packed size out, codec.unpackBlock packed size = .ok out → out.length = size := by
  have hown : (UInt32.ofNat bytes.length).toNat = bytes.length := by
    rw [UInt32.toNat_ofNat']
    omega
  refine ⟨fun frame hframe => ?_, fun _ _ _ => decoder.length_of_unpackBlock,
    fun _ _ _ => Codec.length_of_unpackBlock⟩
  have hunpack := codec.unpack_skipFrame_pack level bytes hframe
  have hsame := decoder.unpackBlock_eq hroom hunpack
  refine ⟨?_, fun size hsize => ?_, hsame⟩
  · rw [hsame, Codec.unpackBlock_of_complete hunpack, hown, if_pos rfl]
    rfl
  · have hne : bytes.length ≠ size.toNat := by
      intro heq
      exact hsize (UInt32.toNat_inj.mp (by rw [hown, heq]))
    rw [hsame, Codec.unpackBlock_of_complete hunpack, if_neg hne]
    rfl

/-- Three bytes behind a frame, read with room for two at a time, under their own size, a smaller
and a larger one. -/
theorem unpackBlock_packed_framed :
    let decoder := whole Codec.deflate
    let packed : Bytes := [0x78, 0xDA, 1, 3, 0, 0xFC, 0xFF, 5, 6, 7]
    packed = [0x78, 0xDA] ++ Codec.deflate.pack 0 [5, 6, 7]
      ∧ (∀ _gathered : Bytes, 0 < 2) ∧ [5, 6, 7].length < 2 ^ 32
      ∧ decoder.unpackBlock (fun _ => 2) packed 3 = .ok [5, 6, 7]
      ∧ decoder.unpackBlock (fun _ => 2) packed 1 = .error (.corruptBlock 0 (.wrongLength 2 1))
      ∧ decoder.unpackBlock (fun _ => 2) packed 9 = .error (.corruptBlock 0 (.wrongLength 3 9)) := by
  intro decoder packed
  have hpacked : packed = [0x78, 0xDA] ++ Codec.deflate.pack 0 [5, 6, 7] := by decide +kernel
  have hroom : ∀ _gathered : Bytes, 0 < 2 := fun _ => by decide
  have hshort : ([5, 6, 7] : Bytes).length < 2 ^ 32 := by decide
  obtain ⟨hframed, -, -⟩ := decoder.unpackBlock_packed hroom 0 hshort
  obtain ⟨hown, hother, -⟩ := hframed [0x78, 0xDA] (by simp)
  rw [← hpacked] at hown hother
  exact ⟨hpacked, hroom, hshort, hown, hother 1 (by decide), hother 9 (by decide)⟩

end Decoder

end ChunkArchive
