import ChunkArchive.Codec

/-!
# Unpacking piece by piece

The program that unpacks a block, step by step. A decoder hands out in pieces what comes out of a
stream. The program reads until a piece is empty, but no more than one byte past the size that the
block is known to have, and then compares the sizes.
-/

set_option autoImplicit false

namespace ChunkArchive

/-- Hands out in pieces what comes out of packed bytes. Of a stream that unpacks to its end the bytes
come out in order, in pieces that fit the room given, and a piece is empty only at the end. -/
structure Decoder (codec : Codec) where
  /-- A stream of which a part has been handed out. -/
  State : Type
  start (packed : Bytes) : State
  read (room : Nat) (state : State) : Except Damage (Bytes × State)
  /-- The bytes are what is still to come. -/
  Pending (state : State) (bytes : Bytes) : Prop
  pending_start {packed bytes : Bytes} (h : codec.unpack packed = .complete bytes) :
    Pending (start packed) bytes
  read_of_pending {room : Nat} {state : State} {bytes : Bytes} (hroom : 0 < room)
    (h : Pending state bytes) :
    ∃ piece rest next, read room state = .ok (piece, next) ∧ Pending next rest
      ∧ bytes = piece ++ rest ∧ piece.length ≤ room ∧ (piece = [] → bytes = [])

/-- Hands out the first bytes of what a stream has been unpacked to. -/
def Unpacked.read (room : Nat) (state : Unpacked) : Except Damage (Bytes × Unpacked) :=
  match state with
  | .complete bytes => .ok (bytes.take room, .complete (bytes.drop room))
  | .incomplete _ => .error .incomplete
  | .corrupt => .error .corrupt

theorem Unpacked.exists_read {room : Nat} {state : Unpacked} {bytes : Bytes} (hroom : 0 < room)
    (h : state = .complete bytes) :
    ∃ piece rest next, read room state = .ok (piece, next) ∧ next = .complete rest
      ∧ bytes = piece ++ rest ∧ piece.length ≤ room ∧ (piece = [] → bytes = []) := by
  subst h
  refine ⟨bytes.take room, bytes.drop room, _, rfl, rfl, (bytes.take_append_drop room).symm,
    List.length_take_le room bytes, fun hempty => ?_⟩
  rw [List.take_eq_nil_iff] at hempty
  exact hempty.resolve_left (by omega)

namespace Decoder

/-- Unpacks the whole stream before anything is read, so that damage is met by the first read. -/
def whole (codec : Codec) : Decoder codec where
  State := Unpacked
  start := codec.unpack
  read := Unpacked.read
  Pending state bytes := state = .complete bytes
  pending_start := id
  read_of_pending := Unpacked.exists_read

variable {codec : Codec} (decoder : Decoder codec)

/-- Reads until a piece is empty, and not more than `limit` bytes. How much room there is for a piece
depends on what has been gathered. -/
def readUpTo (room : Bytes → Nat) (limit : Nat) (state : decoder.State) (gathered : Bytes) :
    Except Damage Bytes :=
  if limit = 0 then .ok gathered
  else
    match decoder.read (min (room gathered) limit) state with
    | .error damage => .error damage
    | .ok (piece, next) =>
      if piece.length = 0 then .ok gathered
      else readUpTo room (limit - piece.length) next (gathered ++ piece)
termination_by limit

/-- Unpacks a block that is known to have `size` bytes. One byte more is enough to tell that it has
too many. -/
def unpackBlock (room : Bytes → Nat) (packed : Bytes) (size : UInt32) : Except Error Bytes := do
  let bytes ← (decoder.readUpTo room (size.toNat + 1) (decoder.start (skipFrame packed)) []).mapError
    (.corruptBlock 0)
  if bytes.length ≠ size.toNat then
    .error (.corruptBlock 0 (.wrongLength bytes.length size.toNat))
  return bytes

end Decoder

end ChunkArchive
