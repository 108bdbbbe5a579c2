import ChunkArchive.Proofs.Dictionary.RoundTrip

/-!
# A dictionary that goes on, and one that is cut short

The counts in the header and the zero bytes behind the names say where a dictionary ends; what
follows is its trailer. So bytes put behind a file only make the trailer longer, and every part of
the file before the trailer needs all of its bytes: wherever it is cut, nothing is loaded
(`Dictionary.load_continued_or_cut`).
-/

set_option autoImplicit false

namespace ChunkArchive

theorem Descriptor.needs_read (d : Descriptor) : Reader.Needs read d.bytes (.file .shortRead) := by
  simp only [read, bytes, List.append_assoc]
  refine Reader.Needs.bind (Reader.takes_word32 _) (Reader.needs_word32 _) ?_
  refine Reader.Needs.bind (Reader.takes_word32 _) (Reader.needs_word32 _) ?_
  refine Reader.Needs.bind (Reader.takes_word32 _) (Reader.needs_word32 _) ?_
  exact (Reader.needs_nil _ _).byte_bind.byte_bind.byte_bind.byte_bind

theorem Descriptor.bytes_length (d : Descriptor) : d.bytes.length = 16 := rfl

namespace Dictionary

variable {d : Dictionary} {flag : UInt8} {largest : UInt32}

/-! ## The parts of a file -/

theorem front_length (d : Dictionary) (flag : UInt8) (largest : UInt32) :
    (d.front flag largest).length = 16 + 16 * d.blocks.length + d.tableReferences.length := by
  have hblocks : (d.blocks.flatMap Descriptor.bytes).length = 16 * d.blocks.length := by
    induction d.blocks with
    | nil => rfl
    | cons b bs ih =>
        rw [List.flatMap_cons, List.length_append, Descriptor.bytes_length, ih, List.length_cons]
        ring
  simp only [front, List.length_append, Bytes.ofWord32_length, Bytes.ofWord16_length,
    List.length_cons, List.length_nil, hblocks]

/-- Header, descriptors and table references are read by their sizes. -/
theorem needs_front (hs : d.Savable) (flag : UInt8) (largest : UInt32) :
    Reader.Needs read (d.front flag largest) (.file .shortRead) := by
  have htake : Reader.Takes (Reader.times Descriptor.read d.blocks.length)
      (d.blocks.flatMap Descriptor.bytes) d.blocks := Reader.Takes.times fun b _ => b.takes_read
  have hneed : Reader.Needs (Reader.times Descriptor.read d.blocks.length)
      (d.blocks.flatMap Descriptor.bytes) (.file .shortRead) :=
    Reader.Needs.times (fun b _ => b.takes_read) fun b _ => b.needs_read
  simp only [front, List.append_assoc, List.cons_append, List.nil_append]
  rw [read]
  refine Reader.Needs.bind (Reader.takes_word32 _) (Reader.needs_word32 _) ?_
  rw [if_neg (by simp)]
  refine Reader.Needs.bind (Reader.takes_word16 _) (Reader.needs_word16 _) ?_
  refine Reader.Needs.byte_bind (Reader.Needs.byte_bind ?_)
  refine Reader.Needs.bind (Reader.takes_word32 _) (Reader.needs_word32 _) ?_
  refine Reader.Needs.byte_bind (Reader.Needs.byte_bind ?_)
  refine Reader.Needs.byte_bind (Reader.Needs.byte_bind ?_)
  rw [UInt8.toNat_ofNat_of_lt' hs.blocks]
  refine Reader.Needs.bind htake hneed ?_
  exact (Reader.needs_take hs.toNat_references.symm).of_first _

theorem needs_readName {name : String} (h : 0 ∉ Utf8.encode name) :
    Reader.Needs readName (Utf8.encode name ++ [0]) .unexpectedEnd :=
  (Reader.needs_terminated h).of_first _

/-- The names are read up to their zero bytes. -/
theorem needs_names {names : List String} (h : ∀ name ∈ names, 0 ∉ Utf8.encode name) :
    Reader.Needs (Reader.times readName names.length)
      (names.flatMap fun name => Utf8.encode name ++ [0]) .unexpectedEnd :=
  Reader.Needs.times (fun name hname => takes_readName (h name hname))
    fun name hname => needs_readName (h name hname)

/-! ## Whole files -/

/-- A file that is cut short before its trailer is not read. -/
theorem read_cut (hs : d.Savable) (hflag : flag ≠ 0 ↔ d.isCompressed = true)
    (hnames : ∀ name ∈ d.names, 0 ∉ Utf8.encode name) {n : Nat}
    (hn : n + d.trailer.length < (d.fileWith flag largest).length) :
    read ((d.fileWith flag largest).take n) = .error
      (if n < 16 + 16 * d.blocks.length + d.tableReferences.length then .file .shortRead
        else .unexpectedEnd) := by
  let names := d.names.flatMap fun name => Utf8.encode name ++ [0]
  have hfile : d.fileWith flag largest = d.front flag largest ++ (names ++ d.trailer) :=
    List.append_assoc ..
  rw [hfile, List.length_append, List.length_append] at hn
  rw [hfile, ← front_length d flag largest]
  by_cases hfront : n < (d.front flag largest).length
  · rw [if_pos hfront, List.take_append_of_le_length (Nat.le_of_lt hfront)]
    exact needs_front hs flag largest n hfront
  · -- the front is there as a whole, so the cut goes through the names
    obtain ⟨m, rfl⟩ := Nat.exists_eq_add_of_le (Nat.le_of_not_lt hfront)
    have hm : m < names.length := by omega
    rw [if_neg hfront, List.take_length_add_append, List.take_append_of_le_length (Nat.le_of_lt hm),
      read_front hs largest hflag, needs_names hnames m hm]
    rfl

/-- **Of a file that is loaded, nothing before the trailer can be missing, and nothing behind it is
looked at.** With more bytes at its end the same dictionary is loaded, and the bytes go to its
trailer. Cut short before the trailer it is not loaded at all: the error says that a read of fixed
size has failed where the cut goes through the header, the descriptors or the table references, and
that a name has no end where it goes through the names. -/
theorem load_continued_or_cut {bytes : Bytes} {d : Dictionary} (h : load bytes = .ok d) :
    (∀ more, load (bytes ++ more) = .ok { d with trailer := d.trailer ++ more })
      ∧ ∀ cut, cut <+: bytes → cut.length + d.trailer.length < bytes.length →
          load cut = .error
            (if cut.length < 16 + 16 * d.blocks.length + d.tableReferences.length then
              .file .shortRead else .unexpectedEnd) := by
  obtain ⟨hs, hnames, flag, largest, hflag, rfl⟩ := load_eq_ok.mp h
  refine ⟨fun more => ?_, fun cut hcut hlen => ?_⟩
  · have hs' : Savable { d with trailer := d.trailer ++ more } := hs.congr rfl rfl rfl
    exact load_eq_ok.mpr ⟨hs', hnames, flag, largest, hflag, List.append_assoc ..⟩
  · have htake := List.prefix_iff_eq_take.mp hcut
    have hread := read_cut hs hflag hnames hlen
    rw [← htake] at hread
    show (read cut).map Prod.fst = _
    rw [hread]
    rfl

/-- A file with a descriptor, a table reference, a name that is not ASCII, an empty name and a
trailer; it is continued, and cut in each of its parts. -/
theorem load_continued_or_cut_regions :
    let d : Dictionary := {
      isCompressed := true, tableReferences := [1, 2, 3, 4, 5, 6, 7, 8], names := ["é", ""],
      trailer := [7], blocks := [⟨0, 0x20, 0x11, 0, (1, 2, 3)⟩] }
    let bytes : Bytes := [0x58, 0x24, 0xF3, 0xA9, 1, 0, 1, 0, 0x20, 0, 0, 0, 1, 1, 2, 0,
      0, 0, 0, 0, 0x20, 0, 0, 0, 0x11, 0, 0, 0, 1, 2, 0, 3,
      1, 2, 3, 4, 5, 6, 7, 8, 0xC3, 0xA9, 0, 0, 7]
    load bytes = .ok d
      ∧ load (bytes ++ [0, 9]) = .ok { d with trailer := [7, 0, 9] }
      ∧ (∀ n ∈ [3, 15, 20, 39], load (bytes.take n) = .error (.file .shortRead))
      ∧ ∀ n ∈ [40, 41, 43], load (bytes.take n) = .error .unexpectedEnd := by
  intro d bytes
  have hload : load bytes = .ok d := by decide +kernel
  obtain ⟨hmore, hcut⟩ := load_continued_or_cut hload
  have hshorter : ∀ n, n + 1 < bytes.length →
      load (bytes.take n) = .error (if n < 40 then .file .shortRead else .unexpectedEnd) := by
    intro n hn
    have hlen : (bytes.take n).length = n := List.length_take_of_le (by omega)
    have hload := hcut (bytes.take n) (List.take_prefix n bytes) (by rw [hlen]; exact hn)
    rwa [hlen] at hload
  refine ⟨hload, hmore [0, 9], fun n hn => ?_, fun n hn => ?_⟩
  · have hsmall : n < 40 := by
      simp only [List.mem_cons, List.not_mem_nil, or_false] at hn
      omega
    rw [hshorter n (show n + 1 < 45 by omega), if_pos hsmall]
  · have hlarge : 40 ≤ n ∧ n < 44 := by
      simp only [List.mem_cons, List.not_mem_nil, or_false] at hn
      omega
    rw [hshorter n (show n + 1 < 45 by omega), if_neg (by omega)]

end Dictionary

end ChunkArchive
