import ChunkArchive.Dictionary.Format
import ChunkArchive.Proofs.Bytes
import ChunkArchive.Proofs.Reader

/-!
# Saving a dictionary and loading it again

What is loaded is known in both directions (`Dictionary.load_eq_ok`): the files of a dictionary
differ in the flag for packed blocks, which is any byte but zero where it is set, and in the size of
the largest block, which is not read. So a dictionary whose names have no zero byte is loaded again
as it was saved (`Dictionary.load_save`), and any other one with the same blocks
(`Dictionary.exists_load_of_save`); it can be saved exactly if each of its counts fits a byte
(`Dictionary.savable_iff`).
-/

set_option autoImplicit false

namespace ChunkArchive

/-! ## Names -/

namespace Utf8

theorem decode_encode (text : String) : decode (encode text) = .ok text := by
  have hbytes : (encode text).toByteArray = text.toByteArray := by
    apply ByteArray.ext
    rw [encode, List.data_toByteArray]
  unfold decode
  rw [hbytes]
  simp [String.fromUTF8?, text.isValidUTF8, String.fromUTF8]

theorem encode_of_decode {bytes : List UInt8} {text : String} (h : decode bytes = .ok text) :
    encode text = bytes := by
  unfold decode at h
  split at h
  · next t ht =>
      cases h
      unfold String.fromUTF8? at ht
      split at ht
      · obtain rfl := Option.some.inj ht
        simp [encode, String.fromUTF8]
      · cases ht
  · cases h

/-- Only the character zero is encoded with a zero byte: the bytes of a longer encoding all have
their highest bit set. -/
theorem zero_mem_encodeChar {c : Char} : 0 ∈ String.utf8EncodeChar c ↔ c.toNat = 0 := by
  have hbyte : ∀ n, 0 = UInt8.ofNat n ↔ n % 256 = 0 := by
    intro n
    rw [← UInt8.toNat_inj, UInt8.toNat_ofNat', UInt8.toNat_zero, eq_comm]
  have hc : c.val.toNat = c.toNat := rfl
  unfold String.utf8EncodeChar
  simp only [hc]
  split_ifs <;> simp only [List.mem_cons, List.not_mem_nil, or_false, hbyte] <;> omega

theorem encode_eq_flatMap (text : String) :
    encode text = text.toList.flatMap String.utf8EncodeChar := by
  rw [encode, ← String.utf8Encode_toList, List.utf8Encode, List.data_toByteArray]

theorem zero_mem_encode {text : String} : 0 ∈ encode text ↔ '\x00' ∈ text.toList := by
  rw [encode_eq_flatMap, List.mem_flatMap]
  constructor
  · rintro ⟨c, hmem, hc⟩
    obtain rfl : c = '\x00' := Char.toNat_inj.mp (zero_mem_encodeChar.mp hc)
    exact hmem
  · intro hmem
    exact ⟨'\x00', hmem, zero_mem_encodeChar.mpr rfl⟩

end Utf8

/-! ## Descriptors -/

namespace Descriptor

theorem takes_read (d : Descriptor) : Reader.Takes read d.bytes d := by
  intro rest
  simp only [read, bytes, List.append_assoc]
  rw [(Reader.takes_word32 _).run_bind, (Reader.takes_word32 _).run_bind,
    (Reader.takes_word32 _).run_bind]
  rfl

theorem read_eq_ok {bytes rest : Bytes} {d : Descriptor} (h : read bytes = .ok (d, rest)) :
    bytes = d.bytes ++ rest := by
  rw [read] at h
  obtain ⟨offset, _, hoffset, h⟩ := Reader.bind_eq_ok.mp h
  obtain ⟨unpackedSize, _, hunpacked, h⟩ := Reader.bind_eq_ok.mp h
  obtain ⟨packedSize, _, hpacked, h⟩ := Reader.bind_eq_ok.mp h
  obtain ⟨reserved₀, _, h₀, h⟩ := Reader.bind_eq_ok.mp h
  obtain ⟨reserved₁, _, h₁, h⟩ := Reader.bind_eq_ok.mp h
  obtain ⟨usage, _, husage, h⟩ := Reader.bind_eq_ok.mp h
  obtain ⟨reserved₂, _, h₂, h⟩ := Reader.bind_eq_ok.mp h
  obtain ⟨rfl, rfl⟩ := Reader.pure_eq_ok.mp h
  rw [Reader.word32_eq_ok hoffset, Reader.word32_eq_ok hunpacked, Reader.word32_eq_ok hpacked,
    Reader.byte_eq_ok h₀, Reader.byte_eq_ok h₁, Reader.byte_eq_ok husage, Reader.byte_eq_ok h₂]
  simp [Descriptor.bytes]

end Descriptor

namespace Dictionary

theorem takes_readName {name : String} (h : 0 ∉ Utf8.encode name) :
    Reader.Takes readName (Utf8.encode name ++ [0]) name := by
  intro rest
  rw [readName, (Reader.takes_terminated h).run_bind, Utf8.decode_encode]
  rfl

/-! ## Saving -/

/-- What a frame and a number of blocks have to satisfy to be saved: every count fits a byte, and
the table references are whole. -/
structure Savable (d : Dictionary) : Prop where
  blocks : d.blocks.length < 256
  references : d.tableReferenceCount < 256
  names : d.names.length < 256
  whole : d.tableReferences.length % tableReferenceSize = 0

theorem savable_iff {d : Dictionary} : d.Savable ↔ d.blocks.length ≤ 255 ∧ d.names.length ≤ 255
    ∧ d.tableReferences.length % 8 = 0 ∧ d.tableReferences.length ≤ 255 * 8 := by
  constructor
  · rintro ⟨hblocks, hreferences, hnames, hwhole⟩
    rw [tableReferenceCount, tableReferenceSize] at hreferences
    rw [tableReferenceSize] at hwhole
    omega
  · rintro ⟨hblocks, hnames, hwhole, hreferences⟩
    refine ⟨by omega, ?_, by omega, hwhole⟩
    rw [tableReferenceCount, tableReferenceSize]
    omega

/-- Only the number of blocks, the names and the table references matter. -/
theorem Savable.congr {d e : Dictionary} (hs : d.Savable)
    (hblocks : e.blocks.length = d.blocks.length)
    (hreferences : e.tableReferences = d.tableReferences) (hnames : e.names = d.names) :
    e.Savable := by
  refine ⟨?_, ?_, ?_, ?_⟩
  · rw [hblocks]
    exact hs.blocks
  · rw [tableReferenceCount, hreferences]
    exact hs.references
  · rw [hnames]
    exact hs.names
  · rw [hreferences]
    exact hs.whole

theorem count_eq_ok {n : Nat} {c : UInt8} : count n = .ok c ↔ n < 256 ∧ c = UInt8.ofNat n := by
  unfold count
  by_cases hn : n < 256
  · rw [if_pos hn]
    constructor
    · intro h
      cases h
      exact ⟨hn, rfl⟩
    · rintro ⟨-, rfl⟩
      rfl
  · rw [if_neg hn]
    constructor
    · intro h
      cases h
    · rintro ⟨h, -⟩
      exact absurd h hn

/-- The bytes of a dictionary up to its trailer. -/
def body (d : Dictionary) : Bytes :=
  Bytes.ofWord32 dictionaryMagic ++ Bytes.ofWord16 d.version
    ++ [if d.isCompressed then 1 else 0, d.reserved.1] ++ Bytes.ofWord32 d.largestBlock
    ++ [UInt8.ofNat d.blocks.length, UInt8.ofNat d.tableReferenceCount, UInt8.ofNat d.names.length,
      d.reserved.2]
    ++ d.blocks.flatMap Descriptor.bytes ++ d.tableReferences
    ++ d.names.flatMap (fun name => Utf8.encode name ++ [0])

theorem save_eq_ok {d : Dictionary} {bytes : Bytes} :
    d.save = .ok bytes ↔ d.Savable ∧ bytes = d.body ++ d.trailer := by
  unfold save
  simp only [Outcome.bind_eq_ok, count_eq_ok, Outcome.unless_eq_ok, Outcome.pure_eq_ok, not_not]
  constructor
  · rintro ⟨_, ⟨hb, rfl⟩, _, ⟨hr, rfl⟩, _, ⟨hn, rfl⟩, hw, rfl⟩
    exact ⟨⟨hb, hr, hn, hw⟩, rfl⟩
  · rintro ⟨⟨hb, hr, hn, hw⟩, rfl⟩
    exact ⟨_, ⟨hb, rfl⟩, _, ⟨hr, rfl⟩, _, ⟨hn, rfl⟩, hw, rfl⟩

/-! ## Loading -/

theorem readName_eq_ok {bytes rest : Bytes} {name : String}
    (h : readName bytes = .ok (name, rest)) :
    0 ∉ Utf8.encode name ∧ bytes = Utf8.encode name ++ [0] ++ rest := by
  obtain ⟨part, mid, hpart, h⟩ := Reader.bind_eq_ok.mp h
  cases hdecode : Utf8.decode part with
  | error fault =>
      rw [hdecode] at h
      cases h
  | ok text =>
      rw [hdecode] at h
      obtain ⟨rfl, rfl⟩ := Reader.pure_eq_ok.mp h
      rw [Utf8.encode_of_decode hdecode, List.append_assoc]
      exact Reader.terminated_eq_ok hpart

/-- A file of the dictionary, with the given flag for packed blocks and the given size of the
largest block. -/
def fileWith (d : Dictionary) (flag : UInt8) (largest : UInt32) : Bytes :=
  Bytes.ofWord32 dictionaryMagic ++ Bytes.ofWord16 d.version ++ [flag, d.reserved.1]
    ++ Bytes.ofWord32 largest
    ++ [UInt8.ofNat d.blocks.length, UInt8.ofNat d.tableReferenceCount, UInt8.ofNat d.names.length,
      d.reserved.2]
    ++ d.blocks.flatMap Descriptor.bytes ++ d.tableReferences
    ++ d.names.flatMap (fun name => Utf8.encode name ++ [0]) ++ d.trailer

/-- The flag that is written. -/
def flag (d : Dictionary) : UInt8 := if d.isCompressed then 1 else 0

theorem flag_ne_zero (d : Dictionary) : d.flag ≠ 0 ↔ d.isCompressed = true := by
  unfold flag
  cases d.isCompressed <;> simp

/-- What it takes to read a dictionary, and what is read: the trailer takes all that is left. -/
theorem read_eq_ok {bytes rest : Bytes} {d : Dictionary} (h : read bytes = .ok (d, rest)) :
    d.Savable ∧ (∀ name ∈ d.names, 0 ∉ Utf8.encode name)
      ∧ ∃ flag largest, (flag ≠ 0 ↔ d.isCompressed = true) ∧ bytes = d.fileWith flag largest := by
  rw [read] at h
  obtain ⟨magic, _, hmagic, h⟩ := Reader.bind_eq_ok.mp h
  split at h
  · cases h
  · next hmatch =>
    obtain ⟨version, _, hversion, h⟩ := Reader.bind_eq_ok.mp h
    obtain ⟨flag, _, hflag, h⟩ := Reader.bind_eq_ok.mp h
    obtain ⟨reserved₀, _, h₀, h⟩ := Reader.bind_eq_ok.mp h
    obtain ⟨largest, _, hlargest, h⟩ := Reader.bind_eq_ok.mp h
    obtain ⟨blockCount, _, hblockCount, h⟩ := Reader.bind_eq_ok.mp h
    obtain ⟨referenceCount, _, hreferenceCount, h⟩ := Reader.bind_eq_ok.mp h
    obtain ⟨nameCount, _, hnameCount, h⟩ := Reader.bind_eq_ok.mp h
    obtain ⟨reserved₁, _, h₁, h⟩ := Reader.bind_eq_ok.mp h
    obtain ⟨blocks, _, hblocks, h⟩ := Reader.bind_eq_ok.mp h
    obtain ⟨references, _, hreferences, h⟩ := Reader.bind_eq_ok.mp h
    obtain ⟨names, _, hnames, h⟩ := Reader.bind_eq_ok.mp h
    obtain ⟨trailer, _, htrailer, h⟩ := Reader.bind_eq_ok.mp h
    obtain ⟨rfl, rfl⟩ := Reader.pure_eq_ok.mp h
    obtain rfl : magic = dictionaryMagic := Decidable.not_not.mp hmatch
    cases htrailer
    -- every count is the number of items that follow, which has been read from a byte
    obtain ⟨hb, -, hblocks⟩ := Reader.times_eq_ok (P := fun _ => True)
      (fun _ _ _ h => ⟨trivial, Descriptor.read_eq_ok h⟩) hblocks
    obtain ⟨hr, hreferences⟩ := Reader.take_eq_ok hreferences
    obtain ⟨hn, hzero, hnames⟩ := Reader.times_eq_ok (fun _ _ _ h => readName_eq_ok h) hnames
    have hcount : references.length / tableReferenceSize = referenceCount.toNat := by
      rw [hr, tableReferenceSize]
      omega
    refine ⟨⟨?_, ?_, ?_, ?_⟩, hzero, flag, largest, by simp, ?_⟩
    · show blocks.length < 256
      rw [hb]
      exact blockCount.toNat_lt
    · show references.length / tableReferenceSize < 256
      rw [hcount]
      exact referenceCount.toNat_lt
    · show names.length < 256
      rw [hn]
      exact nameCount.toNat_lt
    · show references.length % tableReferenceSize = 0
      rw [hr, Nat.mul_mod_left]
    · rw [Reader.word32_eq_ok hmagic, Reader.word16_eq_ok hversion, Reader.byte_eq_ok hflag,
        Reader.byte_eq_ok h₀, Reader.word32_eq_ok hlargest, Reader.byte_eq_ok hblockCount,
        Reader.byte_eq_ok hreferenceCount, Reader.byte_eq_ok hnameCount, Reader.byte_eq_ok h₁,
        hblocks, hreferences, hnames]
      simp [fileWith, tableReferenceCount, hb, hcount, hn]

/-- The bytes before the names. -/
def front (d : Dictionary) (flag : UInt8) (largest : UInt32) : Bytes :=
  Bytes.ofWord32 dictionaryMagic ++ Bytes.ofWord16 d.version ++ [flag, d.reserved.1]
    ++ Bytes.ofWord32 largest
    ++ [UInt8.ofNat d.blocks.length, UInt8.ofNat d.tableReferenceCount, UInt8.ofNat d.names.length,
      d.reserved.2]
    ++ d.blocks.flatMap Descriptor.bytes ++ d.tableReferences

theorem Savable.toNat_references {d : Dictionary} (hs : d.Savable) :
    (UInt8.ofNat d.tableReferenceCount).toNat * tableReferenceSize = d.tableReferences.length := by
  have hw := hs.whole
  rw [UInt8.toNat_ofNat_of_lt' hs.references, tableReferenceCount]
  rw [tableReferenceSize] at hw ⊢
  omega

/-- Behind the front come as many names as it says, and the trailer is what they leave. -/
theorem read_front {d : Dictionary} (hs : d.Savable) {flag : UInt8} (largest : UInt32)
    (hflag : flag ≠ 0 ↔ d.isCompressed = true) (rest : Bytes) :
    read (d.front flag largest ++ rest)
      = (Reader.times readName d.names.length rest).map fun x =>
          ({ d with names := x.1, trailer := x.2 }, []) := by
  have hblocks : Reader.Takes (Reader.times Descriptor.read d.blocks.length)
      (d.blocks.flatMap Descriptor.bytes) d.blocks := Reader.Takes.times fun b _ => b.takes_read
  have hdecide : decide (flag ≠ 0) = d.isCompressed := by
    rw [Bool.eq_iff_iff, decide_eq_true_iff]
    exact hflag
  simp only [front, List.append_assoc, List.cons_append, List.nil_append]
  rw [read, (Reader.takes_word32 _).run_bind, if_neg (by simp)]
  show (Reader.word16 >>= _) _ = _
  rw [(Reader.takes_word16 _).run_bind, Reader.byte_run_bind, Reader.byte_run_bind,
    (Reader.takes_word32 _).run_bind, Reader.byte_run_bind, Reader.byte_run_bind,
    Reader.byte_run_bind, Reader.byte_run_bind, UInt8.toNat_ofNat_of_lt' hs.blocks, hblocks.run_bind,
    (Reader.takes_take hs.toNat_references.symm).run_bind, UInt8.toNat_ofNat_of_lt' hs.names, Reader.bind_run,
    hdecide]
  cases Reader.times readName d.names.length rest with
  | error e => rfl
  | ok x => rfl

/-- A file of a dictionary is read, whatever it says is the size of the largest block. What names
and what trailer are found depends on where the zero bytes are. -/
theorem read_fileWith_of_names {d : Dictionary} (hs : d.Savable) {flag : UInt8} (largest : UInt32)
    (hflag : flag ≠ 0 ↔ d.isCompressed = true) {names : List String} {trailer : Bytes}
    (hnames : Reader.times readName d.names.length
      (d.names.flatMap (fun name => Utf8.encode name ++ [0]) ++ d.trailer) = .ok (names, trailer)) :
    read (d.fileWith flag largest) = .ok ({ d with names, trailer }, []) := by
  have hfile : d.fileWith flag largest = d.front flag largest
      ++ (d.names.flatMap (fun name => Utf8.encode name ++ [0]) ++ d.trailer) :=
    List.append_assoc ..
  rw [hfile, read_front hs largest hflag, hnames]
  rfl

/-- Names without zero bytes are found again. -/
theorem read_fileWith {d : Dictionary} (hs : d.Savable)
    (hnames : ∀ name ∈ d.names, 0 ∉ Utf8.encode name) {flag : UInt8} (largest : UInt32)
    (hflag : flag ≠ 0 ↔ d.isCompressed = true) :
    read (d.fileWith flag largest) = .ok (d, []) :=
  read_fileWith_of_names hs largest hflag
    (Reader.Takes.times (fun name hname => takes_readName (hnames name hname)) d.trailer)

/-- **What is loaded from a file.** -/
theorem load_eq_ok {bytes : Bytes} {d : Dictionary} :
    load bytes = .ok d ↔ d.Savable ∧ (∀ name ∈ d.names, 0 ∉ Utf8.encode name)
      ∧ ∃ flag largest, (flag ≠ 0 ↔ d.isCompressed = true) ∧ bytes = d.fileWith flag largest := by
  have hload : load bytes = (read bytes).map Prod.fst := rfl
  constructor
  · intro h
    cases hread : read bytes with
    | error e =>
        rw [hload, hread] at h
        cases h
    | ok x =>
        rw [hload, hread] at h
        cases h
        exact read_eq_ok hread
  · rintro ⟨hs, hnames, flag, largest, hflag, rfl⟩
    rw [hload, read_fileWith hs hnames largest hflag]
    rfl

/-- A dictionary that has been loaded can be saved, and none of its names has a zero byte. -/
theorem savable_of_load {bytes : Bytes} {d : Dictionary} (h : load bytes = .ok d) :
    d.Savable ∧ ∀ name ∈ d.names, 0 ∉ Utf8.encode name := by
  obtain ⟨hs, hnames, -⟩ := load_eq_ok.mp h
  exact ⟨hs, hnames⟩

/-- What is saved is one of the files of the dictionary. -/
theorem body_append_trailer (d : Dictionary) :
    d.body ++ d.trailer = d.fileWith d.flag d.largestBlock := rfl

/-- **A saved dictionary is loaded as it was.** -/
theorem load_save {d : Dictionary} {bytes : Bytes} (hnames : ∀ name ∈ d.names, 0 ∉ Utf8.encode name)
    (h : d.save = .ok bytes) : load bytes = .ok d := by
  obtain ⟨hs, rfl⟩ := save_eq_ok.mp h
  rw [body_append_trailer]
  exact load_eq_ok.mpr ⟨hs, hnames, d.flag, d.largestBlock, d.flag_ne_zero, rfl⟩

/-- In a text with enough zeros so many names are found, each of them ending at the next zero. -/
theorem exists_times_readName {n : Nat} {cs : List Char} (hzeros : n ≤ cs.count '\x00')
    (rest : Bytes) : ∃ names left, Reader.times readName n
      (cs.flatMap String.utf8EncodeChar ++ rest) = .ok (names, left) := by
  induction n generalizing cs with
  | zero => exact ⟨[], _, rfl⟩
  | succ n ih =>
      obtain ⟨front, back, rfl, hfront⟩ : ∃ front back, cs = front ++ '\x00' :: back
          ∧ '\x00' ∉ front :=
        List.eq_append_cons_of_mem (List.count_pos_iff.mp (by omega))
      have hback : n ≤ back.count '\x00' := by
        rw [List.count_append, List.count_eq_zero_of_not_mem hfront, List.count_cons_self] at hzeros
        omega
      obtain ⟨names, left, hnames⟩ := ih hback
      have hencode := Utf8.encode_eq_flatMap (String.ofList front)
      rw [String.toList_ofList] at hencode
      have hfirst : Reader.Takes readName (front.flatMap String.utf8EncodeChar ++ [0])
          (String.ofList front) := by
        rw [← hencode]
        refine takes_readName ?_
        rwa [Utf8.zero_mem_encode, String.toList_ofList]
      refine ⟨String.ofList front :: names, left, ?_⟩
      have hbytes : (front ++ '\x00' :: back).flatMap String.utf8EncodeChar ++ rest
          = (front.flatMap String.utf8EncodeChar ++ [0])
            ++ (back.flatMap String.utf8EncodeChar ++ rest) := by
        rw [List.flatMap_append, List.flatMap_cons, List.append_assoc, List.append_assoc,
          List.append_assoc]
        rfl
      rw [Reader.times, hbytes, hfirst.run_bind, Reader.bind_run, hnames]
      rfl

/-- **A saved dictionary is always loaded**, with the same blocks in the same mode. A name with a
zero byte is cut there, and what is left over goes to the trailer. -/
theorem exists_load_of_save {d : Dictionary} {bytes : Bytes} (h : d.save = .ok bytes) :
    ∃ names trailer, load bytes = .ok { d with names, trailer } := by
  obtain ⟨hs, rfl⟩ := save_eq_ok.mp h
  have hwritten : d.names.flatMap (fun name => Utf8.encode name ++ [0])
      = (d.names.flatMap fun name => name.toList ++ ['\x00']).flatMap String.utf8EncodeChar := by
    rw [List.flatMap_assoc]
    refine congrArg (fun write => d.names.flatMap write) (funext fun name => ?_)
    rw [List.flatMap_append, Utf8.encode_eq_flatMap]
    rfl
  have hzeros : d.names.length
      ≤ (d.names.flatMap fun name => name.toList ++ ['\x00']).count '\x00' := by
    induction d.names with
    | nil => exact Nat.zero_le _
    | cons name names ih =>
        rw [List.flatMap_cons, List.count_append, List.count_append, List.length_cons]
        have hlast : ['\x00'].count '\x00' = 1 := rfl
        omega
  obtain ⟨names, trailer, hnames⟩ := exists_times_readName hzeros d.trailer
  rw [← hwritten] at hnames
  refine ⟨names, trailer, ?_⟩
  show (read (d.body ++ d.trailer)).map Prod.fst = _
  rw [body_append_trailer, read_fileWith_of_names hs d.largestBlock d.flag_ne_zero hnames]
  rfl

/-- **A dictionary is saved exactly if each of its counts fits a byte** and the table references are
whole, and then it is loaded as it was, with all its regions. -/
theorem save_isOk_iff_and_load (d : Dictionary) (hnames : ∀ name ∈ d.names, '\x00' ∉ name.toList) :
    ((∃ bytes, d.save = .ok bytes) ↔ d.blocks.length ≤ 255 ∧ d.names.length ≤ 255
        ∧ d.tableReferences.length % 8 = 0 ∧ d.tableReferences.length ≤ 255 * 8)
      ∧ ∀ bytes, d.save = .ok bytes → load bytes = .ok d := by
  refine ⟨?_, fun bytes h => ?_⟩
  · rw [← savable_iff]
    constructor
    · rintro ⟨bytes, h⟩
      exact (save_eq_ok.mp h).1
    · intro hs
      exact ⟨_, save_eq_ok.mpr ⟨hs, rfl⟩⟩
  · refine load_save (fun name hname => ?_) h
    rw [Utf8.zero_mem_encode]
    exact hnames name hname

/-- Two blocks, one table reference, a name that is not ASCII, an empty name and a trailer. -/
theorem save_isOk_iff_and_load_regions :
    let d : Dictionary := {
      version := 0x401, isCompressed := true, tableReferences := [1, 2, 3, 4, 5, 6, 7, 8],
      names := ["é", ""], trailer := [0, 7], reserved := (9, 0xA)
      blocks := [⟨0, 0x20, 0x11, 0, (1, 2, 3)⟩, ⟨0x11, 5, 5, 2, (0, 0, 4)⟩] }
    (∀ name ∈ d.names, '\x00' ∉ name.toList)
      ∧ ∃ bytes, d.save = .ok bytes ∧ load bytes = .ok d := by
  intro d
  have hnames : ∀ name ∈ d.names, '\x00' ∉ name.toList := by decide
  obtain ⟨hsave, hload⟩ := save_isOk_iff_and_load d hnames
  obtain ⟨bytes, hbytes⟩ := hsave.mpr (by decide)
  exact ⟨hnames, bytes, hbytes, hload bytes hbytes⟩

end Dictionary

end ChunkArchive
