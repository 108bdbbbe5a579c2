import ChunkArchive.CommandLine.Run
import ChunkArchive.Deflate.Codec
import ChunkArchive.Proofs.Archive.Changes
import ChunkArchive.Proofs.Archive.Edits
import ChunkArchive.Proofs.CommandLine.Disk

/-!
# Commands that save an archive

A command that saves an archive reads one, changes it in memory and writes its two files. Each step
of it is inverted once (`Ends.bind_iff` and the lemmas behind it), so that a run that ends well tells
what has been read, held and written (`ends_perform`). The pair on disk opens again with the forest
that was held in memory, if the data file has a path of its own (`perform_saves`). If its path is that
of the dictionary, it has taken the dictionary's place.
-/

set_option autoImplicit false

namespace ChunkArchive

/-! ## Archives that are saved and opened again -/

namespace Archive

variable {codec : Codec} {level : Nat} {pair saved : FilePair} {a b : Archive}

/-- What an archive has to be for an edit of it to be found again: nothing is damaged, no leaf is
empty or shares a byte with another, and what is packed afterwards has less than 4 GiB. -/
structure Editable (a b : Archive) : Prop where
  faults : a.faults = []
  nonempty : ∀ e ∈ a.forest.walk, e.2.payload? ≠ some []
  apart : a.forest.walk.Pairwise fun x y => x.2.Apart y.2
  fits : ∀ x ∈ b.blocks, x.descriptor.isPacked b.isCompressed = true → x.bytes.length < 2 ^ 32

/-- In a data file below 4 GiB every stored block is short enough. -/
theorem stored_fits (hsave : a.save codec level = .ok saved) (hdata : saved.data.length < 2 ^ 32) :
    ∀ s ∈ a.stored codec level, s.2.length < 2 ^ 32 := by
  obtain ⟨-, -, -, hstored⟩ := save_eq_ok.mp hsave
  intro s hs
  rw [hstored] at hdata
  exact (length_le_of_mem_stored hs).trans_lt hdata

/-- A block that is not packed is stored as it is, so that it is no longer than what is stored. -/
theorem length_block_lt (hfit : ∀ s ∈ a.stored codec level, s.2.length < 2 ^ 32) {x : Block}
    (hx : x ∈ a.blocks) (hpacked : x.descriptor.isPacked a.isCompressed = false) :
    x.bytes.length < 2 ^ 32 := by
  have hstored := hfit _ (List.mem_map_of_mem hx)
  rcases Block.store_cases codec (min level Codec.maxLevel) a.isCompressed x with
    ⟨-, h⟩ | ⟨-, -, h⟩ | ⟨hc, -, hchunks, -⟩ | ⟨-, -, -, h⟩
  · rwa [h] at hstored
  · rwa [h] at hstored
  · rw [Descriptor.isPacked, hc, hchunks] at hpacked
    cases hpacked
  · rwa [h] at hstored

/-- An archive that has been edited and saved is opened with the forest that it had in memory, in
which only the target has another payload. -/
theorem load_save_setPayload {path : Path} {payload : Bytes} (hload : load codec false pair = .ok a)
    (hset : a.setPayload path payload = .ok b) (he : a.Editable b)
    (hsave : b.save codec level = .ok saved) (hdata : saved.data.length < 2 ^ 32) :
    ∃ c, load codec false saved = .ok c ∧ c.forest = b.forest
      ∧ ∀ q, (b.forest.get? q).bind Node.payload?
        = if q = path then some payload else (a.forest.get? q).bind Node.payload? := by
  have hcoherent : a.Coherent := ⟨he.faults, fits_of_load hload, he.apart⟩
  obtain ⟨h, old, moves, block, htarget, -, hedited⟩ := target_of_setPayload hset
  have hne : old ≠ [] := by
    rintro rfl
    exact he.nonempty _ (Forest.mem_walk.mpr (Forest.leaf?_eq_some.mp htarget)) rfl
  have hb := hedited.coherent hcoherent htarget hne
  have hkept := (kept_of_load hload).edited hedited hb
  have hfit := stored_fits hsave hdata
  have hblocks : ∀ x ∈ b.blocks, x.bytes.length < 2 ^ 32 := by
    intro x hx
    cases hpacked : x.descriptor.isPacked b.isCompressed with
    | true => exact he.fits x hx hpacked
    | false => exact length_block_lt hfit hx hpacked
  have hsound : b.Sound codec :=
    ⟨sound_of_faults_eq_nil hb.undamaged hblocks, hkept.names, hkept.forest⟩
  obtain ⟨c, hc, hopen⟩ := load_save hsound hfit hsave
  refine ⟨c, hopen false (by simp), hc.forest, fun q => ?_⟩
  rw [Forest.payload?_get?, Forest.payload?_get?]
  exact hedited.payload?_edited htarget (hedited.moved_leaf hcoherent.inStep) q

end Archive

namespace CommandLine

/-! ## Steps that end well -/

variable {codec : Codec} {α β : Type}

/-- The step ends well on `files`, with a result and with the files as they are then. -/
def Ends (step : Run (StateM Files) α) (files : Files) (a : α) (files' : Files) : Prop :=
  StateT.run (ExceptT.run step) files = (.ok a, files')

section Steps

variable {files files' : Files} {a : α} {failure : FileFault → Failure} {path : String}
  {bytes : Bytes}

theorem Ends.bind_iff {step : Run (StateM Files) α} {next : α → Run (StateM Files) β} {b : β} :
    Ends (step >>= next) files b files' ↔
      ∃ a files₁, Ends step files a files₁ ∧ Ends (next a) files₁ b files' := by
  have hrun : StateT.run (ExceptT.run (step >>= next)) files
      = match StateT.run (ExceptT.run step) files with
        | (.ok a, files₁) => StateT.run (ExceptT.run (next a)) files₁
        | (.error e, files₁) => (.error e, files₁) := by
    rw [ExceptT.run_bind, StateT.run_bind]
    rcases StateT.run (ExceptT.run step) files with ⟨_ | _, _⟩ <;> rfl
  rw [Ends, hrun]
  rcases hstep : StateT.run (ExceptT.run step) files with ⟨e | x, files₁⟩
  · constructor
    · intro h
      cases h
    · rintro ⟨a, files₂, h, -⟩
      rw [Ends, hstep] at h
      cases h
  · constructor
    · exact fun h => ⟨x, files₁, hstep, h⟩
    · rintro ⟨a, files₂, h, hnext⟩
      rw [Ends, hstep] at h
      cases h
      exact hnext

theorem ends_pure {x : α} : Ends (pure x) files a files' ↔ x = a ∧ files = files' := by
  show ((Except.ok x : Except Failure α), files) = _ ↔ _
  rw [Prod.mk.injEq, Except.ok.injEq]

theorem ends_attempt {failure : Error → Failure} {result : Except Error α} :
    Ends (attempt failure result) files a files' ↔ result = .ok a ∧ files = files' := by
  show (result.mapError failure, files) = _ ↔ _
  rw [Prod.mk.injEq, Outcome.mapError_eq_ok]

theorem ends_readFile : Ends (readFile Files.disk failure path) files bytes files' ↔
    files.read path = .ok bytes ∧ files = files' := by
  show ((files.read path).mapError failure, files) = _ ↔ _
  rw [Prod.mk.injEq, Outcome.mapError_eq_ok]

theorem ends_writeFile {u : Unit} : Ends (writeFile Files.disk failure path bytes) files u files' ↔
    files.write path bytes = .ok files' := by
  show ((Files.disk.write path bytes files).1.mapError failure,
    (Files.disk.write path bytes files).2) = _ ↔ _
  rw [Prod.mk.injEq, Outcome.mapError_eq_ok]
  simp only [Files.disk]
  cases files.write path bytes with
  | error fault => simp
  | ok written => simp

end Steps

/-! ## Reading and writing an archive -/

section Pairs

variable {files files' : Files} {source destination : String} {data : Option String}
  {level : Nat} {a : Archive}

/-- The two files hold the archive `a`. -/
def Opens (codec : Codec) (files : Files) (source : String) (data : Option String) (a : Archive) :
    Prop :=
  Ends (readArchive Files.disk codec source data) files a files

theorem ends_readArchive : Ends (readArchive Files.disk codec source data) files a files' ↔
    files = files' ∧ ∃ dictionary bytes, files.read source = .ok dictionary
      ∧ files.read (data.getD (dataPath source)) = .ok bytes
      ∧ Archive.load codec false ⟨dictionary, bytes⟩ = .ok a := by
  simp only [readArchive, Ends.bind_iff, ends_readFile, ends_attempt]
  constructor
  · rintro ⟨dictionary, _, ⟨hdictionary, rfl⟩, bytes, _, ⟨hbytes, rfl⟩, hload, rfl⟩
    exact ⟨rfl, dictionary, bytes, hdictionary, hbytes, hload⟩
  · rintro ⟨rfl, dictionary, bytes, hdictionary, hbytes, hload⟩
    exact ⟨dictionary, _, ⟨hdictionary, rfl⟩, bytes, _, ⟨hbytes, rfl⟩, hload, rfl⟩

theorem opens_iff : Opens codec files source data a ↔
    ∃ dictionary bytes, files.read source = .ok dictionary
      ∧ files.read (data.getD (dataPath source)) = .ok bytes
      ∧ Archive.load codec false ⟨dictionary, bytes⟩ = .ok a := by
  rw [Opens, ends_readArchive]
  exact and_iff_right rfl

theorem ends_readArchive_iff_opens :
    Ends (readArchive Files.disk codec source data) files a files' ↔
      files = files' ∧ Opens codec files source data a := by
  rw [ends_readArchive, opens_iff]

theorem ends_writeArchive {u : Unit} :
    Ends (writeArchive Files.disk codec level destination a) files u files' ↔
      ∃ saved files₁, a.save codec level = .ok saved
        ∧ files.write destination saved.dictionary = .ok files₁
        ∧ files₁.write (dataPath destination) saved.data = .ok files' := by
  simp only [writeArchive, Ends.bind_iff, ends_writeFile, ends_attempt]
  constructor
  · rintro ⟨saved, _, ⟨hsave, rfl⟩, -, files₁, hdictionary, hdata⟩
    exact ⟨saved, files₁, hsave, hdictionary, hdata⟩
  · rintro ⟨saved, files₁, hsave, hdictionary, hdata⟩
    exact ⟨saved, _, ⟨hsave, rfl⟩, (), files₁, hdictionary, hdata⟩

end Pairs

/-! ## Requests that save -/

/-- The path that a request saves an archive to. -/
def Request.destination? : Request → Option String
  | .patch _ destination _ _ _ => some destination
  | .compress _ destination _ _ => some destination
  | .decompress _ destination _ => some destination
  | _ => none

/-- From the archive `a` that the request reads it makes the archive `b` in memory, with the edits
of payloads that it is about. -/
inductive Request.Makes (codec : Codec) (files : Files) :
    Request → Archive → List (Path × Bytes) → Archive → Prop
  | patch {source destination chunk payload : String} {data : Option String} {a b : Archive}
      {path : Path} {bytes : Bytes} (chunk_eq : Path.parse chunk = .ok path)
      (payload_eq : files.read payload = .ok bytes) (opens : Opens codec files source data a)
      (edited : a.setPayload path bytes = .ok b) :
      Makes codec files (.patch source destination chunk payload data) a [(path, bytes)] b
  | compress {source destination : String} {data : Option String} {level : Nat} {a : Archive}
      (opens : Opens codec files source data a) :
      Makes codec files (.compress source destination data level) a [] (a.setCompressed true)
  | decompress {source destination : String} {data : Option String} {a : Archive}
      (opens : Opens codec files source data a) :
      Makes codec files (.decompress source destination data) a [] (a.setCompressed false)

section Running

variable {files files' : Files} {names : NameTable} {request : Request} {destination : String}
  {output : String}

/-- **What a request that saves has done when it ends well**: it has made an archive of the one that
it read and has written its two files. -/
theorem ends_perform (hdestination : request.destination? = some destination)
    (hends : Ends (perform Files.disk codec names request) files output files') :
    ∃ a edits b level, request.Makes codec files a edits b
      ∧ Ends (writeArchive Files.disk codec level destination b) files () files' := by
  cases request with
  | info source data => cases hdestination
  | tree source data type => cases hdestination
  | decompile source data json output => cases hdestination
  | patch source destination chunk payload data =>
      cases hdestination
      simp only [perform, Ends.bind_iff, ends_attempt, ends_readFile, ends_readArchive_iff_opens,
        ends_pure] at hends
      obtain ⟨path, _, ⟨hpath, rfl⟩, bytes, _, ⟨hbytes, rfl⟩, a, _, ⟨rfl, hopens⟩, b, _,
        ⟨hset, rfl⟩, ⟨⟩, _, hwrite, -, rfl⟩ := hends
      exact ⟨a, _, b, _, .patch hpath hbytes hopens hset, hwrite⟩
  | compress source destination data level =>
      cases hdestination
      simp only [perform, Ends.bind_iff, ends_readArchive_iff_opens, ends_pure] at hends
      obtain ⟨a, _, ⟨rfl, hopens⟩, ⟨⟩, _, hwrite, -, rfl⟩ := hends
      exact ⟨a, _, _, _, .compress hopens, hwrite⟩
  | decompress source destination data =>
      cases hdestination
      simp only [perform, Ends.bind_iff, ends_readArchive_iff_opens, ends_pure] at hends
      obtain ⟨a, _, ⟨rfl, hopens⟩, ⟨⟩, _, hwrite, -, rfl⟩ := hends
      exact ⟨a, _, _, _, .decompress hopens, hwrite⟩

theorem ends_readNames {path : Option String}
    (hends : Ends (readNames Files.disk path) files names files') : files = files' := by
  cases path with
  | none => exact (ends_pure.mp hends).2
  | some path =>
      obtain ⟨bytes, _, hread, hends⟩ := Ends.bind_iff.mp hends
      obtain ⟨-, rfl⟩ := ends_readFile.mp hread
      cases hdecode : Utf8.decode bytes with
      | ok text =>
          rw [hdecode] at hends
          exact (ends_pure.mp hends).2
      | error e =>
          rw [hdecode] at hends
          cases hends

/-- The program has carried out the request of its arguments when its exit code is zero. -/
theorem ends_of_run {arguments : List String} {i : Invocation} {result : Result}
    (hparse : parse arguments = .run i)
    (hrun : StateT.run (run Files.disk codec arguments) files = (result, files'))
    (hexit : result.exitCode = 0) :
    ∃ names output, Ends (perform Files.disk codec names i.request) files output files' := by
  have hresult : StateT.run (run Files.disk codec arguments) files
      = match StateT.run (ExceptT.run (runInvocation Files.disk codec i)) files with
        | (.ok output, files₁) => (⟨0, output, none⟩, files₁)
        | (.error failure, files₁) => (⟨1, "", some failure⟩, files₁) := by
    simp only [run, hparse, StateT.run_bind]
    rcases StateT.run (ExceptT.run (runInvocation Files.disk codec i)) files with ⟨_ | _, _⟩ <;> rfl
  rw [hresult] at hrun
  split at hrun
  · next output files₁ hends =>
      obtain ⟨rfl, rfl⟩ := Prod.mk.inj hrun
      obtain ⟨names, _, hnames, hperform⟩ := Ends.bind_iff.mp hends
      obtain rfl := ends_readNames hnames
      exact ⟨names, output, hperform⟩
  · -- the exit code of a failure is another one
    obtain ⟨rfl, rfl⟩ := Prod.mk.inj hrun
    exact absurd hexit (show ¬ (1 : UInt32) = 0 by decide)

/-- The archive that a request makes is opened again from the files it is saved to. -/
theorem Request.Makes.load_save {a b : Archive} {edits : List (Path × Bytes)} {level : Nat}
    {saved : FilePair} (hmakes : request.Makes codec files a edits b)
    (hsave : b.save codec level = .ok saved) (hdata : saved.data.length < 2 ^ 32)
    (heditable : edits ≠ [] → a.Editable b) :
    ∃ c, Archive.load codec false saved = .ok c ∧ c.forest = b.forest
      ∧ ∀ q, (b.forest.get? q).bind Node.payload?
        = Archive.lastSet edits q ((a.forest.get? q).bind Node.payload?) := by
  have hfit := Archive.stored_fits hsave hdata
  cases hmakes with
  | patch _ _ opens edited =>
      obtain ⟨dictionary, bytes, -, -, hload⟩ := opens_iff.mp opens
      exact Archive.load_save_setPayload hload edited (heditable (List.cons_ne_nil _ _)) hsave hdata
  | compress opens =>
      obtain ⟨dictionary, bytes, -, -, hload⟩ := opens_iff.mp opens
      obtain ⟨c, hc, -, hforest, -⟩ := Archive.load_save_setCompressed hload hsave hfit
      exact ⟨c, hc, hforest, fun q => rfl⟩
  | decompress opens =>
      obtain ⟨dictionary, bytes, -, -, hload⟩ := opens_iff.mp opens
      obtain ⟨c, hc, -, hforest, -⟩ := Archive.load_save_setCompressed hload hsave hfit
      exact ⟨c, hc, hforest, fun q => rfl⟩

/-- **What a request that saves an archive leaves on disk.** Whatever the files are and whatever the
path it saves to, if it is carried out it has saved the archive that it made in memory: the data is
read from the data path, and the dictionary from the path it saves to, if the two differ. Then the
pair opens again with the forest that was in memory, in which every payload is that of the source or
the one that was put in its place. If there is but one path, the data has taken the place of the
dictionary. -/
theorem perform_saves (hdestination : request.destination? = some destination)
    (hends : Ends (perform Files.disk codec names request) files output files') :
    ∃ a edits b level saved, request.Makes codec files a edits b
      ∧ b.save codec level = .ok saved
      ∧ files'.read (dataPath destination) = .ok saved.data
      ∧ files'.read destination
        = .ok (if dataPath destination = destination then saved.data else saved.dictionary)
      ∧ (dataPath destination ≠ destination → saved.data.length < 2 ^ 32 →
          (edits ≠ [] → a.Editable b) →
          ∃ c, Opens codec files' destination none c ∧ c.forest = b.forest
            ∧ ∀ q, (b.forest.get? q).bind Node.payload?
              = Archive.lastSet edits q ((a.forest.get? q).bind Node.payload?)) := by
  obtain ⟨a, edits, b, level, hmakes, hwrite⟩ := ends_perform hdestination hends
  obtain ⟨saved, files₁, hsave, hdictionary, hbytes⟩ := ends_writeArchive.mp hwrite
  obtain ⟨hread, hread'⟩ := Files.read_pair hdictionary hbytes
  refine ⟨a, edits, b, level, saved, hmakes, hsave, hread, hread', fun hne hdata heditable => ?_⟩
  obtain ⟨c, hload, hforest, hpayloads⟩ := hmakes.load_save hsave hdata heditable
  rw [if_neg hne] at hread'
  exact ⟨c, opens_iff.mpr ⟨_, _, hread', hread, hload⟩, hforest, hpayloads⟩

end Running

/-- The second of two leaves is given a longer payload, and the pair is saved next to its source. -/
theorem perform_saves_patch :
    let arguments := ["patch", "a.dict", "b.dict", "--chunk=1", "-p", "new"]
    let files := Files.ofList [
      ("a.dict", [0x58, 0x24, 0xF3, 0xA9, 1, 0, 0, 0, 24, 0, 0, 0, 2, 0, 0, 0,
        0, 0, 0, 0, 24, 0, 0, 0, 24, 0, 0, 0, 0, 0, 0, 0,
        24, 0, 0, 0, 5, 0, 0, 0, 5, 0, 0, 0, 0, 0, 0, 0]),
      ("a.data", [5, 0, 0, 0, 0, 0, 0, 0, 2, 0, 0, 0, 6, 0, 0, 0, 4, 0, 0, 0, 1, 0, 0, 0,
        1, 2, 0, 0, 3]),
      ("new", [7, 8, 9])]
    let ended := StateT.run (run Files.disk Codec.deflate arguments) files
    parse arguments = .run ⟨none, .patch "a.dict" "b.dict" "1" "new" none⟩
      ∧ ended.1.exitCode = 0
      ∧ ∃ c, Opens Codec.deflate ended.2 "b.dict" none c
        ∧ (c.forest.get? ⟨1, []⟩).bind Node.payload? = some [7, 8, 9]
        ∧ (c.forest.get? ⟨0, []⟩).bind Node.payload? = some [1, 2] := by
  intro arguments files ended
  let forest : Forest := ⟨[.ofPayload 5 0 0 [1, 2], .ofPayload 6 0 4 [3]]⟩
  let a : Archive := ⟨{ isCompressed := false }, [⟨⟨0, 24, 24, 0, (0, 0, 0)⟩, forest.table, none⟩,
    ⟨⟨24, 5, 5, 0, (0, 0, 0)⟩, [1, 2, 0, 0, 3], none⟩], forest⟩
  have hparse : parse arguments = .run ⟨none, .patch "a.dict" "b.dict" "1" "new" none⟩ := by
    decide +kernel
  have hexit : ended.1.exitCode = 0 := by decide +kernel
  have hopens : Opens Codec.deflate files "a.dict" none a :=
    opens_iff.mpr ⟨_, _, rfl, rfl, by decide +kernel⟩
  have hmoves : a.forest.moves ⟨1, []⟩ ⟨6, 0, 4, 1⟩ 3 = .ok [] := by cbv
  have hset : a.setPayload ⟨1, []⟩ [7, 8, 9] = .ok _ :=
    Archive.setPayload_of_moves rfl rfl rfl rfl (by decide) hmoves
  have hdata : ended.2.read (dataPath "b.dict") = .ok
      [5, 0, 0, 0, 0, 0, 0, 0, 2, 0, 0, 0, 6, 0, 0, 0, 4, 0, 0, 0, 3, 0, 0, 0, 1, 2, 0, 0, 7, 8, 9] := by
    decide +kernel
  have hrun : StateT.run (run Files.disk Codec.deflate arguments) files = (ended.1, ended.2) := rfl
  obtain ⟨names, output, hends⟩ := ends_of_run hparse hrun hexit
  refine ⟨hparse, hexit, ?_⟩
  obtain ⟨a', edits, b, level, saved, hmakes, hsave, hsaved, -, hopen⟩ := perform_saves rfl hends
  cases hmakes with
  | patch hchunk hpayload hopens' hset' =>
      cases hopens.symm.trans hopens'
      have hchunk₀ : Path.parse "1" = .ok ⟨1, []⟩ := by decide +kernel
      have hpayload₀ : files.read "new" = .ok [7, 8, 9] := by decide +kernel
      cases hchunk₀.symm.trans hchunk
      cases hpayload₀.symm.trans hpayload
      cases hset.symm.trans hset'
      have hlength : saved.data.length < 2 ^ 32 := by
        rw [← Except.ok.inj (hdata.symm.trans hsaved)]
        decide
      obtain ⟨c, hc, hforest, hpayloads⟩ := hopen (by decide +kernel) hlength fun _ =>
        ⟨by decide +kernel, by decide +kernel, by decide +kernel, by decide +kernel⟩
      rw [← hforest] at hpayloads
      exact ⟨c, hc, hpayloads ⟨1, []⟩, hpayloads ⟨0, []⟩⟩

/-- An archive is saved to a path whose extension is that of data files: all is well for the
command, and there is no dictionary. -/
theorem perform_saves_one_path :
    let arguments := ["decompress", "a.dict", "x.data"]
    let files := Files.ofList [
      ("a.dict", [0x58, 0x24, 0xF3, 0xA9, 1, 0, 0, 0, 12, 0, 0, 0, 2, 0, 0, 0,
        0, 0, 0, 0, 12, 0, 0, 0, 12, 0, 0, 0, 0, 0, 0, 0,
        12, 0, 0, 0, 1, 0, 0, 0, 1, 0, 0, 0, 0, 0, 0, 0]),
      ("a.data", [5, 0, 0, 0, 0, 0, 0, 0, 1, 0, 0, 0, 7])]
    let ended := StateT.run (run Files.disk Codec.deflate arguments) files
    parse arguments = .run ⟨none, .decompress "a.dict" "x.data" none⟩
      ∧ (∃ a, Opens Codec.deflate files "a.dict" none a)
      ∧ ended.1.exitCode = 0
      ∧ ended.2.read "x.data" = .ok [5, 0, 0, 0, 0, 0, 0, 0, 1, 0, 0, 0, 7]
      ∧ ∀ c, ¬ Opens Codec.deflate ended.2 "x.data" none c := by
  intro arguments files ended
  have hread : ended.2.read "x.data" = .ok [5, 0, 0, 0, 0, 0, 0, 0, 1, 0, 0, 0, 7] := by
    decide +kernel
  refine ⟨by decide +kernel, ⟨_, opens_iff.mpr ⟨_, _, rfl, rfl, rfl⟩⟩, by decide +kernel, hread,
    fun c hopens => ?_⟩
  obtain ⟨dictionary, bytes, hdictionary, -, hload⟩ := opens_iff.mp hopens
  obtain rfl := Except.ok.inj (hread.symm.trans hdictionary)
  obtain ⟨d, hd, -⟩ := Archive.load_eq_ok.mp hload
  -- a table does not begin as a dictionary does
  cases hd

end CommandLine

end ChunkArchive
