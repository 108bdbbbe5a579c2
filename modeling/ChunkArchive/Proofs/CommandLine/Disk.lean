import ChunkArchive.CommandLine.Disk
import ChunkArchive.Proofs.Reader

/-!
# Files that are written and read

On a map from places to bytes, a path that can be written ends in a name for a file in a directory
that is there (`Files.target_eq_ok`). Writing a file makes and removes no directory, so all paths
lead to where they led before (`Files.sameDirectories_insert`). A dictionary and its data file lie in
one directory, and they are two files exactly if their paths are two (`Files.read_pair`).
-/

set_option autoImplicit false

namespace ChunkArchive

/-! ## The name at the end of a path -/

/-- A path up to its last slash. -/
def directoryOf (path : String) : List Char := (path.toList.reverse.dropWhile (· ≠ '/')).reverse

/-- What follows the last slash of a path. -/
def nameOf (path : String) : List Char := (path.toList.reverse.takeWhile (· ≠ '/')).reverse

/-- The steps to the directory of a path. -/
def stepsToDirectory (path : String) : List (List Char) :=
  ((directoryOf path).splitOn '/').dropLast

/-- A name of a file: a step that leads neither nowhere nor up. -/
structure IsName (name : List Char) : Prop where
  noSlash : '/' ∉ name
  nonempty : name ≠ []
  notHere : name ≠ ['.']
  notUp : name ≠ ['.', '.']

theorem toList_eq_directoryOf_append (path : String) :
    path.toList = directoryOf path ++ nameOf path := by
  rw [directoryOf, nameOf, ← List.reverse_append, List.takeWhile_append_dropWhile,
    List.reverse_reverse]

theorem noSlash_nameOf (path : String) : '/' ∉ nameOf path := by
  intro h
  rw [nameOf, List.mem_reverse] at h
  simpa using List.mem_takeWhile_imp h

/-- There is no directory, or it ends in a slash. -/
theorem directoryOf_cases (path : String) :
    directoryOf path = [] ∨ ∃ front, directoryOf path = front ++ ['/'] := by
  rw [directoryOf]
  cases h : path.toList.reverse.dropWhile (· ≠ '/') with
  | nil => exact Or.inl rfl
  | cons c rest =>
      have hhead := List.head?_dropWhile_not (· ≠ '/') path.toList.reverse
      rw [h] at hhead
      obtain rfl : c = '/' := by simpa using hhead
      exact Or.inr ⟨rest.reverse, List.reverse_cons⟩

section Sibling

variable {path : String} {name : List Char}

theorem reverse_sibling : (String.ofList (directoryOf path ++ name)).toList.reverse
    = name.reverse ++ path.toList.reverse.dropWhile (· ≠ '/') := by
  rw [String.toList_ofList, List.reverse_append, directoryOf, List.reverse_reverse]

theorem nameOf_sibling (hname : '/' ∉ name) :
    nameOf (String.ofList (directoryOf path ++ name)) = name := by
  have hall : ∀ c ∈ name.reverse, decide (c ≠ '/') = true := by
    intro c hc
    rw [List.mem_reverse] at hc
    exact decide_eq_true fun heq => hname (heq ▸ hc)
  have hstop : (path.toList.reverse.dropWhile (· ≠ '/')).takeWhile (· ≠ '/') = [] := by
    rw [List.takeWhile_eq_nil_iff]
    intro hlt
    have hhead := List.dropWhile_get_zero_not (· ≠ '/') path.toList.reverse hlt
    simpa using hhead
  rw [nameOf, reverse_sibling, List.takeWhile_append_of_pos hall, hstop, List.append_nil,
    List.reverse_reverse]

theorem directoryOf_sibling (hname : '/' ∉ name) :
    directoryOf (String.ofList (directoryOf path ++ name)) = directoryOf path := by
  have hsplit := toList_eq_directoryOf_append (String.ofList (directoryOf path ++ name))
  rw [nameOf_sibling hname, String.toList_ofList] at hsplit
  exact (List.append_cancel_right hsplit).symm

end Sibling

theorem stepsOf_eq (path : String) : stepsOf path = stepsToDirectory path ++ [nameOf path] := by
  have hname := noSlash_nameOf path
  have hlast : (nameOf path).splitOn '/' = [nameOf path] := List.splitOn_eq_singleton hname
  rw [stepsOf, toList_eq_directoryOf_append path, stepsToDirectory]
  rcases directoryOf_cases path with hnone | ⟨front, hfront⟩
  · rw [hnone, List.nil_append, hlast]
    rfl
  · rw [hfront, List.append_assoc, List.singleton_append, List.splitOn_append_cons_self,
      List.splitOn_append_cons_self, hlast]
    show _ = (front.splitOn '/' ++ [[]]).dropLast ++ _
    rw [List.dropLast_concat]

/-- The last step to a place that is written is the name, or an empty step where there is none. -/
theorem stepsToWrite_cases (path : String) :
    (nameOf path = [] ∧ ∃ steps, stepsToWrite path = steps ++ [[]])
      ∨ nameOf path ≠ [] ∧ stepsToWrite path = stepsToDirectory path ++ [nameOf path] := by
  rw [stepsToWrite, stepsOf_eq, List.reverse_append, List.reverse_singleton, List.singleton_append]
  by_cases hname : nameOf path = []
  · refine Or.inl ⟨hname, ?_⟩
    rw [hname]
    exact ⟨_, List.reverse_cons⟩
  · refine Or.inr ⟨hname, ?_⟩
    split
    · next heq => exact absurd (List.cons.inj heq).1 hname
    · rw [List.reverse_cons, List.reverse_reverse]

theorem originOf_eq (path : String) : originOf path
    = if (directoryOf path).head? = some '/' then ⟨.top, []⟩ else ⟨.here, []⟩ := by
  have hname := noSlash_nameOf path
  rw [originOf, toList_eq_directoryOf_append path]
  rcases directoryOf_cases path with hnone | ⟨front, hfront⟩
  · rw [hnone, List.nil_append]
    have hhead : (nameOf path).head? ≠ some '/' := fun h => hname (List.mem_of_head? h)
    rw [if_neg hhead]
    rfl
  · rw [hfront, List.head?_append_of_ne_nil _ (by simp)]

/-! ## The path of the data file -/

/-- The name of a data file by that of its dictionary. -/
def dataName (name : List Char) : List Char :=
  let stem := (name.reverse.dropWhile (· ≠ '.')).drop 1
  let stem := if stem.isEmpty then name else stem.reverse
  if stem = ['.'] then ['.', '.'] else stem ++ '.' :: "data".toList

theorem dropIdleSteps_of_isName {path : String} (h : IsName (nameOf path)) :
    dropIdleSteps path.toList.reverse = path.toList.reverse := by
  have hname : (nameOf path).reverse = path.toList.reverse.takeWhile (· ≠ '/') := by
    rw [nameOf, List.reverse_reverse]
  cases hreversed : path.toList.reverse with
  | nil => rfl
  | cons c rest =>
      rw [hreversed] at hname
      -- the name ends in `c`, which is no slash, and is not a single dot
      rw [dropIdleSteps.eq_def]
      split
      · next heq =>
          obtain ⟨rfl, -⟩ := List.cons.inj heq
          exact absurd (List.reverse_eq_nil_iff.mp hname) h.nonempty
      · next heq =>
          obtain ⟨rfl, rfl⟩ := List.cons.inj heq
          have hdot : (nameOf path).reverse = ['.'] := hname
          exact absurd (List.reverse_injective (hdot.trans List.reverse_singleton.symm)) h.notHere
      · rfl

theorem dataPath_eq {path : String} (h : IsName (nameOf path)) :
    dataPath path = String.ofList (directoryOf path ++ dataName (nameOf path)) := by
  have hnot : ¬ (nameOf path = [] ∨ nameOf path = ['.'] ∨ nameOf path = ['.', '.']) := by
    rintro (hnil | hdot | hdots)
    · exact h.nonempty hnil
    · exact h.notHere hdot
    · exact h.notUp hdots
  have happend : ∀ stem : List Char,
      (if stem = ['.'] then String.ofList (directoryOf path ++ ['.', '.'])
        else String.ofList (directoryOf path ++ stem ++ '.' :: "data".toList))
      = String.ofList (directoryOf path ++
          if stem = ['.'] then ['.', '.'] else stem ++ '.' :: "data".toList) := by
    intro stem
    split
    · rfl
    · rw [List.append_assoc]
  rw [dataPath, withExtension, dropIdleSteps_of_isName h, dataName]
  dsimp only
  rw [← nameOf, ← directoryOf, happend]
  simp only [Bool.or_eq_true, decide_eq_true_eq, or_assoc, if_neg hnot]

theorem noSlash_dataName {name : List Char} (h : '/' ∉ name) : '/' ∉ dataName name := by
  have hdata : '/' ∉ '.' :: "data".toList := by decide
  have hstem : '/' ∉ ((name.reverse.dropWhile (· ≠ '.')).drop 1).reverse := by
    intro hmem
    rw [List.mem_reverse] at hmem
    have hmem := (List.dropWhile_sublist _).subset (List.mem_of_mem_drop hmem)
    exact h (List.mem_reverse.mp hmem)
  simp only [dataName]
  split <;> split
  · decide
  · exact List.not_mem_append h hdata
  · decide
  · exact List.not_mem_append hstem hdata

/-- The data file is in the directory of its dictionary. -/
theorem directoryOf_dataPath {path : String} (h : IsName (nameOf path)) :
    directoryOf (dataPath path) = directoryOf path := by
  rw [dataPath_eq h, directoryOf_sibling (noSlash_dataName h.noSlash)]

/-- In one directory paths differ as their names do. -/
theorem nameOf_inj {path other : String} (hdirectory : directoryOf path = directoryOf other) :
    nameOf path = nameOf other ↔ path = other := by
  constructor
  · intro hname
    rw [← String.toList_inj, toList_eq_directoryOf_append, toList_eq_directoryOf_append other,
      hdirectory, hname]
  · exact congrArg nameOf

/-! ## Following a path -/

theorem Place.isAbove_iff {p q : Place} :
    p.isAbove q = true ↔ p.origin = q.origin ∧ p.names <:+ q.names.drop 1 := by
  rw [isAbove, Bool.and_eq_true, decide_eq_true_eq, List.isSuffixOf_iff_suffix]

namespace Files

variable {files files' : Files} {path : String} {p q : Place} {bytes : Bytes}

theorem enter_eq_ok {step : List Char} : files.enter p step = .ok q ↔ files.isDirectory p = true ∧
    ((step = [] ∨ step = ['.']) ∧ p = q ∨ step = ['.', '.'] ∧ p.parent = q
      ∨ (step ≠ [] ∧ step ≠ ['.'] ∧ step ≠ ['.', '.'])
        ∧ (String.ofList step).utf8ByteSize ≤ maxNameSize ∧ p.child step = q) := by
  unfold enter
  cases files.isDirectory p with
  | false => simp
  | true =>
      by_cases hstay : step = [] ∨ step = ['.']
      · rcases hstay with rfl | rfl <;> simp
      · by_cases hup : step = ['.', '.']
        · subst hup
          simp
        · rw [not_or] at hstay
          by_cases hlong : maxNameSize < (String.ofList step).utf8ByteSize
          · simp [hstay, hup, hlong, Nat.not_le_of_lt hlong]
          · simp [hstay, hup, hlong, Nat.le_of_not_lt hlong]

theorem foldlM_enter_concat {steps : List (List Char)} {step : List Char} :
    (steps ++ [step]).foldlM files.enter p = .ok q ↔
      ∃ last, steps.foldlM files.enter p = .ok last ∧ files.enter last step = .ok q := by
  rw [List.foldlM_append, Outcome.bind_eq_ok]
  simp only [List.foldlM_cons, List.foldlM_nil, bind_pure]

theorem follow_eq_ok {steps : List (List Char)} : files.follow path steps = .ok p ↔
    path.isEmpty = false ∧ path.utf8ByteSize ≤ maxPathSize
      ∧ steps.foldlM files.enter (originOf path) = .ok p := by
  unfold follow
  cases path.isEmpty with
  | true => simp
  | false =>
      by_cases hlong : maxPathSize < path.utf8ByteSize
      · simp [hlong]
      · simp [hlong, Nat.le_of_not_lt hlong]

theorem read_eq_ok : files.read path = .ok bytes ↔
    ∃ p, files.follow path (stepsOf path) = .ok p ∧ files.get? p = some bytes := by
  unfold read
  rw [Outcome.bind_eq_ok]
  refine exists_congr fun p => and_congr_right fun _ => ?_
  cases files.get? p with
  | none => simp
  | some bytes => simp

theorem write_eq_ok : files.write path bytes = .ok files' ↔
    ∃ p, files.target path = .ok p ∧ files' = files.insert p bytes := by
  unfold write
  rw [Outcome.bind_eq_ok]
  refine exists_congr fun p => and_congr_right fun _ => ?_
  rw [Outcome.pure_eq_ok, eq_comm]

theorem isDirectory_iff : files.isDirectory p = true ↔
    p.names = [] ∨ ∃ e ∈ files.entries, p.origin = e.1.origin ∧ p.names <:+ e.1.names.drop 1 := by
  rw [isDirectory, Bool.or_eq_true, decide_eq_true_eq, List.any_eq_true]
  simp only [Place.isAbove_iff]

/-- What a directory is in is a directory. -/
theorem isDirectory_of_suffix (h : files.isDirectory p = true) (horigin : q.origin = p.origin)
    (hnames : q.names <:+ p.names) : files.isDirectory q = true := by
  rw [isDirectory_iff] at h ⊢
  rcases h with hnil | ⟨e, he, heorigin, henames⟩
  · rw [hnil, List.suffix_nil] at hnames
    exact Or.inl hnames
  · exact Or.inr ⟨e, he, horigin.trans heorigin, hnames.trans henames⟩

theorem isDirectory_parent (h : files.isDirectory p = true) :
    files.isDirectory p.parent = true := by
  obtain ⟨origin, names⟩ := p
  cases names with
  | nil => cases origin <;> rfl
  | cons name names => exact isDirectory_of_suffix h rfl (List.suffix_cons name names)

/-- **A path that can be written ends in a name for a file, in a directory that is there.** -/
theorem target_eq_ok (h : files.target path = .ok p) :
    IsName (nameOf path) ∧ ∃ directory,
      files.follow path (stepsToDirectory path) = .ok directory
        ∧ files.isDirectory directory = true
        ∧ (String.ofList (nameOf path)).utf8ByteSize ≤ maxNameSize
        ∧ p = directory.child (nameOf path) := by
  obtain ⟨q, hfollow, h⟩ := Outcome.bind_eq_ok.mp h
  obtain ⟨hfile, h⟩ := Outcome.unless_eq_ok.mp h
  obtain rfl := Outcome.pure_eq_ok.mp h
  obtain ⟨hsome, hshort, hsteps⟩ := follow_eq_ok.mp hfollow
  rcases stepsToWrite_cases path with ⟨-, steps, hwrite⟩ | ⟨hnonempty, hwrite⟩
  · -- a path that ends in a slash leads to a directory, if anywhere
    rw [hwrite, foldlM_enter_concat] at hsteps
    obtain ⟨last, -, henter⟩ := hsteps
    obtain ⟨hdirectory, ⟨-, rfl⟩ | ⟨hup, -⟩ | ⟨⟨hne, -⟩, -⟩⟩ := enter_eq_ok.mp henter
    · exact absurd hdirectory hfile
    · cases hup
    · exact absurd rfl hne
  · rw [hwrite, foldlM_enter_concat] at hsteps
    obtain ⟨directory, hdirectory, henter⟩ := hsteps
    obtain ⟨hisDirectory, ⟨-, rfl⟩ | ⟨-, rfl⟩ | ⟨⟨-, hhere, hup⟩, hsize, rfl⟩⟩ :=
      enter_eq_ok.mp henter
    · exact absurd hisDirectory hfile
    · exact absurd (isDirectory_parent hisDirectory) hfile
    · exact ⟨⟨noSlash_nameOf path, hnonempty, hhere, hup⟩, directory,
        follow_eq_ok.mpr ⟨hsome, hshort, hdirectory⟩, hisDirectory, hsize, rfl⟩

/-! ## Writing a file -/

theorem get?_insert (files : Files) (p q : Place) (bytes : Bytes) :
    (files.insert p bytes).get? q = if q = p then some bytes else files.get? q := by
  rw [get?, insert, List.lookup_cons]
  by_cases hq : q = p
  · rw [if_pos hq, hq, beq_self_eq_true]
  · rw [if_neg hq, beq_false_of_ne hq, get?]
    show (files.entries.filter fun e => e.1 ≠ p).lookup q = _
    induction files.entries with
    | nil => rfl
    | cons e entries ih =>
        obtain ⟨r, x⟩ := e
        by_cases hr : r = p
        · have hne : q ≠ r := fun heq => hq (heq.trans hr)
          rw [List.filter_cons_of_neg (by simp [hr]), List.lookup_cons, beq_false_of_ne hne, ih]
        · rw [List.filter_cons_of_pos (by simp [hr]), List.lookup_cons, List.lookup_cons, ih]

/-- The directories are the same. -/
def SameDirectories (files files' : Files) : Prop :=
  ∀ p, files'.isDirectory p = true ↔ files.isDirectory p = true

/-- Writing a file makes no directory, and removes none. -/
theorem sameDirectories_insert (h : files.target path = .ok p) (bytes : Bytes) :
    SameDirectories files (files.insert p bytes) := by
  obtain ⟨-, directory, -, hdirectory, -, rfl⟩ := target_eq_ok h
  intro q
  constructor
  · intro hq
    rcases isDirectory_iff.mp hq with hnil | ⟨e, he, horigin, hnames⟩
    · exact isDirectory_iff.mpr (Or.inl hnil)
    · rcases List.mem_cons.mp he with rfl | he
      · -- what the new file is in was there before
        exact isDirectory_of_suffix hdirectory horigin hnames
      · exact isDirectory_iff.mpr (Or.inr ⟨e, List.mem_of_mem_filter he, horigin, hnames⟩)
  · intro hq
    rcases isDirectory_iff.mp hq with hnil | ⟨e, he, horigin, hnames⟩
    · exact isDirectory_iff.mpr (Or.inl hnil)
    · by_cases heq : e.1 = directory.child (nameOf path)
      · -- the entry that the new one takes the place of
        rw [heq] at horigin hnames
        exact isDirectory_iff.mpr (Or.inr ⟨_, List.mem_cons_self, horigin, hnames⟩)
      · refine isDirectory_iff.mpr (Or.inr ⟨e, List.mem_cons_of_mem _ ?_, horigin, hnames⟩)
        exact List.mem_filter.mpr ⟨he, decide_eq_true heq⟩

namespace SameDirectories

variable (hsame : SameDirectories files files')

include hsame

theorem enter_eq_ok_iff {step : List Char} :
    files'.enter p step = .ok q ↔ files.enter p step = .ok q := by
  rw [enter_eq_ok, enter_eq_ok, hsame p]

theorem foldlM_enter_eq_ok_iff {steps : List (List Char)} :
    steps.foldlM files'.enter p = .ok q ↔ steps.foldlM files.enter p = .ok q := by
  induction steps generalizing p with
  | nil => rfl
  | cons step steps ih =>
      rw [List.foldlM_cons, List.foldlM_cons, Outcome.bind_eq_ok, Outcome.bind_eq_ok]
      exact exists_congr fun r => and_congr hsame.enter_eq_ok_iff ih

theorem follow_eq_ok_iff {steps : List (List Char)} :
    files'.follow path steps = .ok p ↔ files.follow path steps = .ok p := by
  rw [follow_eq_ok, follow_eq_ok, hsame.foldlM_enter_eq_ok_iff]

end SameDirectories

/-- Where a file can be written it can be read. -/
theorem follow_of_target (h : files.target path = .ok p) :
    files.follow path (stepsOf path) = .ok p := by
  obtain ⟨hname, directory, hfollow, hdirectory, hsize, rfl⟩ := target_eq_ok h
  obtain ⟨hsome, hshort, hsteps⟩ := follow_eq_ok.mp hfollow
  refine follow_eq_ok.mpr ⟨hsome, hshort, ?_⟩
  rw [stepsOf_eq, foldlM_enter_concat]
  refine ⟨directory, hsteps, enter_eq_ok.mpr ⟨hdirectory, Or.inr (Or.inr ⟨?_, hsize, rfl⟩)⟩⟩
  exact ⟨hname.nonempty, hname.notHere, hname.notUp⟩

/-- What has been written is read. -/
theorem read_insert (h : files.target path = .ok p) (bytes : Bytes) :
    (files.insert p bytes).read path = .ok bytes := by
  refine read_eq_ok.mpr ⟨p, ?_, by rw [get?_insert, if_pos rfl]⟩
  exact (sameDirectories_insert h bytes).follow_eq_ok_iff.mpr (follow_of_target h)

/-- Files at other places are read as before. -/
theorem read_insert_of_ne {other : String} {x : Bytes} (h : files.target other = .ok q)
    (hp : files.follow path (stepsOf path) = .ok p) (hne : p ≠ q)
    (hread : files.read path = .ok x) : (files.insert q bytes).read path = .ok x := by
  obtain ⟨p', hp', hget⟩ := read_eq_ok.mp hread
  obtain rfl : p = p' := Except.ok.inj (hp.symm.trans hp')
  refine read_eq_ok.mpr ⟨p, ?_, by rw [get?_insert, if_neg hne, hget]⟩
  exact (sameDirectories_insert h bytes).follow_eq_ok_iff.mpr hp

/-! ## A dictionary and its data file -/

/-- A dictionary and its data file are at one place exactly if they have one path. -/
theorem target_dataPath (hp : files.target path = .ok p) (hsame : SameDirectories files files')
    (hq : files'.target (dataPath path) = .ok q) : p = q ↔ dataPath path = path := by
  obtain ⟨hname, directory, hfollow, -, -, rfl⟩ := target_eq_ok hp
  obtain ⟨-, directory', hfollow', -, -, rfl⟩ := target_eq_ok hq
  have hdirectories := directoryOf_dataPath hname
  -- the ways to the two directories are the same way
  have heq : directory' = directory := by
    obtain ⟨-, -, hsteps⟩ := follow_eq_ok.mp hfollow
    obtain ⟨-, -, hsteps'⟩ := follow_eq_ok.mp (hsame.follow_eq_ok_iff.mp hfollow')
    rw [stepsToDirectory, originOf_eq, hdirectories, ← stepsToDirectory, ← originOf_eq, hsteps]
      at hsteps'
    exact (Except.ok.inj hsteps').symm
  rw [heq, ← nameOf_inj hdirectories, Place.child, Place.child, Place.mk.injEq, List.cons.injEq]
  constructor
  · rintro ⟨-, hnames, -⟩
    exact hnames.symm
  · exact fun hnames => ⟨rfl, hnames.symm, rfl⟩

/-- **A dictionary and its data file, written one after the other, are read as they were written**,
unless their paths are one: then the data file has taken the place of the dictionary. -/
theorem read_pair {files₁ files₂ : Files} {dictionary data : Bytes}
    (hdictionary : files.write path dictionary = .ok files₁)
    (hdata : files₁.write (dataPath path) data = .ok files₂) :
    files₂.read (dataPath path) = .ok data
      ∧ files₂.read path = .ok (if dataPath path = path then data else dictionary) := by
  obtain ⟨p, hp, rfl⟩ := write_eq_ok.mp hdictionary
  obtain ⟨q, hq, rfl⟩ := write_eq_ok.mp hdata
  have hread := read_insert hq data
  refine ⟨hread, ?_⟩
  split
  · next heq => rwa [heq] at hread
  · next hne =>
      have hsame := sameDirectories_insert hp dictionary
      refine read_insert_of_ne hq (hsame.follow_eq_ok_iff.mpr (follow_of_target hp)) ?_
        (read_insert hp dictionary)
      exact fun heq => hne ((target_dataPath hp hsame hq).mp heq)

end Files

end ChunkArchive
