import ChunkArchive.Proofs.Lists
import ChunkArchive.Proofs.NameTable
import ChunkArchive.Proofs.Script.Container
import ChunkArchive.Proofs.Text.Line
import ChunkArchive.Script.Pseudocode

/-!
# The lines of pseudo-code

Whatever strings, names and values a module has, its pseudo-code has as many lines as its layout says,
and every statement has one of them to itself (`ScriptModule.pseudocode_lines`). Values, statements and
headings are put together from parts on one line, provided that no name has a line feed. The names of a
table that has been read from a text are such.
-/

set_option autoImplicit false

namespace ChunkArchive

open Text

/-! ## Names and values -/

namespace NameTable

/-- Every name of the table is on one line. -/
def OneLine (names : NameTable) : Prop :=
  ∀ hash name, names.get? hash = some name → Text.OneLine name

theorem oneLine_parse (text : String) : (parse text).OneLine :=
  fun _ _ => newline_notMem_of_get?_parse

theorem OneLine.getD {names : NameTable} (h : names.OneLine) (hash : UInt32) {other : String}
    (hother : Text.OneLine other) : Text.OneLine ((names.get? hash).getD other) := by
  cases hname : names.get? hash with
  | none => exact hother
  | some name => exact h hash name hname

theorem OneLine.nameOf {names : NameTable} (h : names.OneLine) (hash : UInt32) :
    Text.OneLine (names.nameOf hash) :=
  h.getD hash (.append (by decide) (oneLine_hex 8 hash.toNat))

end NameTable

theorem oneLine_joined {items : List String} (h : ∀ item ∈ items, OneLine item) :
    OneLine (joined items) :=
  oneLine_intercalate (by decide) h

variable {names : NameTable}

namespace Value

theorem oneLine_tuple {n : Nat} (v : Vector Single n) : OneLine (tuple v) := by
  refine oneLine_joined fun item hitem => ?_
  obtain ⟨x, -, rfl⟩ := List.mem_map.mp hitem
  exact oneLine_single x

theorem oneLine_kind (v : Value) : OneLine v.kind := by
  cases v
  all_goals
    rw [kind]
    decide

mutual

theorem oneLine_text (h : names.OneLine) (v : Value) : OneLine (v.text names) := by
  cases v with
  | float x => exact oneLine_single x
  | uint n => exact h.getD n (oneLine_prefixedHex 1 n.toNat)
  | short n => exact oneLine_int n.toInt
  | byte n => exact oneLine_nat n.toNat
  | bool b =>
      rw [text]
      split <;> decide
  | vec3 v => exact .between (by decide) (oneLine_tuple v) (by decide)
  | vec4 v => exact .between (by decide) (oneLine_tuple v) (by decide)
  | matrix v => exact .between (by decide) (oneLine_tuple v) (by decide)
  | string s => exact oneLine_quote s
  | list items =>
      exact .between (by decide) (oneLine_joined (oneLine_texts h items)) (by decide)

theorem oneLine_texts (h : names.OneLine) (vs : List Value) :
    ∀ text ∈ texts names vs, OneLine text := by
  cases vs with
  | nil => exact List.forall_mem_nil _
  | cons v vs => exact List.forall_mem_cons.mpr ⟨oneLine_text h v, oneLine_texts h vs⟩

end

end Value

/-! ## Statements -/

theorem Opcode.oneLine_name (op : Opcode) : OneLine op.name := by
  cases op with
  | unknown code => exact OneLine.append (by decide) (oneLine_hex 2 code.toNat)
  | _ => decide

namespace Statement

theorem oneLine_assignment (h : names.OneLine) (offset : UInt32) (value : Value) :
    OneLine (assignment names offset value) := by
  have htarget : OneLine ("var" ++ Numeral.hex 1 offset.toNat ++ " = " ++ value.text names) :=
    (OneLine.between (by decide) (oneLine_hex 1 offset.toNat) (by decide)).append
      (value.oneLine_text h)
  unfold assignment
  split
  case h_1 n _ =>
    refine OneLine.append ?_ htarget
    split <;> decide
  case h_2 => exact htarget
  case h_3 => exact (value.oneLine_kind.append (by decide)).append htarget

theorem oneLine_line (h : names.OneLine) (s : Statement) : OneLine (s.line names) := by
  cases s with
  | assign offset value => exact oneLine_assignment h offset value
  | command offset id arguments =>
      exact OneLine.between (.between (by decide) (oneLine_nat id.toNat) (by decide))
        (oneLine_joined (Value.oneLine_texts h arguments)) (by decide)
  | operation opcode operand =>
      exact (OneLine.between (by decide) opcode.oneLine_name (by decide)).append
        (oneLine_nat operand.toNat)

end Statement

theorem Status.oneLine_remark {status : Status} {remark : String} (h : status.remark? = some remark) :
    OneLine remark := by
  cases status with
  | complete => cases h
  | truncated offset =>
      cases h
      exact OneLine.append (by decide) (oneLine_prefixedHex 1 offset)
  | badMove width offset =>
      cases h
      have hmessage : OneLine (badMoveText width offset) :=
        (OneLine.between (by decide) (oneLine_nat width.toNat) (by decide)).append
          (oneLine_prefixedHex 1 offset)
      exact OneLine.append (by decide) hmessage

theorem oneLine_indent {line : String} (h : OneLine line) : OneLine (indent line) :=
  OneLine.append (by decide) h

/-! ## Modules -/

theorem Function.oneLine_lines (h : names.OneLine) {f : Function} (hname : OneLine f.name) :
    ∀ line ∈ f.lines names, OneLine line := by
  intro line hline
  rw [lines, List.mem_append, List.mem_append, List.mem_cons] at hline
  rcases hline with ((rfl | hline) | hline) | hline
  · exact (OneLine.between hname (by decide) (oneLine_hex 1 f.flags.toNat)).append (by decide)
  · obtain ⟨s, -, rfl⟩ := List.mem_map.mp hline
    exact oneLine_indent (s.oneLine_line h)
  · obtain ⟨remark, hremark, rfl⟩ := List.mem_map.mp hline
    exact oneLine_indent (Status.oneLine_remark (Option.mem_toList.mp hremark))
  · obtain rfl := List.mem_singleton.mp hline
    decide

theorem Script.oneLine_lines (h : names.OneLine) {s : Script} (hname : OneLine s.name)
    (hfunctions : ∀ f ∈ s.functions, OneLine f.name) : ∀ line ∈ s.lines names, OneLine line := by
  intro line hline
  rw [lines, List.mem_append] at hline
  rcases hline with hline | hline
  · revert line
    refine List.forall_mem_cons.mpr ⟨by decide, List.forall_mem_cons.mpr ⟨?_, ?_⟩⟩
    · exact OneLine.append (by decide) hname
    · exact List.forall_mem_singleton.mpr
        (OneLine.append (by decide) (oneLine_nat s.stringBufferSize.toNat))
  · obtain ⟨f, hf, hline⟩ := List.mem_flatMap.mp hline
    rcases List.mem_cons.mp hline with rfl | hline
    · decide
    · exact Function.oneLine_lines h (hfunctions f hf) line hline

namespace ScriptModule

/-- The names in a module are those of the table that it was decompiled with. -/
theorem oneLine_names (h : names.OneLine) {node : Node} {m : ScriptModule}
    (hm : decompile names node = .ok m) :
    ∀ s ∈ m.scripts, OneLine s.name ∧ ∀ f ∈ s.functions, OneLine f.name := by
  obtain ⟨header, -, -, -, -, -, hscripts, -, -⟩ := decompile_eq_ok.mp hm
  rw [hscripts]
  intro s hs
  obtain ⟨entry, -, rfl⟩ := List.mem_map.mp hs
  refine ⟨h.nameOf entry.1.1, fun f hf => ?_⟩
  obtain ⟨row, -, rfl⟩ := List.mem_map.mp hf
  exact h.nameOf row.1

theorem oneLine_lines (h : names.OneLine) {m : ScriptModule}
    (hm : ∀ s ∈ m.scripts, OneLine s.name ∧ ∀ f ∈ s.functions, OneLine f.name) :
    ∀ line ∈ m.lines names, OneLine line := by
  intro line hline
  rw [lines, List.mem_append, List.mem_append] at hline
  rcases hline with (hline | hline) | hline
  · have hhashes : OneLine (joined ((m.hashTable.filter (maxCount < ·)).map names.nameOf)) := by
      refine oneLine_joined fun item hitem => ?_
      obtain ⟨hash, -, rfl⟩ := List.mem_map.mp hitem
      exact h.nameOf hash
    have hstrings : OneLine (joined (m.strings.map quote)) := by
      refine oneLine_joined fun item hitem => ?_
      obtain ⟨text, -, rfl⟩ := List.mem_map.mp hitem
      exact oneLine_quote text
    simp only [List.mem_cons, List.not_mem_nil, or_false] at hline
    rcases hline with rfl | rfl | rfl | rfl
    · exact OneLine.append (by decide) (h.nameOf m.hashType)
    · exact .between (by decide) hhashes (by decide)
    · exact .between (by decide) hstrings (by decide)
    · decide
  · obtain ⟨entry, -, rfl⟩ := List.mem_map.mp hline
    exact oneLine_indent (.between (oneLine_nat entry.offset.toNat) (by decide)
      (h.nameOf entry.hash))
  · rcases List.mem_cons.mp hline with rfl | hline
    · decide
    · obtain ⟨s, hs, hline⟩ := List.mem_flatMap.mp hline
      exact Script.oneLine_lines h (hm s hs).1 (hm s hs).2 line hline

end ScriptModule

/-! ## Where the statements are -/

/-- The number of lines of a function: a blank one, its heading and the closing brace, one for every
statement, and a remark if it is not complete. -/
def Function.height (f : Function) : Nat :=
  3 + f.body.statements.size + if f.body.status = .complete then 0 else 1

/-- The number of lines of a script: a blank one and two of a heading, and those of its functions. -/
def Script.height (s : Script) : Nat := 3 + (s.functions.map Function.height).sum

namespace ScriptModule

/-- The number of lines of a module: five for what its scripts share and one for every string hash,
and those of its scripts. -/
def height (m : ScriptModule) : Nat :=
  5 + m.stringHashes.length + (m.scripts.map Script.height).sum

/-- The line of a statement, counted from zero: behind what the scripts share, the scripts before its
own, the heading of that, the functions before its own, the two lines that open the function and the
statements before it. -/
def statementLine (m : ScriptModule) (script : Nat) (s : Script) (function statement : Nat) : Nat :=
  5 + m.stringHashes.length + ((m.scripts.take script).map Script.height).sum
    + (3 + ((s.functions.take function).map Function.height).sum + (2 + statement))

end ScriptModule

/-- The lines of a function with the blank one in front. -/
theorem Function.length_lines (f : Function) : ("" :: f.lines names).length = f.height := by
  have hremark : f.body.status.remark?.toList.length
      = if f.body.status = .complete then 0 else 1 := by
    cases f.body.status <;> rfl
  simp only [lines, height, List.length_append, List.length_cons, List.length_map, List.length_nil,
    hremark, Array.length_toList]
  omega

theorem Script.length_lines (s : Script) : (s.lines names).length = s.height := by
  simp only [lines, height, List.length_append, List.length_flatMap, Function.length_lines]
  rfl

theorem ScriptModule.length_lines (m : ScriptModule) : (m.lines names).length = m.height := by
  have hscripts : (m.scripts.flatMap (Script.lines names)).length
      = (m.scripts.map Script.height).sum := by
    simp only [List.length_flatMap, Script.length_lines]
  simp only [lines, height, List.length_append, List.length_map, List.length_cons, List.length_nil,
    hscripts]
  omega

section Position

variable {m : ScriptModule} {s : Script} {f : Function} {statement : Statement} {i j k : Nat}

theorem Function.getElem?_lines (h : f.body.statements[k]? = some statement) :
    ("" :: f.lines names)[2 + k]? = some (indent (statement.line names)) := by
  have hlist : (f.body.statements.toList.map fun s => indent (s.line names))[k]?
      = some (indent (statement.line names)) := by
    rw [List.getElem?_map, Array.getElem?_toList, h]
    rfl
  obtain ⟨hlt, -⟩ := List.getElem?_eq_some_iff.mp hlist
  -- the blank line and the heading come first, the remark and the brace stand behind
  rw [Nat.add_comm, lines, List.cons_append, List.cons_append, List.getElem?_cons_succ,
    List.getElem?_cons_succ, List.append_assoc, List.getElem?_append_left hlt]
  exact hlist

theorem Script.getElem?_lines (hf : s.functions[j]? = some f)
    (h : f.body.statements[k]? = some statement) :
    (s.lines names)[3 + ((s.functions.take j).map Function.height).sum + (2 + k)]?
      = some (indent (statement.line names)) := by
  have hline := getElem?_flatMap (f := fun f => "" :: f.lines names) hf (Function.getElem?_lines h)
  simp only [Function.length_lines] at hline
  rw [lines, Nat.add_assoc, List.getElem?_append_right (Nat.le_add_right 3 _)]
  simpa using hline

theorem ScriptModule.getElem?_lines (hs : m.scripts[i]? = some s) (hf : s.functions[j]? = some f)
    (h : f.body.statements[k]? = some statement) :
    (m.lines names)[m.statementLine i s j k]? = some (indent (statement.line names)) := by
  have hline := getElem?_flatMap (f := Script.lines names) hs (Script.getElem?_lines hf h)
  simp only [Script.length_lines] at hline
  -- the headings and the string hashes come first, then the line that closes them
  have hindex : m.statementLine i s j k = 4 + m.stringHashes.length
      + (((m.scripts.take i).map Script.height).sum
        + (3 + ((s.functions.take j).map Function.height).sum + (2 + k)) + 1) := by
    rw [statementLine]
    omega
  rw [lines, hindex, List.getElem?_append_right (by simp; omega)]
  simpa [Nat.add_comm 4] using hline

end Position

namespace ScriptModule

/-- **No text breaks a line.** If no name of the table has a line feed, the pseudo-code of a module has
just the lines of its layout, whatever strings and values are in it, and every statement stands on a
line of its own: the statements of a function one below the other, behind all that comes before the
function. Tables that are read from a text have no other names. -/
theorem pseudocode_lines :
    (∀ text, (NameTable.parse text).OneLine)
      ∧ ∀ (names : NameTable) (node : Node) (m : ScriptModule), names.OneLine →
        decompile names node = .ok m →
        (m.pseudocode names).toList.count '\n' = m.height
          ∧ ∀ i s j f k statement, m.scripts[i]? = some s → s.functions[j]? = some f →
              f.body.statements[k]? = some statement →
              ((m.pseudocode names).toList.splitOn '\n')[m.statementLine i s j k]?
                = some (indent (statement.line names)).toList := by
  refine ⟨NameTable.oneLine_parse, fun names node m h hm => ?_⟩
  have hlines := oneLine_lines h (oneLine_names h hm)
  constructor
  · rw [pseudocode, count_newline_lines hlines, length_lines]
  · intro i s j f k statement hs hf hstatement
    have hline : (m.lines names)[m.statementLine i s j k]? = some (indent (statement.line names)) :=
      getElem?_lines hs hf hstatement
    obtain ⟨hlt, -⟩ := List.getElem?_eq_some_iff.mp hline
    rw [pseudocode, splitOn_lines hlines, List.getElem?_append_left (by simpa using hlt),
      List.getElem?_map, hline]
    rfl

/-- A module with a string that would end a line and then the function it is in, twice among the
arguments of a command and once in a variable. Its code is cut off. -/
def braceNode : Node :=
  .branch ⟨0x5000, 0x8000, 0, 56⟩ [
    .leaf ⟨ChunkType.scriptHeader, 0, 0, 8⟩ (Bytes.ofWords32 [7, 0]),
    .leaf ⟨ChunkType.scriptData, 0, 8, 31⟩ (Bytes.ofWords32 [5, 12, 0] ++ Bytes.ofWords16 [3, 0]
      ++ Bytes.ofWords16 [0x0800, 0x0800, 0x1C01, 0x3801, 0x0800, 0x4004] ++ [0x0A, 0x7D, 0]),
    .leaf ⟨ChunkType.scriptFunctionTable, 0, 44, 12⟩ (Bytes.ofWords32 [1, 0, 0])]

theorem pseudocode_lines_brace :
    ∃ m, decompile (.parse "7: door\r\n1:open") braceNode = .ok m
      ∧ (m.pseudocode (.parse "7: door\r\n1:open")).toList.count '\n' = 14
      ∧ ((m.pseudocode (.parse "7: door\r\n1:open")).toList.splitOn '\n')[10]?
        = some "    CMD 1 (\"\\n\x7d\", \"\\n\x7d\")".toList := by
  generalize hnames : NameTable.parse "7: door\r\n1:open" = names
  have hrun : (decompile (.parse "7: door\r\n1:open") braceNode).map (fun m =>
      (m.height, m.stringHashes.length, m.scripts[0]?.bind fun s => s.functions[0]?.bind fun f =>
        f.body.statements[0]?.map (Statement.line (.parse "7: door\r\n1:open"))))
      = .ok (14, 0, some "CMD 1 (\"\\n\x7d\", \"\\n\x7d\")") := by
    decide +kernel
  rw [hnames] at hrun
  cases hm : decompile names braceNode with
  | error e =>
      rw [hm] at hrun
      cases hrun
  | ok m =>
      rw [hm] at hrun
      obtain ⟨hheight, hrest⟩ := Prod.mk.inj (Except.ok.inj hrun)
      obtain ⟨hhashes, hfound⟩ := Prod.mk.inj hrest
      obtain ⟨s, hs, hfound⟩ := Option.bind_eq_some_iff.mp hfound
      obtain ⟨f, hf, hfound⟩ := Option.bind_eq_some_iff.mp hfound
      obtain ⟨statement, hstatement, htext⟩ := Option.map_eq_some_iff.mp hfound
      obtain ⟨hparsed, hmodule⟩ := pseudocode_lines
      obtain ⟨hcount, hline⟩ := hmodule names braceNode m (hnames ▸ hparsed _) hm
      have hindex : m.statementLine 0 s 0 0 = 10 := by
        rw [statementLine, hhashes]
        rfl
      refine ⟨m, rfl, hcount.trans hheight, ?_⟩
      rw [← hindex, hline 0 s 0 f 0 statement hs hf hstatement, htext]
      decide

end ScriptModule

end ChunkArchive
