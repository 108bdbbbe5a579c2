import ChunkArchive.Proofs.Script.Outline

/-!
# Bodies of one shape

Decoding the same code with other pools gives a body of the same shape, as long as there are as many
slots (`Body.decode_sameShape`). Two bodies have one shape when they differ in nothing but what is in
their values; kinds agree, but that a word of the pool may be a float in one and an integer in the
other. The reason is that a command takes a float for a number as well as an integer, so that neither
the words of the pool nor names and strings decide which values it makes.
-/

set_option autoImplicit false

namespace ChunkArchive

/-! ## Shapes -/

namespace Value

/-- The kinds that a word of the pool can have. -/
def isNumber : Value → Bool
  | .float _ | .uint _ => true
  | _ => false

mutual

/-- The values are of one kind, where a float may stand for an integer and the other way round. Bare
arguments are so one by one. -/
def SameKind : Value → Value → Prop
  | .list vs, .list ws => SameKinds vs ws
  | v, w => v.kind = w.kind ∨ v.isNumber = true ∧ w.isNumber = true

def SameKinds : List Value → List Value → Prop
  | [], [] => True
  | v :: vs, w :: ws => SameKind v w ∧ SameKinds vs ws
  | _, _ => False

end

theorem sameKind_of_isNumber {v w : Value} (hv : v.isNumber = true) (hw : w.isNumber = true) :
    v.SameKind w := by
  cases v <;> cases hv <;> cases w <;> cases hw <;> exact Or.inr ⟨rfl, rfl⟩

/-- A number that is made shorter is a short or a byte, whichever kind it had. -/
theorem sameKind_inWidth {v w : Value} (width : UInt32) (hv : v.isNumber = true)
    (hw : w.isNumber = true) : (v.inWidth width).SameKind (w.inWidth width) := by
  unfold inWidth
  split_ifs
  · exact sameKind_of_isNumber hv hw
  · cases v <;> cases hv <;> cases w <;> cases hw <;> exact Or.inl rfl
  · cases v <;> cases hv <;> cases w <;> cases hw <;> exact Or.inl rfl

theorem sameKinds_map {α : Type} {f g : α → Value} (h : ∀ a, (f a).SameKind (g a)) (as : List α) :
    SameKinds (as.map f) (as.map g) := by
  induction as with
  | nil => trivial
  | cons a as ih => exact ⟨h a, ih⟩

end Value

/-- The same instruction, which has taken something from outside in both or in neither. -/
structure Operation.SameShape (o o' : Operation) : Prop where
  instruction : o.toInstruction = o'.toInstruction
  fetched : Option.Rel Value.SameKind o.fetched o'.fetched

/-- The same offset and the same sources of the components. -/
structure Variable.SameShape (v v' : Variable) : Prop where
  offset : v.offset = v'.offset
  sources : v.sources = v'.sources
  value : v.value.SameKind v'.value

/-- The same statement, but for what is in its values. -/
inductive Statement.SameShape : Statement → Statement → Prop where
  | assign {offset : UInt32} {v w : Value} (h : v.SameKind w) :
      SameShape (.assign offset v) (.assign offset w)
  | command {offset id : UInt32} {vs ws : List Value} (h : Value.SameKinds vs ws) :
      SameShape (.command offset id vs) (.command offset id ws)
  | operation (opcode : Opcode) (operand : UInt32) :
      SameShape (.operation opcode operand) (.operation opcode operand)

/-- The same bodies, but for what is in their values. -/
structure Body.SameShape (b b' : Body) : Prop where
  operations : List.Forall₂ Operation.SameShape b.operations.toList b'.operations.toList
  vars : List.Forall₂ Variable.SameShape b.vars.toList b'.vars.toList
  statements : List.Forall₂ Statement.SameShape b.statements.toList b'.statements.toList
  status : b.status = b'.status

/-! ## What the pools decide about -/

section Pools

variable (pools pools' : Pools)

namespace Source

/-- Whether a command takes what comes from there for a number. -/
def isNumber : Source → Bool
  | .slot _ | .literal _ => true
  | .text _ => false

theorem isNumber_value (s : Source) : (s.value pools).isNumber = s.isNumber := by
  cases s with
  | slot n =>
      rw [value]
      rcases Value.ofPoolWord_cases pools.names (pools.pool[n.toNat]?.getD 0) with hw | hw
      · rw [hw]
        rfl
      · rw [hw]
        rfl
  | text offset => rfl
  | literal n => rfl

theorem isSome_single? (s : Source) : (s.value pools).single?.isSome = s.isNumber := by
  rw [← s.isNumber_value pools]
  rcases s.value_cases pools with ⟨n, hs⟩ | ⟨x, hs⟩ | ⟨t, hs⟩
  all_goals
    rw [hs]
    rfl

theorem sameKind_inWidth (width : UInt32) (s : Source) :
    ((s.value pools).inWidth width).SameKind ((s.value pools').inWidth width) := by
  by_cases hs : s.isNumber = true
  · exact Value.sameKind_inWidth width ((s.isNumber_value pools).trans hs)
      ((s.isNumber_value pools').trans hs)
  · cases s with
    | text offset =>
        -- a string has the same kind in every width
        unfold value Value.inWidth
        split_ifs <;> exact Or.inl rfl
    | slot n => exact absurd rfl hs
    | literal n => exact absurd rfl hs

theorem sameKind_value (s : Source) : (s.value pools).SameKind (s.value pools') :=
  s.sameKind_inWidth pools pools' 4

end Source

/-- Whether items stand for numbers is known from their sources. -/
theorem isSome_numbers? (n : Nat) (ss : List Source) :
    (numbers? n (ss.map (Source.item pools))).isSome = true
      ↔ ss.length = n ∧ ∀ s ∈ ss, s.isNumber = true := by
  rw [Option.isSome_iff_exists]
  simp only [numbers?_eq_some, List.map_map]
  constructor
  · rintro ⟨v, h⟩
    have hlen := congrArg List.length h
    rw [List.length_map, List.length_map, Vector.length_toList] at hlen
    refine ⟨hlen, fun s hs => ?_⟩
    have hmem : (s.value pools).single? ∈ v.toList.map some := by
      rw [← h]
      exact List.mem_map.mpr ⟨s, hs, rfl⟩
    obtain ⟨x, -, hx⟩ := List.mem_map.mp hmem
    rw [← s.isSome_single? pools, ← hx]
    rfl
  · rintro ⟨rfl, hnumbers⟩
    have hsome : ∀ s ∈ ss, ∃ x, (s.value pools).single? = some x := by
      intro s hs
      rw [← Option.isSome_iff_exists, s.isSome_single? pools]
      exact hnumbers s hs
    refine ⟨⟨(ss.map fun s => ((s.value pools).single?).getD default).toArray, by simp⟩, ?_⟩
    rw [Vector.toList_mk, List.toList_toArray, List.map_map]
    refine List.map_congr_left fun s hs => ?_
    obtain ⟨x, hx⟩ := hsome s hs
    show (s.value pools).single? = some ((s.value pools).single?.getD default)
    rw [hx, Option.getD_some]

/-- A command makes a value of its arguments with both pools or with neither, of one kind and from
the same sources. -/
theorem commandValue?_rel (id : UInt32) (ss : List Source) :
    Option.Rel (fun x y => x.1.SameKind y.1 ∧ x.2 = y.2)
      (commandValue? id (ss.map (Source.item pools)))
      (commandValue? id (ss.map (Source.item pools'))) := by
  have hnumbers : ∀ n, (numbers? n (ss.map (Source.item pools))).isSome
      = (numbers? n (ss.map (Source.item pools'))).isSome := by
    intro n
    rw [Bool.eq_iff_iff, isSome_numbers?, isSome_numbers?]
  unfold commandValue?
  simp only [Source.map_source_item]
  split_ifs
  · exact rel_map (hnumbers 3) fun _ _ => ⟨Or.inl rfl, rfl⟩
  · exact rel_map (hnumbers 4) fun _ _ => ⟨Or.inl rfl, rfl⟩
  · exact rel_map (hnumbers 16) fun _ _ => ⟨Or.inl rfl, rfl⟩
  · -- only the first argument matters
    cases ss with
    | nil => exact .none
    | cons s ss =>
        have hfirst : (s.value pools).single?.isSome = (s.value pools').single?.isSome := by
          rw [s.isSome_single?, s.isSome_single?]
        exact rel_map hfirst fun _ _ => ⟨Or.inl rfl, rfl⟩
  · exact .none

namespace Store

theorem sameShape_var (offset : UInt32) (s : Store) :
    (s.var pools offset).SameShape (s.var pools' offset) := by
  cases s with
  | move width top => exact ⟨rfl, rfl, top.sameKind_inWidth pools pools' width⟩
  | command id ss =>
      rcases rel_cases (commandValue?_rel pools pools' id ss) with
        ⟨h, h'⟩ | ⟨x, y, h, h', hkind, hsources⟩
      · simp only [var, h, h']
        exact ⟨rfl, rfl, Value.sameKinds_map (Source.sameKind_value pools pools') ss⟩
      · simp only [var, h, h']
        exact ⟨rfl, hsources, hkind⟩

theorem sameShape_statement (offset : UInt32) (s : Store) :
    (s.statement pools offset).SameShape (s.statement pools' offset) := by
  cases s with
  | move width top => exact .assign (top.sameKind_inWidth pools pools' width)
  | command id ss =>
      rcases rel_cases (commandValue?_rel pools pools' id ss) with
        ⟨h, h'⟩ | ⟨x, y, h, h', hkind, -⟩
      · simp only [statement, h, h']
        exact .command (Value.sameKinds_map (Source.sameKind_value pools pools') ss)
      · simp only [statement, h, h']
        exact .assign hkind

end Store

theorem Event.sameShape_statement (e : Event) :
    (e.statement pools).SameShape (e.statement pools') := by
  cases e with
  | store offset s => exact s.sameShape_statement pools pools' offset
  | operation opcode operand => exact .operation opcode operand

theorem Outline.sameShape_fillOperation (e : Instruction × Option Source) :
    (fillOperation pools e).SameShape (fillOperation pools' e) := by
  obtain ⟨i, fetched⟩ := e
  refine ⟨rfl, ?_⟩
  cases fetched with
  | none => exact .none
  | some s => exact .some (s.sameKind_value pools pools')

end Pools

/-! ## Bodies with other pools -/

/-- **What a function is decompiled to has a shape that its code and the number of pool slots
decide**, whatever the slots, the strings and the names are. -/
theorem Body.decode_sameShape {pools pools' : Pools} (hcode : pools.code = pools'.code)
    (hsize : pools.pool.size = pools'.pool.size) (start : UInt32) :
    (decode pools start).SameShape (decode pools' start) := by
  rw [decode_eq_fill, decode_eq_fill, hcode, hsize]
  exact {
    operations := forall₂_map (Outline.sameShape_fillOperation pools pools') _
    vars := forall₂_map (fun e => e.2.sameShape_var pools pools' e.1) _
    statements := forall₂_map (Event.sameShape_statement pools pools') _
    status := rfl }

/-- Code that fetches both of two slots, with stores of several kinds and a bad move. -/
def mixedPools : Pools where
  pool := #[0x3F800000, 0x40000000]
  code := [0x0000, 0x0001, 0x1007, 0x1F38, 0x5404, 0x0001, 0x4004, 0x5404, 0x0800, 0x0001, 0x1F35,
    0x5404, 0x0001, 0x4002, 0x4003, 0x3000]
  strings := [0x61, 0]
  names := .empty

/-- The same code with a word that is too large for a float, and with a name for the other one. -/
def renamedPools : Pools where
  pool := #[0x7F000000, 0x40000000]
  code := mixedPools.code
  strings := []
  names := NameTable.empty.insert 0x40000000 "Door"

/-- A float becomes an integer; all other kinds stay. -/
theorem Body.decode_sameShape_renamed :
    mixedPools.code = renamedPools.code ∧ mixedPools.pool.size = renamedPools.pool.size
      ∧ (decode mixedPools 0).SameShape (decode renamedPools 0)
      ∧ ((decode mixedPools 0).vars.map fun v => v.value.kind)
          = #["Vec3", "float", "opaque", "short"]
      ∧ ((decode renamedPools 0).vars.map fun v => v.value.kind)
          = #["Vec3", "uint", "opaque", "short"] := by
  have hcode : mixedPools.code = renamedPools.code := rfl
  have hsize : mixedPools.pool.size = renamedPools.pool.size := by decide
  have hshape := Body.decode_sameShape hcode hsize 0
  exact ⟨hcode, hsize, hshape, by decide +kernel, by decide +kernel⟩

end ChunkArchive
