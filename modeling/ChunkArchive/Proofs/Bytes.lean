import ChunkArchive.Bytes
import Mathlib.Tactic

/-!
# Words and ranges of byte strings

Writing words and reading them back are inverse to each other, in both orders. A range that exists
is the middle one of three pieces (`slice?_eq_some_iff`), and it is found again where the byte
string is extended at either end, cut off or overwritten elsewhere.
-/

set_option autoImplicit false

namespace ChunkArchive.Bytes

/-! ## Words -/

theorem ofWord16_toWord16 (b₀ b₁ : UInt8) : ofWord16 (toWord16 b₀ b₁) = [b₀, b₁] := by
  have h₀ := b₀.toNat_lt
  have h₁ := b₁.toNat_lt
  have hw : (toWord16 b₀ b₁).toNat = b₀.toNat + 0x100 * b₁.toNat := by
    rw [toWord16, UInt16.toNat_ofNat']
    omega
  rw [ofWord16, List.cons.injEq, List.cons.injEq]
  refine ⟨?_, ?_, rfl⟩
  · apply UInt8.toNat_inj.mp
    rw [UInt16.toNat_toUInt8, hw]
    omega
  · apply UInt8.toNat_inj.mp
    rw [UInt8.toNat_ofNat', hw]
    omega

theorem ofWord32_toWord32 (b₀ b₁ b₂ b₃ : UInt8) :
    ofWord32 (toWord32 b₀ b₁ b₂ b₃) = [b₀, b₁, b₂, b₃] := by
  have h₀ := b₀.toNat_lt
  have h₁ := b₁.toNat_lt
  have h₂ := b₂.toNat_lt
  have h₃ := b₃.toNat_lt
  have hw : (toWord32 b₀ b₁ b₂ b₃).toNat
      = b₀.toNat + 0x100 * b₁.toNat + 0x10000 * b₂.toNat + 0x1000000 * b₃.toNat := by
    rw [toWord32, UInt32.toNat_ofNat']
    omega
  rw [ofWord32, List.cons.injEq, List.cons.injEq, List.cons.injEq, List.cons.injEq]
  refine ⟨?_, ?_, ?_, ?_, rfl⟩
  · apply UInt8.toNat_inj.mp
    rw [UInt32.toNat_toUInt8, hw]
    omega
  all_goals
    apply UInt8.toNat_inj.mp
    rw [UInt8.toNat_ofNat', hw]
    omega

@[simp] theorem ofWords32_nil : ofWords32 [] = [] := rfl

@[simp] theorem ofWords32_cons (w : UInt32) (ws : List UInt32) :
    ofWords32 (w :: ws) = ofWord32 w ++ ofWords32 ws := List.flatMap_cons

@[simp] theorem ofWords16_nil : ofWords16 [] = [] := rfl

@[simp] theorem ofWords16_cons (w : UInt16) (ws : List UInt16) :
    ofWords16 (w :: ws) = ofWord16 w ++ ofWords16 ws := List.flatMap_cons

@[simp] theorem ofWords32_length (ws : List UInt32) : (ofWords32 ws).length = 4 * ws.length := by
  induction ws with
  | nil => rfl
  | cons w ws ih =>
      rw [ofWords32_cons, List.length_append, ofWord32_length, ih, List.length_cons]
      ring

@[simp] theorem ofWords16_length (ws : List UInt16) : (ofWords16 ws).length = 2 * ws.length := by
  induction ws with
  | nil => rfl
  | cons w ws ih =>
      rw [ofWords16_cons, List.length_append, ofWord16_length, ih, List.length_cons]
      ring

theorem words32_ofWords32_append (ws : List UInt32) (rest : Bytes) :
    words32 (ofWords32 ws ++ rest) = ws ++ words32 rest := by
  induction ws with
  | nil => rfl
  | cons w ws ih =>
      rw [ofWords32_cons, ofWord32]
      simp only [List.cons_append, List.nil_append, words32]
      rw [toWord32_ofWord32, ih]

@[simp] theorem words32_ofWords32 (ws : List UInt32) : words32 (ofWords32 ws) = ws := by
  have hnil : words32 [] = [] := rfl
  have h := words32_ofWords32_append ws []
  rwa [List.append_nil, hnil, List.append_nil] at h

theorem words32_of_length_lt {bytes : Bytes} (h : bytes.length < 4) : words32 bytes = [] := by
  unfold words32
  split
  · simp only [List.length_cons] at h
    omega
  · rfl

@[simp] theorem words32_length (bytes : Bytes) : (words32 bytes).length = bytes.length / 4 := by
  fun_induction words32 bytes with
  | case1 b₀ b₁ b₂ b₃ rest ih =>
      simp only [List.length_cons, ih]
      omega
  | case2 bytes hshort =>
      -- four bytes would be a word
      have hlt : bytes.length < 4 := by
        match bytes, hshort with
        | [], _ | [_], _ | [_, _], _ | [_, _, _], _ => simp
        | b₀ :: b₁ :: b₂ :: b₃ :: rest, hshort => exact absurd rfl (hshort b₀ b₁ b₂ b₃ rest)
      rw [List.length_nil, Nat.div_eq_of_lt hlt]

/-- Whole words are the bytes that they were read from, up to the last whole word. -/
theorem ofWords32_words32 (bytes : Bytes) :
    ofWords32 (words32 bytes) = bytes.take (4 * (bytes.length / 4)) := by
  fun_induction words32 bytes with
  | case1 b₀ b₁ b₂ b₃ rest ih =>
      have hlen : 4 * ((b₀ :: b₁ :: b₂ :: b₃ :: rest).length / 4)
          = 4 * (rest.length / 4) + 4 := by
        simp only [List.length_cons]
        omega
      rw [ofWords32_cons, ofWord32_toWord32, ih, hlen]
      rfl
  | case2 bytes hshort =>
      have hlen : bytes.length < 4 := by
        match bytes, hshort with
        | [], _ | [_], _ | [_, _], _ | [_, _, _], _ => simp
        | b₀ :: b₁ :: b₂ :: b₃ :: rest, hshort => exact absurd rfl (hshort b₀ b₁ b₂ b₃ rest)
      rw [Nat.div_eq_of_lt hlen]
      rfl

/-- A byte string of whole words is the bytes of its words. -/
theorem ofWords32_words32_of_dvd {bytes : Bytes} (h : 4 ∣ bytes.length) :
    ofWords32 (words32 bytes) = bytes := by
  rw [ofWords32_words32, List.take_of_length_le (by omega)]

@[simp] theorem words16_ofWords16 (ws : List UInt16) : words16 (ofWords16 ws) = ws := by
  induction ws with
  | nil => rfl
  | cons w ws ih =>
      rw [ofWords16_cons, ofWord16]
      simp only [List.cons_append, List.nil_append, words16]
      rw [toWord16_ofWord16, ih]

@[simp] theorem words16_length (bytes : Bytes) : (words16 bytes).length = bytes.length / 2 := by
  fun_induction words16 bytes with
  | case1 b₀ b₁ rest ih =>
      simp only [List.length_cons, ih]
      omega
  | case2 bytes hshort =>
      match bytes, hshort with
      | [], _ | [_], _ => simp
      | b₀ :: b₁ :: rest, hshort => exact absurd rfl (hshort b₀ b₁ rest)

theorem ofWords16_words16_of_dvd {bytes : Bytes} (h : 2 ∣ bytes.length) :
    ofWords16 (words16 bytes) = bytes := by
  fun_induction words16 bytes with
  | case1 b₀ b₁ rest ih =>
      have hrest : 2 ∣ rest.length := by
        simp only [List.length_cons] at h
        omega
      rw [ofWords16_cons, ofWord16_toWord16, ih hrest]
      rfl
  | case2 bytes hshort =>
      match bytes, hshort with
      | [], _ => rfl
      | [_], _ => simp at h
      | b₀ :: b₁ :: rest, hshort => exact absurd rfl (hshort b₀ b₁ rest)

/-! ## Ranges -/

/-- A range is the middle one of three pieces. -/
theorem slice?_eq_some_iff {bytes part : Bytes} {start stop : Nat} :
    slice? bytes start stop = some part ↔
      ∃ before behind, bytes = before ++ part ++ behind ∧ before.length = start
        ∧ start + part.length = stop := by
  unfold slice?
  constructor
  · intro h
    split at h
    · next hle =>
        obtain rfl := Option.some.inj h
        refine ⟨bytes.take start, bytes.drop stop, ?_, ?_, ?_⟩
        · have hstop : stop = start + (stop - start) := by omega
          rw [List.append_assoc]
          conv_lhs => rw [← List.take_append_drop start bytes,
            ← List.take_append_drop (stop - start) (bytes.drop start), List.drop_drop, ← hstop]
        · rw [List.length_take]
          omega
        · rw [List.length_take, List.length_drop]
          omega
    · cases h
  · rintro ⟨before, behind, rfl, rfl, rfl⟩
    rw [if_pos (by simp), List.append_assoc, List.drop_left, Nat.add_sub_cancel_left,
      List.take_left]

/-- A range of the given bounds has the length that the bounds say and lies inside. -/
theorem slice?_bounds {bytes part : Bytes} {start stop : Nat}
    (h : slice? bytes start stop = some part) :
    start + part.length = stop ∧ stop ≤ bytes.length := by
  obtain ⟨before, behind, rfl, rfl, rfl⟩ := slice?_eq_some_iff.mp h
  refine ⟨rfl, ?_⟩
  simp

/-- A range byte by byte. -/
theorem slice?_eq_some_iff_getElem? {bytes part : Bytes} {start stop : Nat} :
    slice? bytes start stop = some part ↔ start + part.length = stop ∧ stop ≤ bytes.length
      ∧ ∀ i < part.length, bytes[start + i]? = part[i]? := by
  constructor
  · intro h
    obtain ⟨before, behind, rfl, rfl, rfl⟩ := slice?_eq_some_iff.mp h
    refine ⟨rfl, by simp, fun i hi => ?_⟩
    rw [List.append_assoc, List.getElem?_append_right (by omega), Nat.add_sub_cancel_left,
      List.getElem?_append_left hi]
  · rintro ⟨rfl, hstop, hbytes⟩
    rw [slice?, if_pos ⟨by omega, hstop⟩, Nat.add_sub_cancel_left, Option.some.injEq]
    apply List.ext_getElem?
    intro i
    rw [List.getElem?_take, List.getElem?_drop]
    split
    · next hi => exact hbytes i hi
    · next hi => rw [List.getElem?_eq_none (by omega)]

theorem slice?_self {bytes : Bytes} {start : Nat} (h : start ≤ bytes.length) :
    slice? bytes start start = some [] := by
  rw [slice?, if_pos ⟨Nat.le_refl _, h⟩, Nat.sub_self, List.take_zero]

theorem slice?_middle (before part behind : Bytes) :
    slice? (before ++ part ++ behind) before.length (before.length + part.length) = some part :=
  slice?_eq_some_iff.mpr ⟨before, behind, rfl, rfl, rfl⟩

theorem slice?_append_left {bytes part : Bytes} {start stop : Nat}
    (h : slice? bytes start stop = some part) (behind : Bytes) :
    slice? (bytes ++ behind) start stop = some part := by
  obtain ⟨before, rest, rfl, hs, he⟩ := slice?_eq_some_iff.mp h
  exact slice?_eq_some_iff.mpr ⟨before, rest ++ behind, by simp, hs, he⟩

/-- A range that ends at or before `n` lies in the first `n` bytes. -/
theorem slice?_take {bytes part : Bytes} {start stop n : Nat}
    (h : slice? bytes start stop = some part) (hn : stop ≤ n) :
    slice? (bytes.take n) start stop = some part := by
  obtain ⟨before, rest, rfl, rfl, rfl⟩ := slice?_eq_some_iff.mp h
  refine slice?_eq_some_iff.mpr ⟨before, rest.take (n - (before ++ part).length), ?_, rfl, rfl⟩
  rw [List.take_append, List.take_of_length_le (by simpa using hn)]

/-- A range that starts at or behind `n` moves along where the `n` bytes at the front are replaced by
others. -/
theorem slice?_append_drop_shifted {bytes part : Bytes} {start stop n : Nat}
    (h : slice? bytes start stop = some part) (hn : n ≤ start) (front : Bytes) :
    slice? (front ++ bytes.drop n) (front.length + (start - n)) (front.length + (stop - n))
      = some part := by
  obtain ⟨before, rest, rfl, rfl, rfl⟩ := slice?_eq_some_iff.mp h
  refine slice?_eq_some_iff.mpr ⟨front ++ before.drop n, rest, ?_, ?_, ?_⟩
  · rw [List.append_assoc before, List.drop_append_of_le_length hn]
    simp
  · rw [List.length_append, List.length_drop]
  · omega

theorem slice?_append_drop {bytes part : Bytes} {start stop n : Nat}
    (h : slice? bytes start stop = some part) (hn : n ≤ start) (front : Bytes)
    (hf : front.length = n) :
    slice? (front ++ bytes.drop n) start stop = some part := by
  have hstop := (slice?_bounds h).1
  have hshifted := slice?_append_drop_shifted h hn front
  rwa [hf, Nat.add_sub_cancel' hn, Nat.add_sub_cancel' (by omega)] at hshifted

/-- Of two ranges with the same start the shorter one is the front of the longer one. -/
theorem prefix_of_slice? {bytes x y : Bytes} {start stop stop' : Nat}
    (hx : slice? bytes start stop = some x) (hy : slice? bytes start stop' = some y)
    (hle : x.length ≤ y.length) : x <+: y := by
  obtain ⟨before, behind, rfl, rfl, -⟩ := slice?_eq_some_iff.mp hx
  obtain ⟨before', behind', hsame, hlen, -⟩ := slice?_eq_some_iff.mp hy
  rw [List.append_assoc, List.append_assoc] at hsame
  obtain ⟨-, hsame⟩ := List.append_inj hsame hlen.symm
  exact List.prefix_of_prefix_length_le ⟨behind, rfl⟩ ⟨behind', hsame.symm⟩ hle

/-- Byte strings with the same bytes in a range are the same when they are cut to it. -/
theorem take_drop_congr {bytes bytes' : Bytes} {start n : Nat}
    (h : ∀ i, start ≤ i → i < start + n → bytes[i]? = bytes'[i]?) :
    (bytes.drop start).take n = (bytes'.drop start).take n := by
  apply List.ext_getElem?
  intro i
  rw [List.getElem?_take, List.getElem?_take, List.getElem?_drop, List.getElem?_drop]
  split
  · exact h _ (by omega) (by omega)
  · rfl

/-! ## Writing over bytes -/

@[simp] theorem zeros_length (n : Nat) : (zeros n).length = n := List.length_replicate

@[simp] theorem padTo_length (n : Nat) (bytes : Bytes) : (padTo n bytes).length = n := by
  rw [padTo, List.length_append, List.length_take, zeros_length]
  omega

/-- What has been written is there. -/
theorem slice?_overwrite (bytes : Bytes) (start : Nat) (patch : Bytes) :
    slice? (overwrite bytes start patch) start (start + patch.length) = some patch := by
  have h := slice?_middle (padTo start bytes) patch (bytes.drop (start + patch.length))
  rwa [padTo_length] at h

/-- A range before the place that is written over stays as it is. -/
theorem slice?_overwrite_of_le {bytes part : Bytes} {start stop pos : Nat} (patch : Bytes)
    (h : slice? bytes start stop = some part) (hle : stop ≤ pos) :
    slice? (overwrite bytes pos patch) start stop = some part := by
  have hpad : slice? (padTo pos bytes) start stop = some part :=
    slice?_append_left (slice?_take h hle) _
  exact slice?_append_left (slice?_append_left hpad _) _

/-- What is written over bytes that stand behind others leaves those in front alone. -/
theorem overwrite_append (front behind patch : Bytes) :
    overwrite (front ++ behind) front.length patch
      = front ++ (patch ++ behind.drop patch.length) := by
  have hpad : padTo front.length (front ++ behind) = front := by
    rw [padTo, List.take_left, List.length_append, Nat.sub_add_eq, Nat.sub_self, Nat.zero_sub]
    exact List.append_nil front
  rw [overwrite, hpad, ← List.drop_drop, List.drop_left, List.append_assoc]

/-- Two pieces are written one after the other. -/
theorem overwrite_append_patch (bytes : Bytes) (start : Nat) (front behind : Bytes) :
    overwrite bytes start (front ++ behind)
      = overwrite (overwrite bytes start front) (start + front.length) behind := by
  have hfront : (padTo start bytes ++ front).length = start + front.length := by
    rw [List.length_append, padTo_length]
  calc overwrite bytes start (front ++ behind)
      = padTo start bytes ++ front
          ++ (behind ++ (bytes.drop (start + front.length)).drop behind.length) := by
        simp only [overwrite, List.length_append, List.drop_drop, List.append_assoc,
          Nat.add_assoc]
    _ = overwrite (overwrite bytes start front) (start + front.length) behind := by
        rw [← overwrite_append, hfront]
        rfl

theorem overwrite_nil {bytes : Bytes} {start : Nat} (h : start ≤ bytes.length) :
    overwrite bytes start [] = bytes := by
  rw [overwrite, padTo, Nat.sub_eq_zero_of_le h]
  simp [zeros]

/-- Bytes that are there already can be written once more. -/
theorem overwrite_of_slice? {bytes patch : Bytes} {start : Nat}
    (h : slice? bytes start (start + patch.length) = some patch) :
    overwrite bytes start patch = bytes := by
  obtain ⟨before, behind, rfl, rfl, -⟩ := slice?_eq_some_iff.mp h
  rw [List.append_assoc, overwrite_append, List.drop_left]

theorem length_overwrite (bytes : Bytes) (pos : Nat) (patch : Bytes) :
    (overwrite bytes pos patch).length = max bytes.length (pos + patch.length) := by
  rw [overwrite, List.length_append, List.length_append, padTo_length, List.length_drop]
  omega

theorem getElem?_overwrite (bytes : Bytes) (pos : Nat) (patch : Bytes) (i : Nat)
    (hi : i < patch.length) : (overwrite bytes pos patch)[pos + i]? = patch[i]? := by
  have h := slice?_eq_some_iff_getElem?.mp (slice?_overwrite bytes pos patch)
  exact h.2.2 i hi

/-- A byte outside the place that is written over stays as it is. -/
theorem getElem?_overwrite_of_outside {bytes : Bytes} {pos : Nat} {patch : Bytes} {i : Nat}
    (hi : i < bytes.length) (houtside : i < pos ∨ pos + patch.length ≤ i) :
    (overwrite bytes pos patch)[i]? = bytes[i]? := by
  rw [overwrite]
  rcases houtside with hlt | hle
  · rw [List.append_assoc, List.getElem?_append_left (by rw [padTo_length]; exact hlt), padTo,
      List.getElem?_append_left (by rw [List.length_take]; omega), List.getElem?_take, if_pos hlt]
  · rw [List.getElem?_append_right (by rw [List.length_append, padTo_length]; exact hle),
      List.length_append, padTo_length, List.getElem?_drop, Nat.add_sub_cancel' hle]

/-- A range stays as it is under a patch that has the same bytes wherever it reaches into the
range. -/
theorem slice?_overwrite_of_agree {bytes part patch : Bytes} {start stop pos : Nat}
    (h : slice? bytes start stop = some part)
    (hagree : ∀ i < part.length, ∀ j < patch.length, start + i = pos + j → part[i]? = patch[j]?) :
    slice? (overwrite bytes pos patch) start stop = some part := by
  obtain ⟨hlen, hstop, hbytes⟩ := slice?_eq_some_iff_getElem?.mp h
  refine slice?_eq_some_iff_getElem?.mpr ⟨hlen, by rw [length_overwrite]; omega, fun i hi => ?_⟩
  by_cases hin : pos ≤ start + i ∧ start + i < pos + patch.length
  · obtain ⟨j, hj⟩ : ∃ j, start + i = pos + j := ⟨start + i - pos, by omega⟩
    rw [hj, getElem?_overwrite bytes pos patch j (by omega), hagree i hi j (by omega) hj]
  · rw [getElem?_overwrite_of_outside (by omega) (by omega), hbytes i hi]

/-! ## Bytes where there may be none

A byte string is looked at as if zeros followed it without end. -/

theorem getD_append_zeros (bytes : Bytes) (n i : Nat) :
    (bytes ++ zeros n)[i]?.getD 0 = bytes[i]?.getD 0 := by
  by_cases hi : i < bytes.length
  · rw [List.getElem?_append_left hi]
  · rw [List.getElem?_append_right (by omega), zeros, List.getElem?_replicate,
      List.getElem?_eq_none (by omega)]
    split <;> rfl

theorem getD_padTo {bytes : Bytes} {n i : Nat} (hi : i < n) :
    (padTo n bytes)[i]?.getD 0 = bytes[i]?.getD 0 := by
  rw [padTo, getD_append_zeros, List.getElem?_take, if_pos hi]

theorem getD_overwrite_of_outside {bytes patch : Bytes} {pos i : Nat}
    (houtside : i < pos ∨ pos + patch.length ≤ i) :
    (overwrite bytes pos patch)[i]?.getD 0 = bytes[i]?.getD 0 := by
  rw [overwrite]
  rcases houtside with hlt | hle
  · rw [List.append_assoc, List.getElem?_append_left (by rw [padTo_length]; exact hlt),
      getD_padTo hlt]
  · rw [List.getElem?_append_right (by rw [List.length_append, padTo_length]; exact hle),
      List.length_append, padTo_length, List.getElem?_drop, Nat.add_sub_cancel' hle]

end ChunkArchive.Bytes
