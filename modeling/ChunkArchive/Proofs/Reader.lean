import ChunkArchive.Proofs.Bytes
import ChunkArchive.Steps
import Mathlib.Data.List.TakeWhile
import Mathlib.Tactic

/-!
# Steps that may fail

What it takes for a row of steps to end well, and what a reader takes from the front of a byte
string. `Reader.Takes r bytes a` says that `r` takes exactly `bytes`, whatever follows them, and
gives `a`; what follows is left to the reader that is run after it (`Takes.run_bind`).
`Reader.Needs r bytes e` says that `r` fails with `e` wherever `bytes` are cut short; this is passed
on to readers that are run one after the other (`Needs.bind`).
-/

set_option autoImplicit false

namespace ChunkArchive

/-! ## Outcomes -/

namespace Outcome

variable {ε α β : Type}

/-- Two steps end well when the first does and the second does with what it is given. -/
theorem bind_eq_ok {step : Except ε α} {next : α → Except ε β} {b : β} :
    (step >>= next) = .ok b ↔ ∃ a, step = .ok a ∧ next a = .ok b := by
  cases step with
  | error e =>
      constructor
      · intro h
        cases h
      · rintro ⟨a, h, -⟩
        cases h
  | ok a =>
      constructor
      · intro h
        exact ⟨a, rfl, h⟩
      · rintro ⟨a', h, hb⟩
        cases h
        exact hb

theorem pure_eq_ok {a b : α} : (pure a : Except ε α) = .ok b ↔ a = b := by
  constructor
  · intro h
    cases h
    rfl
  · rintro rfl
    rfl

theorem mapError_eq_ok {ε' : Type} {step : Except ε α} {f : ε → ε'} {a : α} :
    step.mapError f = .ok a ↔ step = .ok a := by
  cases step <;> simp [Except.mapError]

/-- Steps behind a check end well when the check is passed. -/
theorem unless_eq_ok {c : Prop} [Decidable c] {e : ε} {next : Unit → Except ε α} {b : α} :
    (if c then (Except.error e >>= next) else next ()) = .ok b ↔ ¬ c ∧ next () = .ok b := by
  by_cases hc : c
  · rw [if_pos hc]
    constructor
    · intro h
      cases h
    · rintro ⟨h, -⟩
      exact absurd hc h
  · rw [if_neg hc]
    exact ⟨fun h => ⟨hc, h⟩, fun h => h.2⟩

end Outcome

/-! ## Readers -/

namespace Reader

variable {α β : Type}

theorem bind_run (r : Reader α) (f : α → Reader β) (bytes : Bytes) :
    (r >>= f) bytes = r bytes >>= fun x => f x.1 x.2 := rfl

/-- Two readers end well when the first does and the second does with what is left. -/
theorem bind_eq_ok {r : Reader α} {f : α → Reader β} {bytes rest : Bytes} {b : β} :
    (r >>= f) bytes = .ok (b, rest) ↔
      ∃ a mid, r bytes = .ok (a, mid) ∧ f a mid = .ok (b, rest) := by
  rw [bind_run, Outcome.bind_eq_ok]
  constructor
  · rintro ⟨⟨a, mid⟩, ha, hb⟩
    exact ⟨a, mid, ha, hb⟩
  · rintro ⟨a, mid, ha, hb⟩
    exact ⟨(a, mid), ha, hb⟩

theorem pure_eq_ok {a b : α} {bytes rest : Bytes} :
    (pure a : Reader α) bytes = .ok (b, rest) ↔ a = b ∧ bytes = rest := by
  rw [show (pure a : Reader α) bytes = pure (a, bytes) from rfl, Outcome.pure_eq_ok, Prod.mk.injEq]

/-- The reader takes exactly `bytes` from the front and gives `a`. -/
def Takes (r : Reader α) (bytes : Bytes) (a : α) : Prop :=
  ∀ rest, r (bytes ++ rest) = .ok (a, rest)

theorem Takes.pure (a : α) : Takes (pure a) [] a := fun _ => rfl

/-- A reader that takes what stands at the front leaves the rest to the next one. -/
theorem Takes.run_bind {r : Reader α} {bytes : Bytes} {a : α} (h : Takes r bytes a)
    (f : α → Reader β) (rest : Bytes) : (r >>= f) (bytes ++ rest) = f a rest := by
  rw [bind_run, h rest]
  rfl

theorem byte_run_bind (b : UInt8) (f : UInt8 → Reader β) (rest : Bytes) :
    (byte >>= f) (b :: rest) = f b rest := rfl

theorem takes_word16 (w : UInt16) : Takes word16 (Bytes.ofWord16 w) w := by
  intro rest
  show Except.ok (Bytes.toWord16 _ _, rest) = _
  rw [Bytes.toWord16_ofWord16]

theorem takes_word32 (w : UInt32) : Takes word32 (Bytes.ofWord32 w) w := by
  intro rest
  show Except.ok (Bytes.toWord32 _ _ _ _, rest) = _
  rw [Bytes.toWord32_ofWord32]

theorem takes_take {n : Nat} {bytes : Bytes} (h : bytes.length = n) :
    Takes (take n) bytes bytes := by
  intro rest
  rw [take, if_pos (by simp [h]), ← h, List.take_left, List.drop_left]

theorem takes_terminated {bytes : Bytes} (h : 0 ∉ bytes) :
    Takes terminated (bytes ++ [0]) bytes := by
  intro rest
  have hne : ∀ b ∈ bytes, decide (b ≠ 0) = true := by
    intro b hb
    refine decide_eq_true ?_
    rintro rfl
    exact h hb
  have hdrop : (bytes ++ [0] ++ rest).dropWhile (· ≠ 0) = 0 :: rest := by
    rw [List.append_assoc, List.dropWhile_append_of_pos hne]
    rfl
  have htake : (bytes ++ [0] ++ rest).takeWhile (· ≠ 0) = bytes := by
    rw [List.append_assoc, List.takeWhile_append_of_pos hne]
    show bytes ++ [] = bytes
    rw [List.append_nil]
  rw [terminated, hdrop, htake]

theorem Takes.times {item : Reader α} {write : α → Bytes} {as : List α}
    (h : ∀ a ∈ as, Takes item (write a) a) :
    Takes (times item as.length) (as.flatMap write) as := by
  induction as with
  | nil => exact Takes.pure []
  | cons a as ih =>
      have hfirst := h a (by simp)
      have hothers := ih fun b hb => h b (by simp [hb])
      intro rest
      rw [List.length_cons, Reader.times, List.flatMap_cons, List.append_assoc, hfirst.run_bind,
        hothers.run_bind]
      rfl

/-! ## What has been taken -/

/-- A byte that was read stood at the front. -/
theorem byte_eq_ok {bytes rest : Bytes} {b : UInt8} (h : byte bytes = .ok (b, rest)) :
    bytes = b :: rest := by
  cases bytes with
  | nil => cases h
  | cons b' rest' =>
      cases h
      rfl

/-- A word that was read stood at the front, low byte first. -/
theorem word16_eq_ok {bytes rest : Bytes} {w : UInt16} (h : word16 bytes = .ok (w, rest)) :
    bytes = Bytes.ofWord16 w ++ rest := by
  unfold word16 at h
  split at h
  · cases h
    rw [Bytes.ofWord16_toWord16]
    rfl
  · cases h

theorem word32_eq_ok {bytes rest : Bytes} {w : UInt32} (h : word32 bytes = .ok (w, rest)) :
    bytes = Bytes.ofWord32 w ++ rest := by
  unfold word32 at h
  split at h
  · cases h
    rw [Bytes.ofWord32_toWord32]
    rfl
  · cases h

theorem take_eq_ok {n : Nat} {bytes part rest : Bytes} (h : take n bytes = .ok (part, rest)) :
    part.length = n ∧ bytes = part ++ rest := by
  unfold take at h
  split at h
  · next hn =>
      cases h
      refine ⟨?_, (List.take_append_drop n bytes).symm⟩
      rw [List.length_take]
      omega
  · cases h

/-- Bytes that were read up to a zero byte have none themselves. -/
theorem terminated_eq_ok {bytes part rest : Bytes} (h : terminated bytes = .ok (part, rest)) :
    0 ∉ part ∧ bytes = part ++ 0 :: rest := by
  unfold terminated at h
  split at h
  · next b behind hdrop =>
      cases h
      -- the bytes are cut before the first one that is zero
      have hsplit := List.takeWhile_append_dropWhile (p := (· ≠ 0)) (l := bytes)
      have hb : b = 0 := by
        have hhead := List.head?_dropWhile_not (· ≠ (0 : UInt8)) bytes
        rw [hdrop] at hhead
        simpa using hhead
      refine ⟨?_, ?_⟩
      · intro hmem
        have hne := List.mem_takeWhile_imp hmem
        simp at hne
      · rw [hdrop, hb] at hsplit
        exact hsplit.symm
  · cases h

/-- Reading a number of items gives that number of them, each as the item's reader gives it, and
takes their bytes one after the other. -/
theorem times_eq_ok {item : Reader α} {P : α → Prop} {write : α → Bytes}
    (hitem : ∀ bytes a rest, item bytes = .ok (a, rest) → P a ∧ bytes = write a ++ rest) {n : Nat}
    {bytes rest : Bytes} {as : List α} (h : times item n bytes = .ok (as, rest)) :
    as.length = n ∧ (∀ a ∈ as, P a) ∧ bytes = as.flatMap write ++ rest := by
  induction n generalizing bytes as with
  | zero =>
      obtain ⟨rfl, rfl⟩ := pure_eq_ok.mp h
      exact ⟨rfl, by simp, rfl⟩
  | succ n ih =>
      obtain ⟨first, mid, hfirst, h⟩ := bind_eq_ok.mp h
      obtain ⟨others, mid', hothers, h⟩ := bind_eq_ok.mp h
      obtain ⟨rfl, rfl⟩ := pure_eq_ok.mp h
      obtain ⟨hP, rfl⟩ := hitem _ _ _ hfirst
      obtain ⟨hlen, hall, rfl⟩ := ih hothers
      refine ⟨?_, ?_, ?_⟩
      · rw [List.length_cons, hlen]
      · exact List.forall_mem_cons.mpr ⟨hP, hall⟩
      · rw [List.flatMap_cons, List.append_assoc]

/-! ## Too few bytes -/

/-- The reader does with nothing less than all of `bytes`: wherever they are cut short, it fails
with `e`. -/
def Needs (r : Reader α) (bytes : Bytes) (e : Error) : Prop :=
  ∀ n < bytes.length, r (bytes.take n) = .error e

theorem needs_nil (r : Reader α) (e : Error) : Needs r [] e :=
  fun n hn => absurd hn (Nat.not_lt_zero n)

/-- What comes after a reader is not reached when its bytes are cut short. -/
theorem Needs.of_first {r : Reader α} {bytes : Bytes} {e : Error} (hr : Needs r bytes e)
    (f : α → Reader β) : Needs (r >>= f) bytes e := by
  intro n hn
  rw [bind_run, hr n hn]
  rfl

/-- Byte strings that are taken one after the other are cut short in the first one or in the
second. -/
theorem Needs.bind {r : Reader α} {f : α → Reader β} {bytes bytes' : Bytes} {a : α} {e : Error}
    (ht : Takes r bytes a) (hr : Needs r bytes e) (hf : Needs (f a) bytes' e) :
    Needs (r >>= f) (bytes ++ bytes') e := by
  intro n hn
  rw [List.length_append] at hn
  by_cases hcut : n < bytes.length
  · have htake : (bytes ++ bytes').take n = bytes.take n :=
      List.take_append_of_le_length (Nat.le_of_lt hcut)
    rw [htake]
    exact hr.of_first f n hcut
  · obtain ⟨m, rfl⟩ := Nat.exists_eq_add_of_le (Nat.le_of_not_lt hcut)
    rw [List.take_length_add_append, ht.run_bind]
    exact hf m (by omega)

theorem needs_word16 (w : UInt16) : Needs word16 (Bytes.ofWord16 w) (.file .shortRead) := by
  intro n hn
  rw [Bytes.ofWord16_length] at hn
  interval_cases n <;> rfl

theorem needs_word32 (w : UInt32) : Needs word32 (Bytes.ofWord32 w) (.file .shortRead) := by
  intro n hn
  rw [Bytes.ofWord32_length] at hn
  interval_cases n <;> rfl

/-- A single byte is there or it is not. -/
theorem Needs.byte_bind {f : UInt8 → Reader β} {b : UInt8} {bytes : Bytes}
    (hf : Needs (f b) bytes (.file .shortRead)) :
    Needs (byte >>= f) (b :: bytes) (.file .shortRead) := by
  intro n hn
  cases n with
  | zero => rfl
  | succ n => exact hf n (Nat.lt_of_succ_lt_succ hn)

theorem needs_take {n : Nat} {bytes : Bytes} (h : bytes.length = n) :
    Needs (take n) bytes (.file .shortRead) := by
  intro m hm
  have hshort : ¬ n ≤ (bytes.take m).length := by
    rw [List.length_take]
    omega
  rw [take, if_neg hshort]

/-- Without the zero byte the end is missed. -/
theorem needs_terminated {bytes : Bytes} (h : 0 ∉ bytes) :
    Needs terminated (bytes ++ [0]) .unexpectedEnd := by
  intro n hn
  rw [List.length_append, List.length_singleton] at hn
  have htake : (bytes ++ [0]).take n = bytes.take n :=
    List.take_append_of_le_length (Nat.le_of_lt_succ hn)
  have hdrop : (bytes.take n).dropWhile (· ≠ 0) = [] := by
    rw [List.dropWhile_eq_nil_iff]
    intro b hb
    refine decide_eq_true ?_
    rintro rfl
    exact h (List.mem_of_mem_take hb)
  rw [terminated, htake, hdrop]

theorem Needs.times {item : Reader α} {write : α → Bytes} {e : Error} {as : List α}
    (ht : ∀ a ∈ as, Takes item (write a) a) (hn : ∀ a ∈ as, Needs item (write a) e) :
    Needs (times item as.length) (as.flatMap write) e := by
  induction as with
  | nil => exact needs_nil _ e
  | cons a as ih =>
      have hothers := ih (fun b hb => ht b (by simp [hb])) fun b hb => hn b (by simp [hb])
      rw [List.length_cons, Reader.times, List.flatMap_cons]
      exact Needs.bind (ht a (by simp)) (hn a (by simp)) (hothers.of_first _)

end Reader

end ChunkArchive
