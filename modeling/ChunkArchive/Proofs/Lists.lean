import Mathlib.Data.List.Forall2
import Mathlib.Tactic

/-!
# Lists

Facts about lists that have nothing to do with what is in them: what is at a place, what holds of any
two entries, and what two lists that belong together entry by entry tell about each other
(`forall₂_getElem?`, `map_eq_of_forall₂`).
-/

set_option autoImplicit false

namespace ChunkArchive

variable {α β γ : Type}

/-! ## Places -/

/-- What is changed at one place of a list is changed there in its image. -/
theorem map_modify {f : α → β} {g : α → α} {g' : β → β} (h : ∀ x, f (g x) = g' (f x)) (l : List α)
    (i : Nat) : (l.modify i g).map f = (l.map f).modify i g' := by
  apply List.ext_getElem?
  intro j
  rw [List.getElem?_map, List.getElem?_modify, List.getElem?_modify, List.getElem?_map]
  cases l[j]? with
  | none => rfl
  | some x =>
      by_cases hij : i = j
      · simp [hij, h]
      · simp [hij]

/-- An image that does not show the change stays as it is. -/
theorem map_modify_of_same {f : α → β} {g : α → α} (h : ∀ x, f (g x) = f x) (l : List α) (i : Nat) :
    (l.modify i g).map f = l.map f := by
  have hid : ∀ x, f (g x) = id (f x) := h
  rw [map_modify hid, List.modify_id]

/-- To put a changed element back where it was is to change it there. -/
theorem set_eq_modify_of_getElem? {l : List α} {i : Nat} {x : α} (f : α → α) (h : l[i]? = some x) :
    l.set i (f x) = l.modify i f := by
  rw [List.modify_eq_set_getElem?, h]
  rfl

/-- Lists of one length are the same if they are so at every place. -/
theorem ext_getD (default : α) {l l' : List α} (hlen : l.length = l'.length)
    (h : ∀ i : Nat, l[i]?.getD default = l'[i]?.getD default) : l = l' := by
  refine List.ext_getElem hlen fun i hi hi' => ?_
  have hget := h i
  rwa [List.getElem?_eq_getElem hi, List.getElem?_eq_getElem hi'] at hget

/-- What stands in one of several lists is found in all of them together behind those before it. -/
theorem getElem?_flatMap {f : α → List β} {l : List α} {i n : Nat} {x : α} {y : β}
    (hx : l[i]? = some x) (hy : (f x)[n]? = some y) :
    (l.flatMap f)[((l.take i).map fun a => (f a).length).sum + n]? = some y := by
  induction l generalizing i with
  | nil => cases hx
  | cons first l ih =>
      rw [List.flatMap_cons]
      cases i with
      | zero =>
          obtain rfl : first = x := by simpa using hx
          obtain ⟨hlt, -⟩ := List.getElem?_eq_some_iff.mp hy
          simpa [List.getElem?_append_left hlt] using hy
      | succ i =>
          have hrest := ih (by simpa using hx)
          rw [List.take_succ_cons, List.map_cons, List.sum_cons, Nat.add_assoc,
            List.getElem?_append_right (Nat.le_add_right _ _), Nat.add_sub_cancel_left]
          exact hrest

/-! ## Any two entries -/

section Pairwise

variable {R : α → α → Prop} {l : List α} {x y : α}

/-- Of two entries of a list in order one comes before the other. -/
theorem pairwise_cases (h : l.Pairwise R) (hx : x ∈ l) (hy : y ∈ l) (hne : x ≠ y) :
    R x y ∨ R y x := by
  have heither : l.Pairwise fun u v => R u v ∨ R v u := h.imp fun huv => Or.inl huv
  have hsymm : Std.Symm fun u v : α => R u v ∨ R v u := ⟨fun _ _ huv => huv.symm⟩
  exact heither.forall hx hy hne

/-- Entries at two places of a list are in a relation that holds between any two of them. -/
theorem pairwise_getElem? (h : l.Pairwise R) (hsymm : ∀ x y, R x y → R y x) {i j : Nat}
    (hx : l[i]? = some x) (hy : l[j]? = some y) (hne : i ≠ j) : R x y := by
  obtain ⟨hi, rfl⟩ := List.getElem?_eq_some_iff.mp hx
  obtain ⟨hj, rfl⟩ := List.getElem?_eq_some_iff.mp hy
  rcases Nat.lt_or_gt_of_ne hne with hlt | hlt
  · exact List.pairwise_iff_getElem.mp h i j hi hj hlt
  · exact hsymm _ _ (List.pairwise_iff_getElem.mp h j i hj hi hlt)

end Pairwise

/-! ## Lists side by side -/

section Forall2

variable {R : α → β → Prop} {as : List α} {bs : List β}

/-- An entry of the first list has its counterpart at the same place of the second. -/
theorem forall₂_getElem? (h : List.Forall₂ R as bs) {i : Nat} {a : α} (ha : as[i]? = some a) :
    ∃ b, bs[i]? = some b ∧ R a b := by
  obtain ⟨hlt, rfl⟩ := List.getElem?_eq_some_iff.mp ha
  exact ⟨_, List.getElem?_eq_getElem (h.length_eq ▸ hlt), h.get hlt (h.length_eq ▸ hlt)⟩

/-- What follows for an entry of the second list from what ties it to one of the first. -/
theorem forall_of_forall₂ {P : β → Prop} (h : List.Forall₂ R as bs) (hR : ∀ a b, R a b → P b) :
    ∀ b ∈ bs, P b := by
  induction h with
  | nil => simp
  | cons hab _ ih => exact List.forall_mem_cons.mpr ⟨hR _ _ hab, ih⟩

/-- Functions that agree on entries that belong together give one list. -/
theorem map_eq_of_forall₂ {f : α → γ} {g : β → γ} (h : List.Forall₂ R as bs)
    (hR : ∀ a b, R a b → g b = f a) : bs.map g = as.map f := by
  induction h with
  | nil => rfl
  | cons hab _ ih => rw [List.map_cons, List.map_cons, hR _ _ hab, ih]

theorem exists_forall₂_iff : (∃ bs, List.Forall₂ R as bs) ↔ ∀ a ∈ as, ∃ b, R a b := by
  induction as with
  | nil => simp
  | cons a as ih =>
      rw [List.forall_mem_cons, ← ih]
      constructor
      · rintro ⟨bs, _ | ⟨h, hrest⟩⟩
        exact ⟨⟨_, h⟩, _, hrest⟩
      · rintro ⟨⟨b, h⟩, bs, hrest⟩
        exact ⟨b :: bs, .cons h hrest⟩

/-- Two pictures of one list are related when those of every item are. -/
theorem forall₂_map {r : β → γ → Prop} {f : α → β} {g : α → γ} (h : ∀ a, r (f a) (g a))
    (as : Array α) : List.Forall₂ r (as.map f).toList (as.map g).toList := by
  rw [Array.toList_map, Array.toList_map, List.forall₂_map_left_iff, List.forall₂_map_right_iff,
    List.forall₂_same]
  exact fun a _ => h a

end Forall2

/-! ### What may be missing -/

theorem rel_map {r : β → β → Prop} {a a' : Option α} {f : α → β} (h : a.isSome = a'.isSome)
    (hr : ∀ x x', r (f x) (f x')) : Option.Rel r (a.map f) (a'.map f) := by
  cases a with
  | none =>
      cases a' with
      | none => exact .none
      | some x' => cases h
  | some x =>
      cases a' with
      | none => cases h
      | some x' => exact .some (hr x x')

theorem rel_cases {r : α → β → Prop} {a : Option α} {b : Option β} (h : Option.Rel r a b) :
    a = none ∧ b = none ∨ ∃ x y, a = some x ∧ b = some y ∧ r x y := by
  cases h with
  | none => exact Or.inl ⟨rfl, rfl⟩
  | some hr => exact Or.inr ⟨_, _, rfl, rfl, hr⟩

/-- A step for each of a list ends well when every one of them does. -/
theorem mapM_eq_some {f : α → Option β} {as : List α} {bs : List β} :
    as.mapM f = some bs ↔ as.map f = bs.map some := by
  induction as generalizing bs with
  | nil =>
      constructor
      · intro h
        cases h
        rfl
      · intro h
        cases bs with
        | nil => rfl
        | cons b bs => cases h
  | cons a as ih =>
      rw [List.mapM_cons, List.map_cons]
      show (f a).bind (fun b => (as.mapM f).bind fun bs => some (b :: bs)) = some _ ↔ _
      simp only [Option.bind_eq_some_iff, ih, Option.some.injEq]
      constructor
      · rintro ⟨b, hb, bs, hbs, rfl⟩
        rw [hb, hbs, List.map_cons]
      · intro h
        cases bs with
        | nil => cases h
        | cons b bs =>
            obtain ⟨hb, hbs⟩ := List.cons.inj h
            exact ⟨b, hb, bs, hbs, rfl⟩

/-! ## Maxima -/

theorem lt_foldl_max {n first : Nat} {ns : List Nat} :
    n < ns.foldl max first ↔ n < first ∨ ∃ m ∈ ns, n < m := by
  induction ns generalizing first with
  | nil => simp
  | cons k ns ih =>
      rw [List.foldl_cons, ih, lt_max_iff]
      simp only [List.mem_cons, exists_eq_or_imp, or_assoc]

theorem le_foldl_max {n : Nat} {ns : List Nat} (h : n ∈ ns) (first : Nat) :
    n ≤ ns.foldl max first :=
  Nat.le_of_not_lt fun hlt => Nat.lt_irrefl _ (lt_foldl_max.mpr (Or.inr ⟨n, h, hlt⟩))

/-! ## Pieces -/

theorem notMem_of_mem_splitOn [BEq α] [LawfulBEq α] {separator : α} {l piece : List α}
    (h : piece ∈ l.splitOn separator) : separator ∉ piece := by
  induction l generalizing piece with
  | nil =>
      obtain rfl : piece = [] := by simpa using h
      exact List.not_mem_nil
  | cons x l ih =>
      rw [List.splitOn_cons_eq_if_modifyHead] at h
      obtain ⟨first, rest, hsplit⟩ := List.exists_cons_of_ne_nil (List.splitOn_ne_nil separator l)
      rw [hsplit] at ih h
      by_cases hx : x = separator
      · rw [if_pos (by simpa using hx), List.mem_cons] at h
        rcases h with rfl | h
        · exact List.not_mem_nil
        · exact ih h
      · rw [if_neg (by simpa using hx), List.modifyHead_cons, List.mem_cons] at h
        rcases h with rfl | h
        · have hfirst : separator ∉ first := ih List.mem_cons_self
          simp [hfirst, Ne.symm hx]
        · exact ih (List.mem_cons_of_mem first h)

/-- Joined pieces have no entries but their own and those put between them. -/
theorem mem_intercalate_cases {x : α} {between : List α} {pieces : List (List α)}
    (h : x ∈ between.intercalate pieces) : x ∈ between ∨ ∃ piece ∈ pieces, x ∈ piece := by
  induction pieces with
  | nil => cases h
  | cons piece pieces ih =>
      cases pieces with
      | nil =>
          rw [List.intercalate_singleton] at h
          exact Or.inr ⟨piece, List.mem_cons_self, h⟩
      | cons next pieces =>
          rw [List.intercalate_cons_cons, List.mem_append, List.mem_append] at h
          rcases h with (h | h) | h
          · exact Or.inr ⟨piece, List.mem_cons_self, h⟩
          · exact Or.inl h
          · rcases ih h with h | ⟨found, hfound, h⟩
            · exact Or.inl h
            · exact Or.inr ⟨found, List.mem_cons_of_mem piece hfound, h⟩

end ChunkArchive
