import Mathlib.Data.List.Nodup
import Mathlib.Data.List.Perm.Subperm
import Mathlib.Order.Bounds.Basic
import Tapestry.Builtin

/-!
# The least free cell

A reserved cell is the least one that no variable holds. The cells held are collected, each once and
no negative ones, and put in ascending order. The first position in that order whose element is
another number is the cell reserved, or the length if there is none.

Such a list is strictly ascending and starts at 0 or above, so as long as every element is at its own
position nothing is left out; and once one is not, it and all behind it are greater than the position.

So only the set of cells held matters, and as many variables as there are cells below the one
reserved must hold them.
-/

namespace Tapestry.Register

variable {vars others : List Variable} {used : List Int} {position n : Nat} {index : Int}

/-! ## Collecting -/

/-- What is collected is what was collected before, and every cell held that is not negative. -/
theorem mem_collect_iff :
    index ∈ collect used vars ↔
      index ∈ used ∨ 0 ≤ index ∧ ∃ v ∈ vars, v.value.datum = .cell index := by
  induction vars generalizing used with
  | nil => simp [collect]
  | cons v rest ih =>
    simp only [List.exists_mem_cons_iff]
    unfold collect
    split
    case h_1 first hdatum =>
      rw [hdatum, Datum.cell.injEq]
      split
      case isTrue hskip =>
        -- A cell that is passed over is negative, or was collected before.
        rw [ih]
        constructor
        · rintro (hmem | ⟨hsign, hrest⟩)
          · exact .inl hmem
          · exact .inr ⟨hsign, .inr hrest⟩
        · rintro (hmem | ⟨hsign, rfl | hrest⟩)
          · exact .inl hmem
          · exact .inl (hskip.resolve_left (Int.not_lt.mpr hsign))
          · exact .inr ⟨hsign, hrest⟩
      case isFalse hkeep =>
        have hsign : 0 ≤ first := by omega
        rw [ih, List.mem_append, List.mem_singleton]
        constructor
        · rintro ((hmem | rfl) | ⟨hindex, hrest⟩)
          · exact .inl hmem
          · exact .inr ⟨hsign, .inl rfl⟩
          · exact .inr ⟨hindex, .inr hrest⟩
        · rintro (hmem | ⟨hindex, rfl | hrest⟩)
          · exact .inl (.inl hmem)
          · exact .inl (.inr rfl)
          · exact .inr ⟨hindex, hrest⟩
    case h_2 hother =>
      rw [ih, or_iff_right (hother index)]

/-- No cell is collected twice. -/
theorem nodup_collect (h : used.Nodup) : (collect used vars).Nodup := by
  induction vars generalizing used with
  | nil => exact h
  | cons v rest ih =>
    unfold collect
    split
    · split
      case isTrue => exact ih h
      case isFalse hkeep =>
        refine ih (List.nodup_append'.mpr ⟨h, List.nodup_singleton _, ?_⟩)
        exact List.disjoint_singleton.mpr fun hmem => hkeep (.inr hmem)
    · exact ih h

/-- No more cells are collected than there are variables. -/
theorem length_collect_le (used : List Int) (vars : List Variable) :
    (collect used vars).length ≤ used.length + vars.length := by
  induction vars generalizing used with
  | nil => exact Nat.le_refl _
  | cons v rest ih =>
    unfold collect
    rw [List.length_cons]
    split
    · split
      · exact Nat.le_trans (ih used) (by omega)
      · exact Nat.le_trans (ih _) (by rw [List.length_append, List.length_singleton]; omega)
    · exact Nat.le_trans (ih used) (by omega)

/-! ## Sorting -/

/-- The cells collected, in ascending order. -/
def sorted (vars : List Variable) : List Int :=
  (collect [] vars).mergeSort fun a b => decide (a ≤ b)

/-- The cells in ascending order are the cells held that are not negative. -/
theorem mem_sorted_iff :
    index ∈ sorted vars ↔ 0 ≤ index ∧ ∃ v ∈ vars, v.value.datum = .cell index := by
  rw [sorted, List.mem_mergeSort, mem_collect_iff]
  exact or_iff_right List.not_mem_nil

/-- Sorted cells ascend strictly, since none was collected twice. -/
theorem ascending_sorted (vars : List Variable) : (sorted vars).Pairwise (· < ·) := by
  have hordered : (sorted vars).Pairwise (fun a b => decide (a ≤ b) = true) :=
    List.pairwise_mergeSort (fun a b c hab hbc => by simp only [decide_eq_true_eq] at *; omega)
      (fun a b => by simp only [Bool.or_eq_true, decide_eq_true_eq]; omega) (collect [] vars)
  have hdistinct : (sorted vars).Nodup :=
    (List.mergeSort_perm _ _).nodup_iff.mpr (nodup_collect List.nodup_nil)
  refine (hordered.and hdistinct).imp fun {a b} h => ?_
  exact Int.lt_iff_le_and_ne.mpr ⟨of_decide_eq_true h.1, h.2⟩

/-! ## The first mismatch -/

/-- Every number before the first mismatch is in the list. -/
theorem mem_of_lt_mismatch (hfrom : position ≤ n) (hto : n < mismatch position used) :
    (n : Int) ∈ used := by
  induction used generalizing position with
  | nil => exact absurd hto (Nat.not_lt.mpr hfrom)
  | cons first rest ih =>
    unfold mismatch at hto
    split at hto
    case isTrue => exact absurd hto (Nat.not_lt.mpr hfrom)
    case isFalse hsame =>
      rcases Nat.eq_or_lt_of_le hfrom with rfl | hlater
      · exact Decidable.not_not.mp hsame ▸ List.mem_cons_self
      · exact List.mem_cons_of_mem first (ih hlater hto)

/-- The first mismatch is not before the position it is sought from. -/
theorem le_mismatch (position : Nat) (used : List Int) : position ≤ mismatch position used := by
  induction used generalizing position with
  | nil => exact Nat.le_refl _
  | cons first rest ih =>
    unfold mismatch
    split
    · exact Nat.le_refl _
    · exact Nat.le_of_succ_le (ih (position + 1))

/-- In a strictly ascending list that starts no lower than its first position, the first mismatch is
not an element: what stands there is greater, and so is all behind it. -/
theorem mismatch_notMem (hascending : used.Pairwise (· < ·)) (hlow : ∀ index ∈ used, position ≤ index) :
    (mismatch position used : Int) ∉ used := by
  induction used generalizing position with
  | nil => exact List.not_mem_nil
  | cons first rest ih =>
    obtain ⟨hfirst, hrest⟩ := List.pairwise_cons.mp hascending
    have hposition : (position : Int) ≤ first := hlow first List.mem_cons_self
    unfold mismatch
    split
    case isTrue hother =>
      intro hmem
      rcases List.mem_cons.mp hmem with hhere | hbehind
      · exact hother hhere.symm
      · have hgreater := hfirst _ hbehind
        omega
    case isFalse hsame =>
      have hsame : first = position := Decidable.not_not.mp hsame
      have hlater : ∀ index ∈ rest, ((position + 1 : Nat) : Int) ≤ index := by
        intro index hindex
        have hgreater := hfirst index hindex
        omega
      intro hmem
      rcases List.mem_cons.mp hmem with hhere | hbehind
      · have hle := le_mismatch (position + 1) rest
        omega
      · exact ih hrest hlater hbehind

/-! ## Allocation -/

/-- The cell reserved beside variables is held by none of them. -/
theorem allocate_ne {v : Variable} (hv : v ∈ vars) : v.value.datum ≠ .cell (allocate vars) := by
  intro hcell
  have hfree : (allocate vars : Int) ∉ sorted vars :=
    mismatch_notMem (ascending_sorted vars) fun _ hindex => (mem_sorted_iff.mp hindex).1
  exact hfree (mem_sorted_iff.mpr ⟨Int.natCast_nonneg _, v, hv, hcell⟩)

/-- Every cell below the one reserved is held. -/
theorem exists_cell_of_lt_allocate (h : n < allocate vars) : ∃ v ∈ vars, v.value.datum = .cell n :=
  (mem_sorted_iff.mp (mem_of_lt_mismatch (Nat.zero_le n) h)).2

/-- The cell reserved is the least that no variable holds. -/
theorem allocate_isLeast (vars : List Variable) :
    IsLeast {n : Nat | ∀ v ∈ vars, v.value.datum ≠ .cell n} (allocate vars) := by
  refine ⟨fun v hv => allocate_ne hv, fun n hfree => ?_⟩
  by_contra hbelow
  obtain ⟨v, hv, hcell⟩ := exists_cell_of_lt_allocate (Nat.not_le.mp hbelow)
  exact hfree v hv hcell

/-- The cells below the one reserved are different, and each of them was collected. -/
theorem allocate_le_length (vars : List Variable) : allocate vars ≤ vars.length := by
  have hdistinct : ((List.range (allocate vars)).map Int.ofNat).Nodup :=
    List.Nodup.map (fun _ _ => Int.ofNat.inj) List.nodup_range
  have hheld : (List.range (allocate vars)).map Int.ofNat ⊆ collect [] vars := by
    intro index hindex
    obtain ⟨n, hn, rfl⟩ := List.mem_map.mp hindex
    exact mem_collect_iff.mpr (.inr ⟨Int.natCast_nonneg n,
      exists_cell_of_lt_allocate (List.mem_range.mp hn)⟩)
  calc allocate vars = ((List.range (allocate vars)).map Int.ofNat).length := by simp
    _ ≤ (collect [] vars).length := (hdistinct.subperm hheld).length_le
    _ ≤ vars.length := Nat.le_trans (length_collect_le [] vars) (Nat.le_of_eq (Nat.zero_add _))

/-- Variables that hold the same cells leave the same cell to be reserved. -/
theorem allocate_congr
    (h : ∀ n : Nat, (∃ v ∈ others, v.value.datum = .cell n) ↔ ∃ v ∈ vars, v.value.datum = .cell n) :
    allocate others = allocate vars := by
  refine (allocate_isLeast others).unique ?_
  have hfree : {n : Nat | ∀ v ∈ others, v.value.datum ≠ .cell n} =
      {n : Nat | ∀ v ∈ vars, v.value.datum ≠ .cell n} := by
    ext n
    simpa using not_congr (h n)
  exact hfree ▸ allocate_isLeast vars

/-- Whatever variables there are, the cell reserved beside them is the least number that none of them
holds as the index of a cell. So it is at most the number of variables, and variables in another
order, or listed more than once, leave the same cell. -/
theorem allocation_least_free (vars : List Variable) :
    IsLeast {n : Nat | ∀ v ∈ vars, v.value.datum ≠ .cell n} (allocate vars) ∧
      allocate vars ≤ vars.length ∧
        ∀ others : List Variable, (∀ v, v ∈ others ↔ v ∈ vars) → allocate others = allocate vars :=
  ⟨allocate_isLeast vars, allocate_le_length vars, fun _ hsame =>
    allocate_congr fun _ => exists_congr fun v => and_congr_left fun _ => hsame v⟩

/-- A variable that holds a datum. -/
def holding (datum : Datum) : Variable := ⟨"v", datum, ⟨1, 0, "v"⟩⟩

/-- Variables of several kinds that hold cells on both sides of 0, one of them twice. -/
def scattered : List Variable :=
  [.cell 3, .int 2, .cell 0, .cell (-7), .reference "v", .cell 0, .cell 1, .cell 0x7FFFFFFFFFFFFFFF].map
    holding

/-- The first cell between those held is reserved, whatever the order. -/
theorem allocation_least_free_scattered :
    allocate scattered = 2 ∧ (∀ v, v ∈ scattered.reverse ↔ v ∈ scattered) ∧
      allocate scattered.reverse = 2 := by
  obtain ⟨hleast, _, hsame⟩ := allocation_least_free scattered
  have htwo : allocate scattered = 2 := by
    refine hleast.unique ⟨by decide, fun n hfree => ?_⟩
    by_contra hbelow
    have hcases : n = 0 ∨ n = 1 := by omega
    rcases hcases with rfl | rfl
    · exact hfree (holding (.cell 0)) (by decide) rfl
    · exact hfree (holding (.cell 1)) (by decide) rfl
  have hreverse : ∀ v, v ∈ scattered.reverse ↔ v ∈ scattered := fun v => List.mem_reverse
  exact ⟨htwo, hreverse, (hsame _ hreverse).trans htwo⟩

end Tapestry.Register
