import PairedMarkov.Proofs.Checked
import PairedMarkov.Proofs.Weight

/-!
# Exact weights

Doubles are rounded, so that even the order in which scores are summed up matters. What the search
does apart from rounding is seen over *exact* weights: the numbers of an ordered ring, such as the
reals, with one weight below and one weight above all of them. The weight below marks problems
without a solution. The weight above is no number either, but a threshold may have it.

Main statements: exact weights are ordered and can be summed in any order. A number that has been
added can be taken away again (`add_sub_cancel_number`) and moves from one side of a comparison to
the other (`le_sub_number_iff`), whatever the other weights are.
-/

namespace PairedMarkov

/-- The numbers of a ring with a weight below and a weight above all of them. -/
inductive Exact (R : Type) where
  /-- Below every number. -/
  | below
  /-- A number. -/
  | number (value : R)
  /-- Above every number. -/
  | above
  deriving DecidableEq

namespace Exact

variable {R : Type}

/-- A weight that is a number. -/
def IsNumber (w : Exact R) : Prop := ∃ a, w = number a

instance (w : Exact R) : Decidable w.IsNumber :=
  match w with
  | below => isFalse fun ⟨_, h⟩ => by cases h
  | number a => isTrue ⟨a, rfl⟩
  | above => isFalse fun ⟨_, h⟩ => by cases h

theorem IsNumber.ne_below {w : Exact R} (h : w.IsNumber) : w ≠ below := by
  obtain ⟨a, rfl⟩ := h
  exact fun h => by cases h

theorem number_injective : Function.Injective (number : R → Exact R) := fun _ _ h => by
  injection h

/-! ## Section 1: Sums and differences -/

section Sums

variable [Ring R]

/-- The sum; the weight below absorbs every other one, the weight above the numbers. -/
def add : Exact R → Exact R → Exact R
  | below, _ => below
  | _, below => below
  | number a, number b => number (a + b)
  | _, _ => above

/-- The weight with the other sign. -/
def neg : Exact R → Exact R
  | below => above
  | number a => number (-a)
  | above => below

instance : Add (Exact R) := ⟨add⟩

instance : Sub (Exact R) := ⟨fun a b => add a (neg b)⟩

instance : Zero (Exact R) := ⟨number 0⟩

instance : AddCommMonoid (Exact R) where
  add_assoc a b c := by
    show add (add a b) c = add a (add b c)
    cases a <;> cases b <;> cases c <;> simp [add, add_assoc]
  zero_add a := by
    show add (number 0) a = a
    cases a <;> simp [add]
  add_zero a := by
    show add a (number 0) = a
    cases a <;> simp [add]
  add_comm a b := by
    show add a b = add b a
    cases a <;> cases b <;> simp [add, add_comm]
  nsmul := nsmulRec

theorem isNumber_zero : IsNumber (0 : Exact R) := ⟨0, rfl⟩

theorem IsNumber.add {v w : Exact R} (hv : v.IsNumber) (hw : w.IsNumber) : (v + w).IsNumber := by
  obtain ⟨a, rfl⟩ := hv
  obtain ⟨b, rfl⟩ := hw
  exact ⟨a + b, rfl⟩

theorem isNumber_sum {l : List (Exact R)} (h : ∀ w ∈ l, w.IsNumber) : l.sum.IsNumber := by
  induction l with
  | nil => exact isNumber_zero
  | cons w l ih =>
    rw [List.sum_cons]
    exact (h w List.mem_cons_self).add (ih fun v hv => h v (List.mem_cons_of_mem w hv))

/-- A number that has been added can be taken away again. -/
theorem add_sub_cancel_number (v : Exact R) {w : Exact R} (hw : w.IsNumber) : v + w - w = v := by
  obtain ⟨a, rfl⟩ := hw
  show Exact.add (Exact.add v (number a)) (number (-a)) = v
  cases v <;> simp [Exact.add]

theorem sub_add_cancel_number (v : Exact R) {w : Exact R} (hw : w.IsNumber) : v - w + w = v := by
  obtain ⟨a, rfl⟩ := hw
  show Exact.add (Exact.add v (number (-a))) (number a) = v
  cases v <;> simp [Exact.add]

theorem IsNumber.sub {v w : Exact R} (hv : v.IsNumber) (hw : w.IsNumber) : (v - w).IsNumber := by
  obtain ⟨a, rfl⟩ := hv
  obtain ⟨b, rfl⟩ := hw
  exact ⟨a + -b, rfl⟩

end Sums

/-! ## Section 2: Order -/

variable [Ring R] [LinearOrder R]

/-- The order: the numbers in their own order, between the other two weights. -/
def le : Exact R → Exact R → Prop
  | below, _ => True
  | number a, number b => a ≤ b
  | _, above => True
  | _, _ => False

instance decidableLE (a b : Exact R) : Decidable (le a b) :=
  match a, b with
  | below, _ => isTrue trivial
  | number a, number b => inferInstanceAs (Decidable (a ≤ b))
  | number _, above => isTrue trivial
  | number _, below => isFalse id
  | above, above => isTrue trivial
  | above, number _ => isFalse id
  | above, below => isFalse id

instance : LinearOrder (Exact R) where
  le := le
  le_refl a := by cases a <;> simp [le]
  le_trans a b c hab hbc := by
    cases a <;> cases b <;> cases c <;> simp_all [le]
    exact hab.trans hbc
  le_antisymm a b hab hba := by
    cases a <;> cases b <;> simp_all [le]
    exact le_antisymm hab hba
  le_total a b := by
    cases a <;> cases b <;> simp [le]
    exact le_total _ _
  toDecidableLE := decidableLE

instance : Weight (Exact R) where
  neg := neg
  one := number 1
  decLE := inferInstance
  decLT := inferInstance
  emptySum := 0
  lowest := below
  sortsBefore a b := decide (a ≤ b)

/-- Exact weights are in a linear order, and sorted by it. -/
theorem orderedOn : Weight.OrderedOn (Exact R) fun _ => True where
  le_refl _ := le_rfl
  le_of_lt := fun {_ _} h => h.le
  le_of_not_lt := fun {_ _} _ _ h => le_of_not_gt h
  lt_of_le_of_lt := fun {_ _ _} h h' => h.trans_lt h'
  le_of_sortsBefore := fun {_ _} _ _ h => of_decide_eq_true h
  sortsBefore_trans := fun {_ _ _} h h' =>
    decide_eq_true ((of_decide_eq_true h).trans (of_decide_eq_true h'))
  sortsBefore_total a b := by simpa [Weight.sortsBefore] using le_total a b

theorem below_le (w : Exact R) : below ≤ w := trivial

theorem IsNumber.below_lt {w : Exact R} (hw : w.IsNumber) : below < w :=
  lt_of_le_of_ne (below_le w) hw.ne_below.symm

/-- Steps up lead up. -/
theorem le_of_steps {v w : Exact R} (h : Relation.ReflTransGen (· < ·) v w) : v ≤ w := by
  induction h with
  | refl => exact le_rfl
  | tail _ hlt ih => exact ih.trans hlt.le

variable [IsStrictOrderedRing R]

instance : IsOrderedAddMonoid (Exact R) where
  add_le_add_left a b h c := by
    have h : le a b := h
    show le (add a c) (add b c)
    cases a <;> cases b <;> cases c <;> simp_all [le, add]

/-- A number moves from one side of a comparison to the other. -/
theorem le_sub_number_iff {u v w : Exact R} (hw : w.IsNumber) : u ≤ v - w ↔ u + w ≤ v := by
  obtain ⟨a, rfl⟩ := hw
  show le u (add v (number (-a))) ↔ le (add u (number a)) v
  cases u <;> cases v <;> simp [le, add, le_sub_iff_add_le, ← sub_eq_add_neg]

/-- A number that stands on both sides of a comparison can be left out. -/
theorem le_of_number_add_le_add {u v w : Exact R} (hw : w.IsNumber) (h : w + u ≤ w + v) : u ≤ v := by
  rw [add_comm w u, ← le_sub_number_iff hw, add_comm w v, add_sub_cancel_number v hw] at h
  exact h

theorem sub_number_lt_iff {u v w : Exact R} (hw : w.IsNumber) : v - w < u ↔ v < u + w := by
  rw [lt_iff_not_ge, lt_iff_not_ge, le_sub_number_iff hw]

end Exact

end PairedMarkov
