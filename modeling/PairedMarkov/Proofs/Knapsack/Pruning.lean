import PairedMarkov.Proofs.Exact
import PairedMarkov.Proofs.Weight
import PairedMarkov.Knapsack.Solver

/-!
# What pruning keeps

Pruning sorts a bin by cost and sweeps over it in place. During the sweep the array has three parts:
the items that are kept, those that have been dropped, and those that are still to come. The swaps
mix up only the dropped ones, so in the end the kept items stand in front in their order, as if they
had been taken from the list one after the other.

So a pruned bin offers nothing new, and its first item is a cheapest one of the whole bin. What is
dropped is dominated by something that is kept.

Main statements:
- `Item.prune_eq`: pruning in place is taking the climbing items from the sorted list;
- `Item.mem_of_mem_prune`, `Item.exists_prune_eq_cons`: pruning drops items, but not the cheapest;
- `Item.exists_mem_prune`: for each item it keeps one that dominates it;
- `Item.mem_offer_iff`: the items that are offered, by their positions;
- `Knapsack.ofBins_eq_ok_iff`: a knapsack has a pruned bin for each bin, none of which is empty.
-/

namespace PairedMarkov

namespace Item

variable {W : Type}

/-! ## Section 1: Offers -/

private theorem mem_offerFrom_iff {first : Nat} {costs profits : List W} {item : Item W} :
    item ∈ offerFrom first costs profits ↔
      ∃ i, item.position = first + i ∧ costs[i]? = some item.cost ∧
        profits[i]? = some item.profit := by
  induction costs generalizing first profits with
  | nil => simp [offerFrom]
  | cons cost costs ih =>
    cases profits with
    | nil => simp [offerFrom]
    | cons profit profits =>
      rw [offerFrom, List.mem_cons, ih]
      constructor
      · rintro (rfl | ⟨i, hposition, hcost, hprofit⟩)
        · exact ⟨0, rfl, rfl, rfl⟩
        · exact ⟨i + 1, by omega, hcost, hprofit⟩
      · rintro ⟨i, hposition, hcost, hprofit⟩
        cases i with
        | zero =>
          obtain ⟨c, q, position⟩ := item
          simp_all
        | succ i => exact Or.inr ⟨i, by omega, hcost, hprofit⟩

/-- An item is offered at its position, with the cost and the profit there. -/
theorem mem_offer_iff {costs profits : List W} {item : Item W} :
    item ∈ offer costs profits ↔
      costs[item.position]? = some item.cost ∧ profits[item.position]? = some item.profit := by
  rw [offer, mem_offerFrom_iff]
  constructor
  · rintro ⟨i, hposition, h⟩
    rw [hposition, Nat.zero_add]
    exact h
  · intro h
    exact ⟨item.position, (Nat.zero_add _).symm, h⟩

/-! ## Section 2: The sweep -/

section Sweeps

variable [Weight W] {items : List (Item W)} {item : Item W}

/-- The items of a list whose profits are above `best` and above those of the items kept before. -/
def climbing (best : W) : List (Item W) → List (Item W)
  | [] => []
  | item :: rest =>
    if best < item.profit then item :: climbing item.profit rest else climbing best rest

omit [Weight W] in
/-- An item that changes places with the first dropped one comes behind the kept ones. -/
private theorem exists_swap_eq (kept dropped rest : List (Item W)) (item : Item W) :
    ∃ dropped', dropped'.length = dropped.length ∧
      (kept ++ dropped ++ item :: rest).toArray.swapIfInBounds kept.length
        (kept.length + dropped.length) = (kept ++ [item] ++ dropped' ++ rest).toArray := by
  cases dropped with
  | nil =>
    -- nothing has been dropped, so that the item stays where it is
    refine ⟨[], rfl, ?_⟩
    apply Array.ext'
    simp [Array.swapIfInBounds]
  | cons first dropped =>
    refine ⟨dropped ++ [first], by simp, ?_⟩
    apply Array.ext'
    simp [Array.swapIfInBounds, Array.swap]

/-- **The sweep** keeps the climbing items among those that are still to come. -/
private theorem take_foldl_step (kept dropped rest : List (Item W)) (best : W) :
    let swept := (List.range' (kept.length + dropped.length) rest.length).foldl Sweep.step
      ⟨(kept ++ dropped ++ rest).toArray, kept.length, best⟩
    (swept.items.take swept.kept).toList = kept ++ climbing best rest := by
  -- on the items to come; the dropped ones are mixed up, but none of them gets lost
  induction rest generalizing kept dropped best with
  | nil => simp [climbing]
  | cons item rest ih =>
    have hitem : (kept ++ dropped ++ item :: rest).toArray[kept.length + dropped.length]? =
        some item := by simp
    rw [List.length_cons, List.range'_succ, List.foldl_cons, Sweep.step, climbing]
    simp only [hitem]
    split
    · obtain ⟨dropped', hlength, hswap⟩ := exists_swap_eq kept dropped rest item
      have hnext := ih (kept ++ [item]) dropped' item.profit
      rw [hswap]
      simpa [hlength, Nat.add_right_comm] using hnext
    · have hnext := ih kept (dropped ++ [item]) best
      simpa [Nat.add_assoc] using hnext

/-- **Pruning in place** takes the climbing items from the sorted list. -/
theorem prune_eq (items : List (Item W)) :
    prune items = match sortByCost items with
      | [] => []
      | first :: rest => first :: climbing first.profit rest := by
  unfold prune
  cases sortByCost items with
  | nil => rfl
  | cons first rest => exact take_foldl_step [first] [] rest first.profit

theorem climbing_sublist (best : W) (items : List (Item W)) : (climbing best items).Sublist items := by
  induction items generalizing best with
  | nil => exact List.Sublist.refl []
  | cons item items ih =>
    rw [climbing]
    split
    · exact (ih _).cons_cons item
    · exact (ih _).cons item

theorem prune_sublist (items : List (Item W)) : (prune items).Sublist (sortByCost items) := by
  rw [prune_eq]
  cases sortByCost items with
  | nil => exact List.Sublist.refl []
  | cons item rest => exact (climbing_sublist _ _).cons_cons item

theorem sortByCost_perm (items : List (Item W)) : (sortByCost items).Perm items :=
  List.mergeSort_perm ..

/-- Pruning adds nothing. -/
theorem mem_of_mem_prune (h : item ∈ prune items) : item ∈ items :=
  (sortByCost_perm items).mem_iff.1 ((prune_sublist items).mem h)

/-- The first item of a sorted bin is kept. -/
theorem head?_prune (items : List (Item W)) : (prune items).head? = (sortByCost items).head? := by
  rw [prune_eq]
  cases sortByCost items with
  | nil => rfl
  | cons first rest => rfl

theorem prune_ne_nil (h : items ≠ []) : prune items ≠ [] := by
  have hsorted : sortByCost items ≠ [] := fun hnil => by
    have hperm := sortByCost_perm items
    rw [hnil] at hperm
    exact h hperm.nil_eq.symm
  intro hnil
  have hhead := head?_prune items
  rw [hnil] at hhead
  exact hsorted (List.head?_eq_none_iff.1 hhead.symm)

end Sweeps

/-! ## Section 3: Domination -/

section Domination

variable [Weight W] {proper : W → Prop} {items : List (Item W)} {item : Item W}

/-- Items whose costs and profits can be compared. -/
def Proper (proper : W → Prop) (items : List (Item W)) : Prop :=
  ∀ item ∈ items, proper item.cost ∧ proper item.profit

omit [Weight W] in
theorem proper_true (items : List (Item W)) : Proper (fun _ => True) items :=
  fun _ _ => ⟨trivial, trivial⟩

omit [Weight W] in
theorem Proper.tail (h : Proper proper (item :: items)) : Proper proper items :=
  fun other hother => h other (List.mem_cons_of_mem item hother)

theorem Proper.sortByCost (h : Proper proper items) : Proper proper (sortByCost items) :=
  fun other hother => h other ((sortByCost_perm items).mem_iff.1 hother)

variable (hW : Weight.OrderedOn W proper) (hitems : Proper proper items)

include hW hitems

theorem sortByCost_sorted : (sortByCost items).Pairwise fun a b => a.cost ≤ b.cost := by
  have htrans : ∀ a b c : Item W, Weight.sortsBefore a.cost b.cost = true →
      Weight.sortsBefore b.cost c.cost = true → Weight.sortsBefore a.cost c.cost = true :=
    fun _ _ _ => hW.sortsBefore_trans
  have htotal : ∀ a b : Item W,
      (Weight.sortsBefore a.cost b.cost || Weight.sortsBefore b.cost a.cost) = true :=
    fun a b => hW.sortsBefore_total a.cost b.cost
  have hsorted : (sortByCost items).Pairwise fun a b => Weight.sortsBefore a.cost b.cost = true :=
    List.pairwise_mergeSort htrans htotal items
  refine hsorted.imp_of_mem fun {a b} ha hb hab => ?_
  rw [(sortByCost_perm items).mem_iff] at ha hb
  exact hW.le_of_sortsBefore (hitems a ha).1 (hitems b hb).1 hab

/-- **Pruning** begins with a cheapest item. -/
theorem exists_prune_eq_cons (h : items ≠ []) :
    ∃ item rest, prune items = item :: rest ∧ item ∈ items ∧
      ∀ other ∈ items, item.cost ≤ other.cost := by
  have hsorted := sortByCost_sorted hW hitems
  have hhead := head?_prune items
  cases hprune : prune items with
  | nil => exact absurd hprune (prune_ne_nil h)
  | cons item rest =>
    have hitem : item ∈ items := mem_of_mem_prune (hprune ▸ List.mem_cons_self)
    refine ⟨item, rest, rfl, hitem, fun other hother => ?_⟩
    rw [hprune, List.head?_cons] at hhead
    obtain ⟨_, hcons⟩ := List.head?_eq_some_iff.1 hhead.symm
    rw [← (sortByCost_perm items).mem_iff, hcons] at hother
    rw [hcons] at hsorted
    -- it is the first one in the order of costs
    rcases List.mem_cons.1 hother with rfl | hother
    · exact hW.le_refl (hitems _ hitem).1
    · exact (List.pairwise_cons.1 hsorted).1 other hother

/-- Each of some sorted items brings no more than the best profit so far, or is dominated by one that
is kept. -/
private theorem exists_mem_climbing {best : W} (hbest : proper best)
    (hsorted : items.Pairwise fun a b => a.cost ≤ b.cost) (h : item ∈ items) :
    item.profit ≤ best ∨
      ∃ kept ∈ climbing best items, kept.cost ≤ item.cost ∧ item.profit ≤ kept.profit := by
  -- each item that is kept raises the best profit so far, and what it covers needs nothing else
  induction items generalizing best with
  | nil => cases h
  | cons first rest ih =>
    obtain ⟨hfirst, hrest⟩ := List.pairwise_cons.1 hsorted
    have hproper := hitems first List.mem_cons_self
    rw [climbing]
    split
    · -- the first item is kept, and takes over what is not above its profit
      right
      rcases List.mem_cons.1 h with rfl | h
      · exact ⟨_, List.mem_cons_self, hW.le_refl hproper.1, hW.le_refl hproper.2⟩
      · rcases ih hitems.tail hproper.2 hrest h with hprofit | ⟨kept, hkept, hdominates⟩
        · exact ⟨first, List.mem_cons_self, hfirst item h, hprofit⟩
        · exact ⟨kept, List.mem_cons_of_mem _ hkept, hdominates⟩
    · -- the first item goes, as it brings no more than the best so far
      rename_i hlow
      rcases List.mem_cons.1 h with rfl | h
      · exact .inl (hW.le_of_not_lt hbest hproper.2 hlow)
      · exact ih hitems.tail hbest hrest h

/-- **Pruning** keeps an item that dominates a given one. -/
theorem exists_mem_prune (h : item ∈ items) :
    ∃ kept ∈ prune items, kept.cost ≤ item.cost ∧ item.profit ≤ kept.profit := by
  have hsorted := sortByCost_sorted hW hitems
  have hproper := hitems.sortByCost
  rw [← (sortByCost_perm items).mem_iff] at h
  rw [prune_eq]
  cases hcons : sortByCost items with
  | nil => simp [hcons] at h
  | cons first rest =>
    rw [hcons] at h hsorted hproper
    obtain ⟨hfirst, hrest⟩ := List.pairwise_cons.1 hsorted
    have hself := hproper first List.mem_cons_self
    rcases List.mem_cons.1 h with rfl | h
    · exact ⟨_, List.mem_cons_self, hW.le_refl hself.1, hW.le_refl hself.2⟩
    · rcases exists_mem_climbing hW hproper.tail hself.2 hrest h with hprofit | ⟨kept, hkept, hdominates⟩
      · exact ⟨first, List.mem_cons_self, hfirst item h, hprofit⟩
      · exact ⟨kept, List.mem_cons_of_mem _ hkept, hdominates⟩

end Domination

end Item

/-! ## Section 4: Knapsacks -/

namespace Knapsack

variable {W : Type} [Weight W]

private theorem pruneFrom_eq_ok_iff {first : Nat} {bins : List (List (Item W))}
    {pruned : List (Array (Item W))} :
    pruneFrom first bins = .ok pruned ↔
      (∀ items ∈ bins, items ≠ []) ∧ pruned = bins.map fun items => (Item.prune items).toArray := by
  induction bins generalizing first pruned with
  | nil => simp [pruneFrom, eq_comm]
  | cons items bins ih =>
    rw [pruneFrom, List.forall_mem_cons]
    cases items with
    | nil => simp
    | cons item items =>
      rw [if_neg (by simp)]
      simp only [bind_eq_ok_iff, pure_eq_ok_iff, ih]
      constructor
      · rintro ⟨_, ⟨hbins, rfl⟩, rfl⟩
        exact ⟨⟨by simp, hbins⟩, rfl⟩
      · rintro ⟨⟨-, hbins⟩, rfl⟩
        exact ⟨_, ⟨hbins, rfl⟩, rfl⟩

/-- A knapsack has one pruned bin for each bin, and needs an item in each. -/
theorem ofBins_eq_ok_iff {bins : List (List (Item W))} {k : Knapsack W} :
    ofBins bins = .ok k ↔
      (∀ items ∈ bins, items ≠ []) ∧
        k = ⟨(bins.map fun items => (Item.prune items).toArray).toArray⟩ := by
  simp only [ofBins, bind_eq_ok_iff, pure_eq_ok_iff, pruneFrom_eq_ok_iff]
  constructor
  · rintro ⟨_, ⟨hbins, rfl⟩, rfl⟩
    exact ⟨hbins, rfl⟩
  · rintro ⟨hbins, rfl⟩
    exact ⟨_, ⟨hbins, rfl⟩, rfl⟩

end Knapsack

end PairedMarkov
