import PairedMarkov.LogWeight
import PairedMarkov.Proofs.Search.InPlace

/-!
# Merging enumerates joint values

Merging some factors of a network over a scope goes through the addresses of the scope, and at each of
them scores the factors under the assignment that has there the joint value with this address. What
this joint value is can be said without any of the functions that work on addresses: the digit of a
variable is the quotient of the address by the number of joint values of the variables before it, taken
modulo the size of its own domain.

An assignment with given digits and with given values everywhere else is the only one of its kind. So
a merged table says all that there is to say about the factors as long as the variables outside of the
scope stay as they are.

Main statements:
- `Scope.atAddress_write` and `Scope.AtAddress.unique`: there is one assignment at each address;
- `Network.aggregate_enumerates`: merging never fails if there is room for the table, has for each
  address the partial score of the factors there, and leaves the assignment as it was.
-/

namespace PairedMarkov

/-! ## Section 1: The assignment at an address -/

namespace Scope

variable {domains : Domains} {scope : Scope} {x y z : Assignment} {address : ℕ}

/-- An assignment that gives each variable of a scope its digit of an address, and every other variable
the value that it has in `x`. -/
structure AtAddress (domains : Domains) (scope : Scope) (address : ℕ) (x y : Assignment) : Prop where
  inside : y.Inside domains
  digit : ∀ i v, scope[i]? = some v →
    y.valueAt v = address / capacity domains (scope.take i) % domains.sizeAt v
  frame : ∀ v, v ∉ scope → y.valueAt v = x.valueAt v

/-- What is written for a variable is its digit. -/
theorem valueAt_write_getElem? (hx : x.Inside domains) (hrange : scope.InRange domains)
    (hnodup : scope.Nodup) {i v : ℕ} (hv : scope[i]? = some v) :
    (scope.write domains address x).valueAt v =
      address / capacity domains (scope.take i) % domains.sizeAt v := by
  -- the variables before `v` take their digits off the address, those behind it do not touch it
  induction scope generalizing i address x with
  | nil => simp at hv
  | cons id scope ih =>
    obtain ⟨hid, hrange⟩ := inRange_cons.1 hrange
    obtain ⟨hfresh, hnodup⟩ := List.nodup_cons.1 hnodup
    have hfirst : (x.with id (address % domains.sizeAt id)).Inside domains :=
      hx.with (Nat.mod_lt _ (hx.positive.sizeAt_pos id))
    rw [write]
    cases i with
    | zero =>
      obtain rfl : id = v := by simpa using hv
      rw [valueAt_write_of_notMem hrange hfirst.size_eq hfresh,
        Assignment.valueAt_with (hx.size_eq ▸ hid), if_pos rfl]
      simp [capacity]
    | succ i =>
      have hv : scope[i]? = some v := by simpa using hv
      rw [ih hfirst hrange hnodup hv, List.take_succ_cons, capacity_cons, Nat.div_div_eq_div_mul]

theorem atAddress_write (hx : x.Inside domains) (hrange : scope.InRange domains)
    (hnodup : scope.Nodup) (address : ℕ) :
    scope.AtAddress domains address x (scope.write domains address x) where
  inside := inside_write hx scope address
  digit _ _ hv := valueAt_write_getElem? hx hrange hnodup hv
  frame _ hv := valueAt_write_of_notMem hrange hx.size_eq hv address

/-- There is no other assignment with these digits. -/
theorem AtAddress.unique (hy : scope.AtAddress domains address x y)
    (hz : scope.AtAddress domains address x z) : y = z := by
  apply Assignment.ext_valueAt (hy.inside.size_eq.trans hz.inside.size_eq.symm)
  intro v _
  by_cases hv : v ∈ scope
  · obtain ⟨i, hi⟩ := List.getElem?_of_mem hv
    rw [hy.digit i v hi, hz.digit i v hi]
  · rw [hy.frame v hv, hz.frame v hv]

end Scope

/-! ## Section 2: Merging the factors of a network -/

namespace Network

variable {W : Type} [Weight W]

/-- **Merging enumerates joint values**: if the table has a place in memory, then merging factors over a
scope succeeds and leaves the assignment as it was, also when it is carried out on the assignment
itself. The table has one entry for each joint value, which is the partial score of the factors under
the only assignment at its address. -/
theorem aggregate_enumerates {n : Network W} {domains : Domains} {x : Assignment} {ids : List ℕ}
    {scope : Scope} (hn : ∀ f ∈ n.factors, f.Valid domains) (hx : x.Inside domains)
    (hids : ∀ id ∈ ids, id < n.factors.size) (hscope : scope.InRange domains) (hnodup : scope.Nodup)
    (hroom : Factor.entryBytes * scope.capacity domains < memoryLimit) :
    ∃ merged, n.aggregate domains x ids scope = .ok merged ∧
      n.aggregateInPlace domains x ids scope = .ok (merged, x) ∧
      merged.scope = scope ∧ merged.table.size = scope.capacity domains ∧
      ∀ address < scope.capacity domains, (∃ y, scope.AtAddress domains address x y) ∧
        ∀ y, scope.AtAddress domains address x y →
          ∃ w, n.partialScore domains y ids = .ok w ∧ merged.valueAt address = .ok w := by
  have hp : (n.alone domains).Tabulated := (valid_alone hx.positive hn).tabulated
  have hids : ∀ id ∈ ids, id < ((n.alone domains).network .constraint).factors.size := hids
  have hmerged : (n.alone domains).aggregate .constraint x ids scope =
      .ok ((n.alone domains).merged .constraint ids x scope) :=
    (Problem.aggregate_eq_ok_iff hp hx hids hscope).2 ⟨hroom, rfl⟩
  refine ⟨(n.alone domains).merged .constraint ids x scope, hmerged, ?_, rfl,
    Problem.size_merged .., ?_⟩
  · -- on the assignment itself, the saved values come back in the end
    have hinPlace := Problem.aggregateInPlace_eq hp hx hids hscope hnodup
    rw [hmerged] at hinPlace
    exact hinPlace
  · intro address haddress
    have hwrite := Scope.atAddress_write hx hscope hnodup address
    have hscore := Problem.partialScore_eq_ok hp hwrite.inside hids
    refine ⟨⟨_, hwrite⟩, fun y hy => ?_⟩
    obtain rfl := hy.unique hwrite
    refine ⟨_, hscore, ?_⟩
    apply fetch_eq_ok_iff.2
    simp [Problem.merged, alone, haddress]

/-- Two factors, one of them taken twice, over the variables of the first factor in the other order;
the third variable stays at its value. -/
theorem aggregate_enumerates_twice :
    let domains : Domains := #[2, 3, 2]
    let x : Assignment := #[1, 2, 1]
    let w := LogWeight.ofFloat
    let f : Factor LogWeight := ⟨[0, 1], #[w 0.5, w 1, w 1.5, w 2, w 2.5, w 3]⟩
    let g : Factor LogWeight := ⟨[2, 0], #[w 0.25, w 0.5, w 0.75, w 1]⟩
    ∃ merged, (⟨#[f, g]⟩ : Network LogWeight).aggregate domains x [1, 0, 1] [1, 0] = .ok merged ∧
      (⟨#[f, g]⟩ : Network LogWeight).aggregateInPlace domains x [1, 0, 1] [1, 0] = .ok (merged, x) ∧
      merged.table.size = 6 ∧ ∀ address < 6, ∀ y, Scope.AtAddress domains [1, 0] address x y →
        ∃ sum, (⟨#[f, g]⟩ : Network LogWeight).partialScore domains y [1, 0, 1] = .ok sum ∧
          merged.valueAt address = .ok sum := by
  intro domains x w f g
  have hn : ∀ h ∈ (⟨#[f, g]⟩ : Network LogWeight).factors, h.Valid domains := by decide
  have hx : x.Inside domains := Assignment.inside_iff.2 (by decide)
  have hids : ∀ id ∈ [1, 0, 1], id < (⟨#[f, g]⟩ : Network LogWeight).factors.size := by decide
  have hscope : Scope.InRange domains [1, 0] := by decide
  obtain ⟨merged, hmerged, hinPlace, -, hsize, hentry⟩ :=
    aggregate_enumerates hn hx hids hscope (by decide) (by decide)
  exact ⟨merged, hmerged, hinPlace, hsize, fun address haddress => (hentry address haddress).2⟩

end Network

end PairedMarkov
