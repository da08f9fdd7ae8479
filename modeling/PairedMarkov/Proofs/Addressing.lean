import PairedMarkov.Proofs.Checked
import PairedMarkov.Scope

/-!
# Addresses without checks

The functions on addresses check every index and every product. Here stands what they compute when
no check fails: the capacity of a scope, which is the product of its domain sizes, the index of the
joint value that an assignment gives to a scope, and the assignment with the joint value at an index
written into it.

Main statements:
- `Scope.size_eq_ok_iff`: counting succeeds exactly for variables in range with a capacity that is a
  word, and gives the capacity;
- `Scope.address_eq_ok`, `Scope.assign_eq_ok`, `Scope.digit_index`: addressing, assigning and reading
  a digit compute the index, the written assignment and the value of the variable;
- `Scope.index_write` and `Scope.valueAt_write_index`: writing and indexing are inverse to each other;
- `Scope.numbered`: the functions on addresses never fail and use one and the same numbering.
-/

namespace PairedMarkov

/-! ## Section 1: Sizes and values -/

/-- The number of values of a variable, one for a number that is no variable. -/
def Domains.sizeAt (domains : Domains) (id : Nat) : Nat := domains.getD id 1

/-- Every variable has a value. -/
def Domains.Positive (domains : Domains) : Prop := ∀ size ∈ domains, 0 < size

/-- The value of a variable, zero for a number that is no variable. -/
def Assignment.valueAt (x : Assignment) (id : Nat) : Nat := x.getD id 0

variable {domains : Domains} {x y : Assignment} {id : Nat}

theorem Domains.fetch_eq_ok (h : id < domains.size) : fetch domains id = .ok (domains.sizeAt id) := by
  simp [fetch_of_lt h, sizeAt, h]

theorem Domains.fetch_eq_ok_iff {size : Nat} :
    fetch domains id = .ok size ↔ id < domains.size ∧ size = domains.sizeAt id := by
  rcases Nat.lt_or_ge id domains.size with h | h
  · rw [fetch_eq_ok h, Except.ok.injEq]
    exact ⟨fun hs => ⟨h, hs.symm⟩, fun hs => hs.2.symm⟩
  · simp [fetch_of_le h, Nat.not_lt_of_le h]

theorem Domains.Positive.sizeAt_pos (hd : domains.Positive) (id : Nat) : 0 < domains.sizeAt id := by
  unfold sizeAt
  rcases Nat.lt_or_ge id domains.size with h | h
  · simpa [h] using hd domains[id] (Array.getElem_mem h)
  · simp [Nat.not_lt_of_le h]

theorem Assignment.fetch_eq_ok (h : id < x.size) : fetch x id = .ok (x.valueAt id) := by
  simp [fetch_of_lt h, valueAt, h]

theorem Assignment.inside_iff :
    x.Inside domains ↔
      x.size = domains.size ∧ ∀ id < domains.size, x.valueAt id < domains.sizeAt id := by
  unfold Inside
  refine and_congr_right fun hsize => ?_
  constructor
  · intro h id hid
    simpa [valueAt, Domains.sizeAt, hid, hsize] using h id (hsize ▸ hid) hid
  · intro h id hid hid'
    simpa [valueAt, Domains.sizeAt, hid, hid'] using h id hid'

theorem Assignment.Inside.size_eq (hx : x.Inside domains) : x.size = domains.size := hx.1

theorem Assignment.Inside.valueAt_lt (hx : x.Inside domains) (id : Nat) :
    x.valueAt id < domains.sizeAt id := by
  rcases Nat.lt_or_ge id domains.size with h | h
  · exact (inside_iff.1 hx).2 id h
  · have hx : ¬ id < x.size := by
      rw [hx.size_eq]
      exact Nat.not_lt_of_le h
    simp [valueAt, Domains.sizeAt, hx, Nat.not_lt_of_le h]

theorem Assignment.Inside.positive (hx : x.Inside domains) : domains.Positive := by
  intro size hsize
  obtain ⟨id, hid, rfl⟩ := Array.mem_iff_getElem.1 hsize
  exact Nat.zero_lt_of_lt (hx.2 id (hx.1 ▸ hid) hid)

theorem Assignment.inside_first (hd : domains.Positive) : (first domains).Inside domains := by
  refine inside_iff.2 ⟨by simp [first], fun id hid => ?_⟩
  simpa [first, valueAt, hid] using hd.sizeAt_pos id

/-- Assignments over the same variables are equal if all their values are. -/
theorem Assignment.ext_valueAt (hsize : x.size = y.size)
    (h : ∀ id < x.size, x.valueAt id = y.valueAt id) : x = y := by
  refine Array.ext hsize fun id hx hy => ?_
  simpa [valueAt, hx, hy] using h id hx

/-- The assignment with another value of a variable. -/
def Assignment.with (x : Assignment) (id value : Nat) : Assignment := x.setIfInBounds id value

theorem Assignment.set_eq_ok {value : Nat} (hid : id < domains.size)
    (hv : value < domains.sizeAt id) : x.set domains id value = .ok (x.with id value) := by
  rw [set, Domains.fetch_eq_ok hid, ok_bind, if_pos hv]
  rfl

theorem Assignment.size_with (x : Assignment) (id value : Nat) : (x.with id value).size = x.size :=
  Array.size_setIfInBounds

theorem Assignment.valueAt_with (hid : id < x.size) (value other : Nat) :
    (x.with id value).valueAt other = if other = id then value else x.valueAt other := by
  unfold valueAt Assignment.with
  simp only [Array.getD_eq_getD_getElem?, Array.getElem?_setIfInBounds, eq_comm (a := id)]
  split
  · rfl
  · rfl

/-- Of two values that a variable is given, the second one stays. -/
theorem Assignment.with_with (x : Assignment) (id value other : Nat) :
    (x.with id value).with id other = x.with id other :=
  Array.setIfInBounds_setIfInBounds ..

/-- A variable that is given its own value keeps it. -/
theorem Assignment.with_valueAt (x : Assignment) (id : Nat) : x.with id (x.valueAt id) = x := by
  refine ext_valueAt (x.size_with id _) fun other hother => ?_
  by_cases hid : id < x.size
  · rw [valueAt_with hid]
    split
    · rename_i heq
      rw [heq]
    · rfl
  · rw [Assignment.with, Array.setIfInBounds_eq_of_size_le (Nat.le_of_not_lt hid)]

theorem Assignment.Inside.with {value : Nat} (hx : x.Inside domains)
    (hv : value < domains.sizeAt id) : (x.with id value).Inside domains := by
  rw [inside_iff, size_with]
  refine ⟨hx.size_eq, fun other hother => ?_⟩
  by_cases hid : id < x.size
  · rw [valueAt_with hid]
    split
    · rename_i h
      exact h ▸ hv
    · exact hx.valueAt_lt other
  · rw [Assignment.with, Array.setIfInBounds_eq_of_size_le (Nat.le_of_not_lt hid)]
    exact hx.valueAt_lt other

/-- A variable is only ever given a value of its domain. -/
theorem Assignment.Inside.of_set {value : Nat} (hx : x.Inside domains)
    (h : x.set domains id value = .ok y) : y.Inside domains := by
  obtain ⟨size, hsize, h⟩ := bind_eq_ok_iff.1 h
  obtain ⟨-, rfl⟩ := Domains.fetch_eq_ok_iff.1 hsize
  split at h
  · rename_i hvalue
    exact Except.ok.inj h ▸ hx.with hvalue
  · cases h

/-- Giving values to variables from a number on leaves the variables below alone. -/
private theorem Assignment.exists_setFrom {values : List Nat} {first : Nat} (hy : y.size = domains.size)
    (hfirst : first + values.length ≤ domains.size)
    (hvalues : ∀ i (hi : i < values.length), values[i] < domains.sizeAt (first + i)) :
    ∃ z, setFrom domains first values y = .ok z ∧ z.size = y.size ∧
      (∀ id < first, z.valueAt id = y.valueAt id) ∧
      ∀ i (hi : i < values.length), z.valueAt (first + i) = values[i] := by
  -- on the values that are left; each step moves the first variable that is not yet given
  induction values generalizing first y with
  | nil => exact ⟨y, rfl, rfl, fun _ _ => rfl, by simp⟩
  | cons value values ih =>
    rw [List.length_cons] at hfirst
    have hvalue : value < domains.sizeAt first := hvalues 0 (Nat.succ_pos _)
    have hrest : ∀ i (hi : i < values.length), values[i] < domains.sizeAt (first + 1 + i) := by
      intro i hi
      have := hvalues (i + 1) (Nat.succ_lt_succ hi)
      rwa [Nat.add_right_comm]
    have hlt : first < y.size := by omega
    obtain ⟨z, hz, hsize, hbelow, habove⟩ :=
      ih ((size_with y first value).trans hy) (by omega) hrest
    rw [setFrom, set_eq_ok (hy ▸ hlt) hvalue, ok_bind]
    refine ⟨z, hz, hsize.trans (size_with ..), fun id hid => ?_, fun i hi => ?_⟩
    · rw [hbelow id (Nat.lt_succ_of_lt hid), valueAt_with hlt, if_neg hid.ne]
    · -- the first value stays because the later ones go above it
      cases i with
      | zero =>
        rw [Nat.add_zero, hbelow first (Nat.lt_succ_self _), valueAt_with hlt, if_pos rfl]
        rfl
      | succ i =>
        have := habove i (Nat.lt_of_succ_lt_succ hi)
        rwa [Nat.add_right_comm] at this

/-- An assignment inside its domains is made of its own values. -/
theorem Assignment.ofValues_toList (hx : x.Inside domains) :
    ofValues domains x.toList = .ok x := by
  have hlength : x.toList.length = domains.size := by rw [Array.length_toList, hx.size_eq]
  have hsize : (first domains).size = domains.size := by simp [first]
  have hinside : ∀ i (hi : i < x.toList.length), x.toList[i] < domains.sizeAt (0 + i) := by
    intro i hi
    have hi : i < x.size := by simpa using hi
    have := hx.valueAt_lt i
    simpa [valueAt, hi] using this
  obtain ⟨z, hz, hzsize, -, hvalues⟩ := exists_setFrom hsize (by omega) hinside
  rw [ofValues, if_pos hlength, hz]
  have hzx : z.size = x.size := hzsize.trans (hsize.trans hx.size_eq.symm)
  refine congrArg Except.ok (ext_valueAt hzx fun id hid => ?_)
  rw [hzx] at hid
  have := hvalues id (by simpa using hid)
  rw [Nat.zero_add] at this
  simpa [valueAt, hid] using this

namespace Scope

variable {scope : Scope}

/-! ## Section 2: Counting joint values -/

/-- All variables of a scope exist. -/
def InRange (domains : Domains) (scope : Scope) : Prop := ∀ id ∈ scope, id < domains.size

instance : Decidable (InRange domains scope) :=
  inferInstanceAs (Decidable (∀ id ∈ scope, id < domains.size))

/-- The number of joint values of a scope. -/
def capacity (domains : Domains) (scope : Scope) : Nat := (scope.map domains.sizeAt).prod

theorem inRange_cons : InRange domains (id :: scope) ↔ id < domains.size ∧ InRange domains scope :=
  List.forall_mem_cons

@[simp]
theorem capacity_nil : capacity domains [] = 1 := rfl

theorem capacity_cons : capacity domains (id :: scope) = domains.sizeAt id * capacity domains scope :=
  List.prod_cons

theorem capacity_pos (hd : domains.Positive) (scope : Scope) : 0 < capacity domains scope := by
  induction scope with
  | nil => exact Nat.one_pos
  | cons id scope ih =>
    rw [capacity_cons]
    exact Nat.mul_pos (hd.sizeAt_pos id) ih

private theorem mulWords_eq_ok_iff {a b c : Nat} :
    mulWords a b = .ok c ↔ a * b < wordLimit ∧ c = a * b := by
  unfold mulWords
  split <;> simp_all [eq_comm]

/-- Counting from a product on; that the last product is a word makes all earlier ones words. -/
private theorem foldlM_mulWords_eq_ok_iff (hd : domains.Positive) (scope : Scope) {product n : Nat}
    (hp : product < wordLimit) :
    scope.foldlM (fun product id => do mulWords product (← fetch domains id)) product = .ok n ↔
      InRange domains scope ∧ product * capacity domains scope < wordLimit ∧
        n = product * capacity domains scope := by
  induction scope generalizing product with
  | nil => simp [InRange, hp, pure, Except.pure, eq_comm]
  | cons id scope ih =>
    simp only [List.foldlM_cons, bind_eq_ok_iff, Domains.fetch_eq_ok_iff, mulWords_eq_ok_iff,
      inRange_cons, capacity_cons, ← Nat.mul_assoc]
    constructor
    · -- every product on the way was checked, and so was the last one
      rintro ⟨_, ⟨_, ⟨hid, rfl⟩, hsmall, rfl⟩, h⟩
      obtain ⟨hrange, hlimit, hn⟩ := (ih hsmall).1 h
      exact ⟨⟨hid, hrange⟩, hlimit, hn⟩
    · -- no factor is zero, so that products only grow
      rintro ⟨⟨hid, hrange⟩, hlimit, hn⟩
      have hsmall : product * domains.sizeAt id < wordLimit :=
        Nat.lt_of_le_of_lt (Nat.le_mul_of_pos_right _ (capacity_pos hd scope)) hlimit
      exact ⟨_, ⟨_, ⟨hid, rfl⟩, hsmall, rfl⟩, (ih hsmall).2 ⟨hrange, hlimit, hn⟩⟩

/-- Counting succeeds exactly for variables in range whose capacity is a word. -/
theorem size_eq_ok_iff (hd : domains.Positive) {n : Nat} :
    scope.size domains = .ok n ↔
      scope.InRange domains ∧ scope.capacity domains < wordLimit ∧ n = scope.capacity domains := by
  simpa [size] using foldlM_mulWords_eq_ok_iff hd scope (by decide : 1 < wordLimit) (n := n)

/-! ## Section 3: Indices -/

/-- The index of the joint value that an assignment gives to a scope. -/
def index (domains : Domains) (x : Assignment) : Scope → Nat
  | [] => 0
  | id :: rest => x.valueAt id + domains.sizeAt id * index domains x rest

/-- A number below a place value, with one more digit in front. -/
private theorem add_place_lt {low place value size : Nat} (hlow : low < place)
    (hvalue : value < size) : low + place * value < place * size :=
  calc low + place * value
      < place + place * value := Nat.add_lt_add_right hlow _
    _ = place * (value + 1) := by rw [Nat.mul_add_one, Nat.add_comm]
    _ ≤ place * size := Nat.mul_le_mul_left _ hvalue

theorem index_lt (hx : x.Inside domains) (scope : Scope) :
    index domains x scope < capacity domains scope := by
  induction scope with
  | nil => exact Nat.one_pos
  | cons id scope ih =>
    rw [index, capacity_cons]
    exact add_place_lt (hx.valueAt_lt id) ih

/-- The index depends only on the values of the variables in the scope. -/
theorem index_congr (h : ∀ id ∈ scope, x.valueAt id = y.valueAt id) :
    index domains x scope = index domains y scope := by
  induction scope with
  | nil => rfl
  | cons id scope ih =>
    rw [index, index, h id List.mem_cons_self, ih fun id hid => h id (List.mem_cons_of_mem _ hid)]

/-- Two assignments with the same index of a scope agree on the scope. -/
theorem valueAt_eq_of_index_eq (hx : x.Inside domains) (hy : y.Inside domains)
    (h : index domains x scope = index domains y scope) :
    ∀ id ∈ scope, x.valueAt id = y.valueAt id := by
  induction scope with
  | nil => simp
  | cons id scope ih =>
    rw [index, index] at h
    have hpos := hx.positive.sizeAt_pos id
    -- the first value is the remainder of the index, the others are its quotient
    have hdigit : x.valueAt id = y.valueAt id := by
      have := congrArg (· % domains.sizeAt id) h
      simpa [Nat.mod_eq_of_lt (hx.valueAt_lt id), Nat.mod_eq_of_lt (hy.valueAt_lt id)] using this
    have hrest : index domains x scope = index domains y scope := by
      rw [hdigit] at h
      exact Nat.eq_of_mul_eq_mul_left hpos (Nat.add_left_cancel h)
    exact List.forall_mem_cons.2 ⟨hdigit, ih hrest⟩

private theorem addressFrom_eq_ok (hx : x.Inside domains) {address place : Nat}
    (hrange : scope.InRange domains) (hplace : place * capacity domains scope < wordLimit)
    (haddress : address < place) :
    addressFrom domains x scope address place = .ok (address + place * index domains x scope) := by
  -- what has been added up stays below the place value, so that no sum leaves the words
  induction scope generalizing address place with
  | nil => rfl
  | cons id scope ih =>
    obtain ⟨hid, hrange⟩ := inRange_cons.1 hrange
    have hvalue := hx.valueAt_lt id
    have hcapacity := capacity_pos hx.positive scope
    rw [capacity_cons, ← Nat.mul_assoc] at hplace
    have hnext : place * domains.sizeAt id < wordLimit :=
      Nat.lt_of_le_of_lt (Nat.le_mul_of_pos_right _ hcapacity) hplace
    have hsum : address + place * x.valueAt id < place * domains.sizeAt id :=
      add_place_lt haddress hvalue
    have hproduct : place * x.valueAt id < wordLimit :=
      Nat.lt_of_le_of_lt (Nat.le_add_left _ _) (hsum.trans hnext)
    rw [addressFrom, Assignment.fetch_eq_ok (hx.size_eq ▸ hid), ok_bind, mulWords_of_lt hproduct,
      ok_bind, addWords_of_lt (hsum.trans hnext), ok_bind, Domains.fetch_eq_ok hid, ok_bind,
      mulWords_of_lt hnext, ok_bind, ih hrange hplace hsum, index, Nat.mul_add, Nat.mul_assoc,
      Nat.add_assoc]

/-- Addressing gives the index. -/
theorem address_eq_ok (hx : x.Inside domains) (hrange : scope.InRange domains)
    (hcapacity : capacity domains scope < wordLimit) :
    scope.address domains x = .ok (index domains x scope) := by
  have hplace : 1 * capacity domains scope < wordLimit := by rwa [Nat.one_mul]
  simpa [address] using addressFrom_eq_ok hx hrange hplace Nat.zero_lt_one

/-! ## Section 4: Writing joint values -/

/-- The assignment with the joint value at an index written into a scope. -/
def write (domains : Domains) : Scope → Nat → Assignment → Assignment
  | [], _, x => x
  | id :: rest, index, x =>
    write domains rest (index / domains.sizeAt id) (x.with id (index % domains.sizeAt id))

/-- Assigning never fails for variables in range. -/
theorem assign_eq_ok (hd : domains.Positive) (hrange : scope.InRange domains) (address : Nat)
    (x : Assignment) : scope.assign domains address x = .ok (scope.write domains address x) := by
  induction scope generalizing address x with
  | nil => rfl
  | cons id scope ih =>
    obtain ⟨hid, hrange⟩ := inRange_cons.1 hrange
    rw [assign, Domains.fetch_eq_ok hid, ok_bind,
      Assignment.set_eq_ok hid (Nat.mod_lt _ (hd.sizeAt_pos id)), ok_bind, ih hrange]
    rfl

theorem size_write (scope : Scope) (index : Nat) (x : Assignment) :
    (write domains scope index x).size = x.size := by
  induction scope generalizing index x with
  | nil => rfl
  | cons id scope ih => rw [write, ih, Assignment.size_with]

theorem inside_write (hx : x.Inside domains) (scope : Scope) (index : Nat) :
    (write domains scope index x).Inside domains := by
  induction scope generalizing index x with
  | nil => exact hx
  | cons id scope ih => exact ih (hx.with (Nat.mod_lt _ (hx.positive.sizeAt_pos id))) _

theorem valueAt_write_of_notMem (hrange : scope.InRange domains) (hx : x.size = domains.size)
    (hid : id ∉ scope) (index : Nat) : (write domains scope index x).valueAt id = x.valueAt id := by
  induction scope generalizing index x with
  | nil => rfl
  | cons other scope ih =>
    obtain ⟨hother, hrange⟩ := inRange_cons.1 hrange
    obtain ⟨hne, hid⟩ := not_or.1 (mt List.mem_cons.2 hid)
    rw [write, ih hrange ((Assignment.size_with ..).trans hx) hid,
      Assignment.valueAt_with (hx ▸ hother), if_neg hne]

/-- What is written at an index is found at this index. -/
theorem index_write (hx : x.Inside domains) (hrange : scope.InRange domains)
    (hnodup : scope.Nodup) {a : Nat} (ha : a < capacity domains scope) :
    index domains (write domains scope a x) scope = a := by
  induction scope generalizing a x with
  | nil => exact (Nat.lt_one_iff.1 ha).symm
  | cons id scope ih =>
    obtain ⟨hid, hrange⟩ := inRange_cons.1 hrange
    obtain ⟨hfresh, hnodup⟩ := List.nodup_cons.1 hnodup
    have hpos := hx.positive.sizeAt_pos id
    have hdigit := Nat.mod_lt a hpos
    -- the later variables are others, and leave the first digit alone
    rw [capacity_cons] at ha
    rw [index, write, ih (hx.with hdigit) hrange hnodup (Nat.div_lt_of_lt_mul ha),
      valueAt_write_of_notMem hrange (hx.with hdigit).size_eq hfresh,
      Assignment.valueAt_with (hx.size_eq ▸ hid), if_pos rfl, Nat.mod_add_div]

/-- Writing the joint value of an assignment makes another assignment agree with it. -/
theorem valueAt_write_index (hx : x.Inside domains) (hy : y.Inside domains)
    (hrange : scope.InRange domains) (hnodup : scope.Nodup) (hid : id ∈ scope) :
    (write domains scope (index domains y scope) x).valueAt id = y.valueAt id :=
  valueAt_eq_of_index_eq (inside_write hx scope _) hy
    (index_write hx hrange hnodup (index_lt hy scope)) id hid

/-! ## Section 5: Reading digits -/

private theorem digitFrom_eq_ok (hx : x.Inside domains) (id : Nat) {low place : Nat}
    (hrange : scope.InRange domains) (hplace : place * capacity domains scope < wordLimit)
    (hlow : low < place) :
    digitFrom domains id (low + place * index domains x scope) scope place =
      .ok (if id ∈ scope then some (x.valueAt id) else none) := by
  -- `low` is what the digits passed by make up, and `place` the value of the next place
  induction scope generalizing low place with
  | nil => rfl
  | cons other scope ih =>
    obtain ⟨hother, hrange⟩ := inRange_cons.1 hrange
    have hvalue := hx.valueAt_lt other
    have hcapacity := capacity_pos hx.positive scope
    rw [capacity_cons, ← Nat.mul_assoc] at hplace
    have hnext : place * domains.sizeAt other < wordLimit :=
      Nat.lt_of_le_of_lt (Nat.le_mul_of_pos_right _ hcapacity) hplace
    rw [digitFrom, Domains.fetch_eq_ok hother, ok_bind]
    by_cases h : other = id
    · rw [if_pos h, if_pos (List.mem_cons.2 (Or.inl h.symm)), index,
        Nat.add_mul_div_left _ _ (Nat.zero_lt_of_lt hlow), Nat.div_eq_of_lt hlow, Nat.zero_add,
        Nat.add_mul_mod_self_left, Nat.mod_eq_of_lt hvalue, h]
    · -- the digits passed by stay below the next place value
      have hsum : low + place * x.valueAt other < place * domains.sizeAt other :=
        add_place_lt hlow hvalue
      have hmem : id ∈ other :: scope ↔ id ∈ scope := by
        rw [List.mem_cons, or_iff_right (Ne.symm h)]
      rw [if_neg h, mulWords_of_lt hnext, ok_bind, index, Nat.mul_add, ← Nat.mul_assoc,
        ← Nat.add_assoc, ih hrange hplace hsum]
      simp only [hmem]

/-- The digit of a variable at the index of an assignment is the value of the variable. -/
theorem digit_index (hx : x.Inside domains) (hrange : scope.InRange domains)
    (hcapacity : capacity domains scope < wordLimit) (id : Nat) :
    scope.digit domains id (index domains x scope) =
      .ok (if id ∈ scope then some (x.valueAt id) else none) := by
  have hplace : 1 * capacity domains scope < wordLimit := by rwa [Nat.one_mul]
  simpa [digit] using digitFrom_eq_ok hx id hrange hplace Nat.zero_lt_one

private theorem exists_digitFrom (hd : domains.Positive) (id address : Nat) {place : Nat}
    (hrange : scope.InRange domains) (hplace : place * capacity domains scope < wordLimit) :
    ∃ value, digitFrom domains id address scope place = .ok value ∧ (value.isSome ↔ id ∈ scope) := by
  induction scope generalizing place with
  | nil => exact ⟨none, rfl, by simp⟩
  | cons other scope ih =>
    obtain ⟨hother, hrange⟩ := inRange_cons.1 hrange
    rw [capacity_cons, ← Nat.mul_assoc] at hplace
    rw [digitFrom, Domains.fetch_eq_ok hother, ok_bind]
    by_cases h : other = id
    · exact ⟨_, if_pos h, by simp [h]⟩
    · -- only the place values of the variables before the one that is looked for are computed
      have hnext : place * domains.sizeAt other < wordLimit :=
        Nat.lt_of_le_of_lt (Nat.le_mul_of_pos_right _ (capacity_pos hd scope)) hplace
      obtain ⟨value, hvalue, hmem⟩ := ih hrange hplace
      rw [if_neg h, mulWords_of_lt hnext, ok_bind]
      exact ⟨value, hvalue, by simp [hmem, Ne.symm h]⟩

/-- Reading a digit never fails, also for addresses that no joint value has. -/
theorem exists_digit (hd : domains.Positive) (hrange : scope.InRange domains)
    (hcapacity : capacity domains scope < wordLimit) (id address : Nat) :
    ∃ value, scope.digit domains id address = .ok value ∧ (value.isSome ↔ id ∈ scope) :=
  exists_digitFrom hd id address hrange (by rwa [Nat.one_mul])

/-! ## Section 6: One numbering -/

/-- The four functions on the numbering of a scope go together for an assignment. -/
structure Numbered (domains : Domains) (scope : Scope) (x : Assignment) : Prop where
  /-- The joint values are counted without leaving the words. -/
  size : scope.size domains = .ok (scope.capacity domains)
  /-- No address makes assigning or reading a digit fail. -/
  assign : ∀ address, ∃ y, scope.assign domains address x = .ok y ∧ y.Inside domains
  digit : ∀ id address, ∃ value,
    scope.digit domains id address = .ok value ∧ (value.isSome ↔ id ∈ scope)
  /-- The address of the assignment is one of the counted ones, and nothing changes when the
  assignment is given its own joint value. -/
  own : ∃ address < scope.capacity domains,
    scope.address domains x = .ok address ∧ scope.assign domains address x = .ok x
  /-- Any other joint value is taken over by the scope alone, and its address and its digits are
  found again. -/
  other : ∀ address < scope.capacity domains, ∃ y,
    scope.assign domains address x = .ok y ∧ y.Inside domains ∧
      scope.address domains y = .ok address ∧
      (∀ id ∉ scope, y.valueAt id = x.valueAt id) ∧
      ∀ id, scope.digit domains id address = .ok (if id ∈ scope then some (y.valueAt id) else none)

/-- **Addressing, assigning and reading digits use one numbering**, for variables in range, none of
them twice, with fewer joint values than there are words. -/
theorem numbered (hx : x.Inside domains) (hrange : scope.InRange domains) (hnodup : scope.Nodup)
    (hcapacity : scope.capacity domains < wordLimit) : scope.Numbered domains x where
  size := (size_eq_ok_iff hx.positive).2 ⟨hrange, hcapacity, rfl⟩
  assign address :=
    ⟨_, assign_eq_ok hx.positive hrange address x, inside_write hx scope address⟩
  digit id address := exists_digit hx.positive hrange hcapacity id address
  own := by
    refine ⟨_, index_lt hx scope, address_eq_ok hx hrange hcapacity, ?_⟩
    -- each variable of the scope is given the value that it has
    have hsame : scope.write domains (index domains x scope) x = x := by
      refine Assignment.ext_valueAt (size_write scope _ x) fun id _ => ?_
      by_cases hid : id ∈ scope
      · exact valueAt_write_index hx hx hrange hnodup hid
      · exact valueAt_write_of_notMem hrange hx.size_eq hid _
    rw [assign_eq_ok hx.positive hrange, hsame]
  other address haddress := by
    have hy := inside_write hx scope address
    have hindex := index_write hx hrange hnodup haddress
    refine ⟨_, assign_eq_ok hx.positive hrange address x, hy, ?_,
      fun id hid => valueAt_write_of_notMem hrange hx.size_eq hid address, fun id => ?_⟩
    · rw [address_eq_ok hy hrange hcapacity, hindex]
    · -- the address is the one of the assignment that has been written
      have hdigit := digit_index hy hrange hcapacity id
      rwa [hindex] at hdigit

/-- Variables of two, one and three values, the last of them first in the scope. -/
theorem numbered_three_variables :
    Assignment.Inside #[2, 1, 3] #[1, 0, 2] ∧ InRange #[2, 1, 3] [2, 1, 0] ∧
      [2, 1, 0].Nodup ∧ capacity #[2, 1, 3] [2, 1, 0] < wordLimit ∧
      Numbered #[2, 1, 3] [2, 1, 0] #[1, 0, 2] := by
  have hx : Assignment.Inside #[2, 1, 3] #[1, 0, 2] := Assignment.inside_iff.2 (by decide)
  have hrange : InRange #[2, 1, 3] [2, 1, 0] := by decide
  have hnodup : [2, 1, 0].Nodup := by decide
  have hcapacity : capacity #[2, 1, 3] [2, 1, 0] < wordLimit := by decide
  exact ⟨hx, hrange, hnodup, hcapacity, numbered hx hrange hnodup hcapacity⟩

end Scope

end PairedMarkov
