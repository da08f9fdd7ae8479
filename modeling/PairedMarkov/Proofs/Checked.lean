import Mathlib
import PairedMarkov.Fault

/-!
# Computations that can fail

A checked computation either gives a result or a fault. What later modules need is to take such a
computation apart at its binds, and to know that a loop all of whose steps succeed succeeds with the
result of the loop without checks.

Main statement: `bind_eq_ok_iff`, a sequence succeeds exactly if both of its parts do.
-/

namespace PairedMarkov

variable {ε α β : Type}

/-! ## Section 1: Sequences -/

theorem bind_eq_ok_iff {x : Except ε α} {f : α → Except ε β} {b : β} :
    x >>= f = .ok b ↔ ∃ a, x = .ok a ∧ f a = .ok b := by
  cases x <;> simp [bind, Except.bind]

theorem bind_eq_error_iff {x : Except ε α} {f : α → Except ε β} {e : ε} :
    x >>= f = .error e ↔ x = .error e ∨ ∃ a, x = .ok a ∧ f a = .error e := by
  cases x <;> simp [bind, Except.bind]

@[simp]
theorem ok_bind (a : α) (f : α → Except ε β) : Except.ok a >>= f = f a := rfl

@[simp]
theorem pure_eq_ok_iff {a b : α} : (pure a : Except ε α) = .ok b ↔ a = b := by
  simp [pure, Except.pure]

theorem mapError_eq_ok_iff {ε' : Type} {f : ε → ε'} {x : Except ε α} {a : α} :
    x.mapError f = .ok a ↔ x = .ok a := by
  cases x <;> simp [Except.mapError]

theorem mapError_eq_error_iff {ε' : Type} {f : ε → ε'} {x : Except ε α} {e' : ε'} :
    x.mapError f = .error e' ↔ ∃ e, x = .error e ∧ f e = e' := by
  cases x <;> simp [Except.mapError]

/-- What a test says of a result is true of it. -/
theorem of_all_toOption {x : Except ε α} {test : α → Bool} (h : x.toOption.all test = true) {a : α}
    (ha : x = .ok a) : test a = true := by
  rw [ha] at h
  simpa [Except.toOption] using h

/-! ## Section 2: Loops -/

/-- A loop whose steps all succeed is the loop without checks. -/
theorem foldlM_eq_ok {f : β → α → Except ε β} {g : β → α → β} {l : List α}
    (h : ∀ b, ∀ a ∈ l, f b a = .ok (g b a)) (b : β) : l.foldlM f b = .ok (l.foldl g b) := by
  induction l generalizing b with
  | nil => rfl
  | cons a l ih =>
    rw [List.foldlM_cons, h b a List.mem_cons_self, ok_bind, List.foldl_cons]
    exact ih (fun b a ha => h b a (List.mem_cons_of_mem _ ha)) _

/-- A loop whose steps succeed and keep an invariant succeeds and keeps it. -/
theorem exists_foldlM_eq_ok {f : β → α → Except ε β} {P : β → Prop} {l : List α}
    (h : ∀ b, P b → ∀ a ∈ l, ∃ b', f b a = .ok b' ∧ P b') {b : β} (hb : P b) :
    ∃ b', l.foldlM f b = .ok b' ∧ P b' := by
  induction l generalizing b with
  | nil => exact ⟨b, rfl, hb⟩
  | cons a l ih =>
    obtain ⟨b', hf, hb'⟩ := h b hb a List.mem_cons_self
    rw [List.foldlM_cons, hf, ok_bind]
    exact ih (fun b hb a ha => h b hb a (List.mem_cons_of_mem _ ha)) hb'

/-- A loop whose steps succeed under an invariant is the loop without checks, and keeps it. -/
theorem foldlM_eq_ok_of_invariant {f : β → α → Except ε β} {g : β → α → β} {P : β → Prop}
    {l : List α} (h : ∀ b, P b → ∀ a ∈ l, f b a = .ok (g b a) ∧ P (g b a)) {b : β} (hb : P b) :
    l.foldlM f b = .ok (l.foldl g b) ∧ P (l.foldl g b) := by
  induction l generalizing b with
  | nil => exact ⟨rfl, hb⟩
  | cons a l ih =>
    obtain ⟨hf, hg⟩ := h b hb a List.mem_cons_self
    rw [List.foldlM_cons, hf, ok_bind, List.foldl_cons]
    exact ih (fun b hb a ha => h b hb a (List.mem_cons_of_mem _ ha)) hg

theorem mapM_eq_ok {f : α → Except ε β} {g : α → β} {l : List α}
    (h : ∀ a ∈ l, f a = .ok (g a)) : l.mapM f = .ok (l.map g) := by
  induction l with
  | nil => rfl
  | cons a l ih =>
    rw [List.mapM_cons, h a List.mem_cons_self, ih fun a ha => h a (List.mem_cons_of_mem _ ha)]
    rfl

/-- If it is known when each step succeeds, then it is known when all of them do. -/
theorem mapM_eq_ok_iff {f : α → Except ε β} {g : α → β} {P : α → Prop} {l : List α}
    (h : ∀ a ∈ l, ∀ b, f a = .ok b ↔ P a ∧ b = g a) {bs : List β} :
    l.mapM f = .ok bs ↔ (∀ a ∈ l, P a) ∧ bs = l.map g := by
  constructor
  · intro hrun
    -- once all steps are known to succeed, the results are those of a plain map
    have hall : ∀ a ∈ l, P a := by
      induction l generalizing bs with
      | nil => simp
      | cons a l ih =>
        rw [List.mapM_cons] at hrun
        obtain ⟨b, hb, hrest⟩ := bind_eq_ok_iff.1 hrun
        obtain ⟨bs', hbs', -⟩ := bind_eq_ok_iff.1 hrest
        exact List.forall_mem_cons.2 ⟨((h a List.mem_cons_self b).1 hb).1,
          ih (fun a ha => h a (List.mem_cons_of_mem _ ha)) hbs'⟩
    rw [mapM_eq_ok fun a ha => (h a ha _).2 ⟨hall a ha, rfl⟩, Except.ok.injEq] at hrun
    exact ⟨hall, hrun.symm⟩
  · rintro ⟨hall, rfl⟩
    exact mapM_eq_ok fun a ha => (h a ha _).2 ⟨hall a ha, rfl⟩

/-- What a loop gives comes from its steps. -/
theorem exists_of_mem_mapM {f : α → Except ε β} {l : List α} {bs : List β} (h : l.mapM f = .ok bs)
    {b : β} (hb : b ∈ bs) : ∃ a ∈ l, f a = .ok b := by
  induction l generalizing bs with
  | nil =>
    cases h
    exact absurd hb List.not_mem_nil
  | cons a l ih =>
    rw [List.mapM_cons] at h
    obtain ⟨first, hfirst, hrest⟩ := bind_eq_ok_iff.1 h
    obtain ⟨others, hothers, hbs⟩ := bind_eq_ok_iff.1 hrest
    obtain rfl := pure_eq_ok_iff.1 hbs
    rcases List.mem_cons.1 hb with rfl | hb
    · exact ⟨a, List.mem_cons_self, hfirst⟩
    · obtain ⟨a', ha', hstep⟩ := ih hothers hb
      exact ⟨a', List.mem_cons_of_mem _ ha', hstep⟩

theorem array_mapM_eq_ok {f : α → Except ε β} {g : α → β} {xs : Array α}
    (h : ∀ a ∈ xs, f a = .ok (g a)) : xs.mapM f = .ok (xs.map g) := by
  rw [Array.mapM_eq_mapM_toList, mapM_eq_ok fun a ha => h a (Array.mem_toList_iff.1 ha),
    ← Array.toList_map]
  rfl

private theorem filterAuxM_eq_ok {f : α → Except ε Bool} {p : α → Bool} {l : List α}
    (h : ∀ a ∈ l, f a = .ok (p a)) (kept : List α) :
    l.filterAuxM f kept = .ok ((l.filter p).reverse ++ kept) := by
  induction l generalizing kept with
  | nil => rfl
  | cons a l ih =>
    rw [List.filterAuxM, h a List.mem_cons_self, ok_bind,
      ih fun a ha => h a (List.mem_cons_of_mem _ ha)]
    cases hp : p a <;> simp [hp]

theorem filterM_eq_ok {f : α → Except ε Bool} {p : α → Bool} {l : List α}
    (h : ∀ a ∈ l, f a = .ok (p a)) : l.filterM f = .ok (l.filter p) := by
  rw [List.filterM, filterAuxM_eq_ok h []]
  simp [pure, Except.pure]

theorem forM_eq_ok {f : α → Except ε Unit} {l : List α} (h : ∀ a ∈ l, f a = .ok ()) :
    l.forM f = .ok () := by
  induction l with
  | nil => rfl
  | cons a l ih =>
    show (f a >>= fun _ => l.forM f) = .ok ()
    rw [h a List.mem_cons_self, ok_bind]
    exact ih fun a ha => h a (List.mem_cons_of_mem _ ha)

/-! ## Section 3: What is left of a list -/

/-- A loop that counts its steps is at the position of the first element that is left. -/
theorem getElem?_of_drop_eq_cons {a : α} {l rest : List α} {position : Nat}
    (h : l.drop position = a :: rest) :
    l[position]? = some a ∧ l.drop (position + 1) = rest := by
  constructor
  · rw [← List.head?_drop, h, List.head?_cons]
  · rw [← List.drop_drop, h, List.drop_one, List.tail_cons]

end PairedMarkov
