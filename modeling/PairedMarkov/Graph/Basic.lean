import PairedMarkov.Fault

/-!
# The interaction graph

The nodes of the graph are the variables, and two different ones are joined if some scope holds
both. A node can be *removed*, which takes away its edges; it stays in the graph as an isolated
node, so that the numbering of the nodes does not change.

A node is a number below the size of the graph by its type. Numbers that come from outside are
checked once, when the graph is built from scopes or when a node is asked for.

Main statement: removing a node that is still live leaves one live node less, which bounds every
computation that removes nodes one after the other.
-/

namespace PairedMarkov

/-! ## Section 1: The first of the largest -/

/-- The element of a list with the largest key, and the first one of those. -/
def firstMax {α : Type} (key : α → Nat) : List α → Option α
  | [] => none
  | a :: rest => some (rest.foldl (fun best b => if key best < key b then b else best) a)

private theorem foldl_larger_mem {α : Type} (key : α → Nat) (l : List α) (a : α) :
    l.foldl (fun best b => if key best < key b then b else best) a ∈ a :: l := by
  induction l generalizing a with
  | nil => exact List.mem_cons_self
  | cons b l ih =>
    rw [List.foldl_cons]
    split
    · exact List.mem_cons_of_mem a (ih b)
    · rcases List.mem_cons.1 (ih a) with h | h
      · rw [h]
        exact List.mem_cons_self
      · exact List.mem_cons_of_mem a (List.mem_cons_of_mem b h)

theorem firstMax_mem {α : Type} {key : α → Nat} {l : List α} {a : α}
    (h : firstMax key l = some a) : a ∈ l := by
  cases l with
  | nil => simp [firstMax] at h
  | cons b l =>
    rw [firstMax, Option.some.injEq] at h
    exact h ▸ foldl_larger_mem key l b

/-! ## Section 2: Graphs -/

/-- A graph with `n` nodes. -/
structure Graph (n : Nat) where
  /-- The neighbours of each node, without repetitions. -/
  adjacency : Vector (List (Fin n)) n
  /-- For each node, whether it has been removed. -/
  removed : Vector Bool n

namespace Graph

variable {n : Nat}

/-- The graph without edges. -/
def empty : Graph n := ⟨Vector.replicate n [], Vector.replicate n false⟩

/-- The neighbours of a node. -/
def neighbours (g : Graph n) (u : Fin n) : List (Fin n) := g.adjacency[u]

/-- The number of neighbours of a node. -/
def degree (g : Graph n) (u : Fin n) : Nat := (g.neighbours u).length

/-- Whether a node has been removed. -/
def isRemoved (g : Graph n) (u : Fin n) : Bool := g.removed[u]

/-- The nodes that have not been removed, in increasing order. -/
def live (g : Graph n) : List (Fin n) :=
  (List.finRange n).filter fun u => !g.isRemoved u

/-- Adds a node to the neighbours of another one. -/
def point (g : Graph n) (u v : Fin n) : Graph n :=
  { g with adjacency := g.adjacency.set u ((g.neighbours u).insert v) }

/-- Joins two nodes. -/
def join (g : Graph n) (u v : Fin n) : Graph n := (g.point u v).point v u

/-- Removes a node with all its edges. -/
def remove (g : Graph n) (u : Fin n) : Graph n where
  adjacency := Vector.ofFn fun v => if v = u then [] else (g.neighbours v).erase u
  removed := g.removed.set u true

/-- The first node of largest degree among the given ones, with its degree. -/
def maxDegree (g : Graph n) (nodes : List (Fin n)) : Option (Fin n × Nat) :=
  (firstMax g.degree nodes).map fun u => (u, g.degree u)

/-! ## Section 3: Graphs from scopes -/

/-- The node of a number. -/
def node (n : Nat) (id : Nat) : Except Fault (Fin n) :=
  if h : id < n then .ok ⟨id, h⟩ else .error (.indexOutside n id)

/-- Joins the variable `first` to every other one in a list. -/
def joinAll (first : Nat) (g : Graph n) : List Nat → Except Fault (Graph n)
  | [] => .ok g
  | id :: rest =>
    if first = id then joinAll first g rest
    else do
      let u ← node n first
      let v ← node n id
      joinAll first (g.join u v) rest

/-- Joins all variables of a scope to each other. -/
def joinScope (g : Graph n) : List Nat → Except Fault (Graph n)
  | [] => .ok g
  | id :: rest => do joinScope (← joinAll id g rest) rest

/-- The graph on `n` nodes that joins the variables of every scope. -/
def ofScopes (n : Nat) (scopes : List (List Nat)) : Except Fault (Graph n) :=
  scopes.foldlM joinScope empty

/-! ## Section 4: Removing makes progress -/

theorem mem_live {g : Graph n} {u : Fin n} : u ∈ g.live ↔ g.isRemoved u = false := by
  simp [live]

theorem isRemoved_remove (g : Graph n) (u v : Fin n) :
    (g.remove u).isRemoved v = (decide (u = v) || g.isRemoved v) := by
  unfold isRemoved remove
  simp only [Fin.getElem_fin, Vector.getElem_set, Fin.ext_iff]
  split <;> simp_all

theorem live_remove (g : Graph n) (u : Fin n) : (g.remove u).live = g.live.filter (u ≠ ·) := by
  unfold live
  rw [List.filter_filter]
  refine List.filter_congr fun v _ => ?_
  rw [isRemoved_remove]
  by_cases h : u = v <;> simp [h]

/-- A live node that is removed leaves one live node less. -/
theorem length_live_remove_lt {g : Graph n} {u : Fin n} (h : u ∈ g.live) :
    (g.remove u).live.length < g.live.length := by
  rw [live_remove]
  refine List.length_filter_lt_length_iff_exists.2 ⟨u, h, by simp⟩

theorem maxDegree_mem {g : Graph n} {nodes : List (Fin n)} {u : Fin n} {d : Nat}
    (h : g.maxDegree nodes = some (u, d)) : u ∈ nodes := by
  obtain ⟨v, hv, hvu⟩ := Option.map_eq_some_iff.1 h
  cases hvu
  exact firstMax_mem hv

end Graph

end PairedMarkov
