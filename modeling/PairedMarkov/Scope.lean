import PairedMarkov.Assignment

/-!
# Scopes and addresses

A scope is a list of variables. Its joint values are numbered in mixed radix, the first variable
being the least significant digit: with `A` of two values and `B` of three, the scope `A, B` has
its joint value `A = 1, B = 2` at address `1 + 2 * 2 = 5`.

Three functions read this numbering in three ways: `address` turns the values of an assignment
into an address, `assign` makes an assignment take the joint value at an address, and `digit` reads
off the value of a single variable. Addresses are words, and all products and sums are checked.
-/

namespace PairedMarkov

/-- An ordered list of variables. -/
abbrev Scope := List Nat

namespace Scope

/-! ## Section 1: Counting -/

/-- The number of joint values of a scope. -/
def size (domains : Domains) (scope : Scope) : Except Fault Nat :=
  scope.foldlM (fun product id => do mulWords product (← fetch domains id)) 1

/-! ## Section 2: From values to an address -/

/-- Adds the digits of the variables of a scope to an address, from the given place value on. -/
def addressFrom (domains : Domains) (x : Assignment) :
    Scope → (address place : Nat) → Except Fault Nat
  | [], address, _ => .ok address
  | id :: rest, address, place => do
    let value ← fetch x id
    let address ← addWords address (← mulWords place value)
    let place ← mulWords place (← fetch domains id)
    addressFrom domains x rest address place

/-- The address of the values that an assignment gives to a scope. -/
def address (domains : Domains) (x : Assignment) (scope : Scope) : Except Fault Nat :=
  addressFrom domains x scope 0 1

/-! ## Section 3: From an address to values -/

/-- Changes an assignment so that a scope takes the joint value at an address. -/
def assign (domains : Domains) : Scope → Nat → Assignment → Except Fault Assignment
  | [], _, x => .ok x
  | id :: rest, address, x => do
    let size ← fetch domains id
    assign domains rest (address / size) (← x.set domains id (address % size))

/-- The value of one variable in the joint value at an address, the first variable of the scope
having the given place value; nothing if the variable is not in the scope. -/
def digitFrom (domains : Domains) (target address : Nat) :
    Scope → (place : Nat) → Except Fault (Option Nat)
  | [], _ => .ok none
  | id :: rest, place => do
    let size ← fetch domains id
    if id = target then .ok (some (address / place % size))
    else digitFrom domains target address rest (← mulWords place size)

/-- The value of one variable in the joint value at an address. -/
def digit (domains : Domains) (scope : Scope) (target address : Nat) :
    Except Fault (Option Nat) :=
  digitFrom domains target address scope 1

end Scope

end PairedMarkov
