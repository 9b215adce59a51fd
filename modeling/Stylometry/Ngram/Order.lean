-- The orders of n-grams, and things that exist once for each order.
namespace Stylometry

/-- How many tokens an n-gram has. -/
inductive Order where
  | bigram
  | trigram
  | fourgram
  | fivegram
  deriving DecidableEq, Repr

namespace Order

/-- The orders, the shortest first. -/
def all : List Order := [.bigram, .trigram, .fourgram, .fivegram]

/-- The place of the order among all orders. -/
def index : Order → Nat
  | .bigram => 0
  | .trigram => 1
  | .fourgram => 2
  | .fivegram => 3

/-- The number of tokens. -/
def length (o : Order) : Nat := o.index + 2

/-- The name of the order. -/
def name : Order → String
  | .bigram => "bigram"
  | .trigram => "trigram"
  | .fourgram => "fourgram"
  | .fivegram => "fivegram"

/-- The order with the given number of tokens. -/
def ofLength? (n : Nat) : Option Order := all.find? (·.length = n)

/-- The order at the given place. -/
def ofIndex? (n : Nat) : Option Order := all[n]?

/-- The order with the given name. -/
def ofName? (s : String) : Option Order := all.find? (·.name = s)

/-- What is said about a name that no order has. -/
def unknownName (s : String) : String := s!"unknown n-gram order '{s}'"

theorem mem_all (o : Order) : o ∈ all := by cases o <;> decide

@[simp] theorem ofIndex?_index (o : Order) : ofIndex? o.index = some o := by cases o <;> rfl

@[simp] theorem ofName?_name (o : Order) : ofName? o.name = some o := by cases o <;> decide

theorem index_lt (o : Order) : o.index < 4 := by cases o <;> decide

end Order

/-! ## One thing for each order -/

/-- One thing for each order. -/
structure PerOrder (α : Type) where
  bigram : α
  trigram : α
  fourgram : α
  fivegram : α
  deriving DecidableEq, Repr

namespace PerOrder

/-- The thing for one order. -/
def get (p : PerOrder α) : Order → α
  | .bigram => p.bigram
  | .trigram => p.trigram
  | .fourgram => p.fourgram
  | .fivegram => p.fivegram

/-- The same things but for one order. -/
def set (p : PerOrder α) (o : Order) (a : α) : PerOrder α :=
  match o with
  | .bigram => { p with bigram := a }
  | .trigram => { p with trigram := a }
  | .fourgram => { p with fourgram := a }
  | .fivegram => { p with fivegram := a }

/-- The things that a function gives. -/
def ofFn (f : Order → α) : PerOrder α := ⟨f .bigram, f .trigram, f .fourgram, f .fivegram⟩

/-- The things that a function gives when it gives all of them, taken in the order of the
orders. -/
def ofFnM [Monad m] (f : Order → m α) : m (PerOrder α) := do
  return ⟨← f .bigram, ← f .trigram, ← f .fourgram, ← f .fivegram⟩

/-- The things in the order of the orders. -/
def toList (p : PerOrder α) : List α := Order.all.map p.get

@[simp] theorem get_ofFn (f : Order → α) (o : Order) : (ofFn f).get o = f o := by cases o <;> rfl

@[simp] theorem get_set_self (p : PerOrder α) (o : Order) (a : α) : (p.set o a).get o = a := by
  cases o <;> rfl

theorem get_set_of_ne (p : PerOrder α) {o o' : Order} (a : α) (h : o' ≠ o) :
    (p.set o a).get o' = p.get o' := by
  cases o <;> cases o' <;> first | rfl | exact absurd rfl h

theorem ext_get {p q : PerOrder α} (h : ∀ o, p.get o = q.get o) : p = q := by
  cases p; cases q
  exact (mk.injEq ..).mpr ⟨h .bigram, h .trigram, h .fourgram, h .fivegram⟩

end PerOrder
end Stylometry
