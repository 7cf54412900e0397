/-! Lists that grow at their end. A token or a target is collected one item at a time, and
its last items decide what is trimmed off. -/

set_option autoImplicit false

namespace HttpStream

structure Snoc (α : Type) where
  -- The items, last one first.
  reversed : List α
  deriving DecidableEq, Repr

namespace Snoc

variable {α : Type}

def empty : Snoc α := ⟨[]⟩

def ofList (items : List α) : Snoc α := ⟨items.reverse⟩

def toList (s : Snoc α) : List α := s.reversed.reverse

def push (s : Snoc α) (item : α) : Snoc α := ⟨item :: s.reversed⟩

def append (s : Snoc α) (items : List α) : Snoc α := ⟨items.reverse ++ s.reversed⟩

def isEmpty (s : Snoc α) : Bool := s.reversed.isEmpty

def last? (s : Snoc α) : Option α := s.reversed.head?

/-- The items without the longest run at the end that satisfies `drop`. -/
def trimmed (drop : α → Bool) (s : Snoc α) : List α := (s.reversed.dropWhile drop).reverse

@[simp] theorem toList_empty : (empty : Snoc α).toList = [] := rfl

@[simp] theorem toList_ofList (items : List α) : (ofList items).toList = items := by
  simp [ofList, toList]

@[simp] theorem toList_push (s : Snoc α) (item : α) :
    (s.push item).toList = s.toList ++ [item] := by
  simp [push, toList]

@[simp] theorem isEmpty_toList (s : Snoc α) : s.toList.isEmpty = s.isEmpty := by
  simp [toList, isEmpty]

end Snoc
end HttpStream
