namespace Tween

@[ext] structure Ref (α : Type) where
  index : Nat

instance {α : Type} : Inhabited (Ref α) := ⟨⟨0⟩⟩

instance {α : Type} : DecidableEq (Ref α) := fun a b =>
  decidable_of_iff (a.index = b.index) Ref.ext_iff.symm

structure Store (α : Type) where
  cells : List (Nat × α) := []
  next : Nat := 0

namespace Store

variable {α : Type}

def lookup [Inhabited α] : List (Nat × α) → Nat → α
  | [], _ => default
  | (i, a) :: rest, n => if i = n then a else lookup rest n

def replace : List (Nat × α) → Nat → α → List (Nat × α)
  | [], n, a => [(n, a)]
  | (i, b) :: rest, n, a => if i = n then (i, a) :: rest else (i, b) :: replace rest n a

def get [Inhabited α] (s : Store α) (r : Ref α) : α :=
  lookup s.cells r.index

def set (s : Store α) (r : Ref α) (a : α) : Store α :=
  { s with cells := replace s.cells r.index a }

def modify [Inhabited α] (s : Store α) (r : Ref α) (f : α → α) : Store α :=
  s.set r (f (s.get r))

def add (s : Store α) (a : α) : Ref α × Store α :=
  (⟨s.next⟩, { cells := replace s.cells s.next a, next := s.next + 1 })

variable [Inhabited α]

theorem lookup_replace (cells : List (Nat × α)) (m n : Nat) (a : α) :
    lookup (replace cells m a) n = if m = n then a else lookup cells n := by
  induction cells with
  | nil => simp [replace, lookup]
  | cons cell rest ih =>
    obtain ⟨i, b⟩ := cell
    by_cases h : i = m
    · subst h
      by_cases hn : i = n <;> simp [replace, lookup, hn]
    · by_cases hn : i = n
      · subst hn
        simp [replace, lookup, h, Ne.symm h]
      · simp [replace, lookup, h, hn, ih]

theorem get_set (s : Store α) (r q : Ref α) (a : α) :
    (s.set r a).get q = if r = q then a else s.get q := by
  simp [set, get, lookup_replace, Ref.ext_iff]

@[simp] theorem get_set_self (s : Store α) (r : Ref α) (a : α) : (s.set r a).get r = a := by
  simp [get_set]

theorem get_set_of_ne (s : Store α) {r q : Ref α} (a : α) (h : r ≠ q) :
    (s.set r a).get q = s.get q := by
  simp [get_set, h]

end Store

end Tween
