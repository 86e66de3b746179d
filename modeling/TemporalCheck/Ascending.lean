/-! Finite sets of numbers as strictly ascending lists, so that equal sets are equal lists and the
least member stands first. -/
namespace TemporalCheck.Ascending

def insert (x : Nat) : List Nat → List Nat
  | [] => [x]
  | y :: ys => if x < y then x :: y :: ys else if x = y then y :: ys else y :: insert x ys

def ofList (xs : List Nat) : List Nat := xs.foldl (fun set x => insert x set) []

@[simp] theorem mem_insert {x y : Nat} {ys : List Nat} : y ∈ insert x ys ↔ y = x ∨ y ∈ ys := by
  induction ys with
  | nil => simp [insert]
  | cons z zs ih => grind [insert]

theorem pairwise_insert {x : Nat} {ys : List Nat} (sorted : ys.Pairwise (· < ·)) :
    (insert x ys).Pairwise (· < ·) := by
  induction ys with
  | nil => simp [insert]
  | cons z zs ih => grind [insert, mem_insert, List.pairwise_cons]

theorem mem_foldl_insert {y : Nat} (xs set : List Nat) :
    y ∈ xs.foldl (fun set x => insert x set) set ↔ y ∈ xs ∨ y ∈ set := by
  induction xs generalizing set with
  | nil => simp
  | cons x xs ih => simp [ih, or_assoc, or_left_comm]

@[simp] theorem mem_ofList {y : Nat} {xs : List Nat} : y ∈ ofList xs ↔ y ∈ xs := by
  simp [ofList, mem_foldl_insert]

theorem pairwise_foldl_insert (xs : List Nat) {set : List Nat} (sorted : set.Pairwise (· < ·)) :
    (xs.foldl (fun set x => insert x set) set).Pairwise (· < ·) := by
  induction xs generalizing set with
  | nil => simpa
  | cons x xs ih => exact ih (pairwise_insert sorted)

theorem pairwise_ofList (xs : List Nat) : (ofList xs).Pairwise (· < ·) :=
  pairwise_foldl_insert xs .nil

end TemporalCheck.Ascending
