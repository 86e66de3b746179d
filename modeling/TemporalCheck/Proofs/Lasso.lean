import Mathlib
import TemporalCheck.Lasso

/-! The infinite sequence that a stem and a cycle stand for: the stem once, and then the cycle again
and again. -/
namespace TemporalCheck

section Unrolled

variable {α β : Type} {stem cycle : List α}

/-- The entry at a position of the sequence. The last of the stem is the first of the cycle, and the
cycle ends where it begins. -/
def unrolled (stem cycle : List α) (i : Nat) : Option α :=
  if i < stem.length - 1 then stem[i]? else cycle[(i - (stem.length - 1)) % (cycle.length - 1)]?

structure Joint (stem cycle : List α) : Prop where
  joint : ∃ r, stem.getLast? = some r ∧ cycle.head? = some r ∧ cycle.getLast? = some r
  long : 2 ≤ cycle.length

theorem Joint.stem_pos (joint : Joint stem cycle) : 0 < stem.length := by
  obtain ⟨r, last, _⟩ := joint.joint
  exact List.length_pos_of_mem (List.mem_of_getLast? last)

theorem Joint.turn (joint : Joint stem cycle) : cycle[0]? = cycle[cycle.length - 1]? := by
  obtain ⟨r, _, head, last⟩ := joint.joint
  rw [← List.head?_eq_getElem?, ← List.getLast?_eq_getElem?, head, last]

theorem Joint.enter (joint : Joint stem cycle) : stem[stem.length - 1]? = cycle[0]? := by
  obtain ⟨r, last, head, _⟩ := joint.joint
  rw [← List.head?_eq_getElem?, ← List.getLast?_eq_getElem?, head, last]

/-- Up to the end of the stem the sequence is the stem. -/
theorem unrolled_of_le (joint : Joint stem cycle) {i : Nat} (early : i ≤ stem.length - 1) :
    unrolled stem cycle i = stem[i]? := by
  unfold unrolled
  split
  · rfl
  · obtain rfl : i = stem.length - 1 := by omega
    rw [Nat.sub_self, Nat.zero_mod, joint.enter]

/-- From there on every step goes from an entry of the cycle to the next. -/
theorem unrolled_cycle (joint : Joint stem cycle) (i : Nat) :
    ∃ k, k + 1 < cycle.length ∧ unrolled stem cycle (stem.length - 1 + i) = cycle[k]? ∧
      unrolled stem cycle (stem.length - 1 + (i + 1)) = cycle[k + 1]? := by
  have long := joint.long
  have within : i % (cycle.length - 1) < cycle.length - 1 := Nat.mod_lt _ (by omega)
  have entry (i : Nat) : unrolled stem cycle (stem.length - 1 + i) =
      cycle[i % (cycle.length - 1)]? := by
    rw [unrolled, if_neg (by omega), Nat.add_sub_cancel_left]
  refine ⟨i % (cycle.length - 1), by omega, entry i, ?_⟩
  rw [entry, ← Nat.mod_add_mod]
  by_cases last : i % (cycle.length - 1) + 1 = cycle.length - 1
  · rw [last, Nat.mod_self, joint.turn]
  · rw [Nat.mod_eq_of_lt (by omega)]

theorem unrolled_zero (joint : Joint stem cycle) : unrolled stem cycle 0 = stem.head? := by
  rw [unrolled_of_le joint (Nat.zero_le _), List.head?_eq_getElem?]

/-- Every step of the sequence is a step of the stem or of the cycle. -/
theorem unrolled_step (joint : Joint stem cycle) {R : α → α → Prop} (stemChain : stem.IsChain R)
    (cycleChain : cycle.IsChain R) (i : Nat) :
    ∃ a b, unrolled stem cycle i = some a ∧ unrolled stem cycle (i + 1) = some b ∧ R a b := by
  have onStem := joint.stem_pos
  by_cases early : i < stem.length - 1
  · refine ⟨stem[i], stem[i + 1], ?_, ?_, stemChain.getElem i (by omega)⟩
    · rw [unrolled_of_le joint early.le, List.getElem?_eq_getElem]
    · rw [unrolled_of_le joint early, List.getElem?_eq_getElem]
  · obtain ⟨k, bound, here, there⟩ := unrolled_cycle joint (i - (stem.length - 1))
    rw [Nat.add_sub_cancel' (by omega)] at here
    rw [show stem.length - 1 + (i - (stem.length - 1) + 1) = i + 1 by omega] at there
    refine ⟨cycle[k], cycle[k + 1], ?_, ?_, cycleChain.getElem k bound⟩
    · rw [here, List.getElem?_eq_getElem]
    · rw [there, List.getElem?_eq_getElem]

/-- Every entry of the cycle comes again and again. -/
theorem unrolled_again (joint : Joint stem cycle) {a : α} (member : a ∈ cycle) (i : Nat) :
    ∃ j, i ≤ j ∧ unrolled stem cycle j = some a := by
  have long := joint.long
  obtain ⟨k, at_k⟩ := List.mem_iff_getElem?.mp member
  obtain ⟨k, bound, at_k⟩ : ∃ k, k < cycle.length - 1 ∧ cycle[k]? = some a := by
    obtain ⟨bound, _⟩ := List.getElem?_eq_some_iff.mp at_k
    by_cases last : k = cycle.length - 1
    · exact ⟨0, by omega, by rw [joint.turn, ← last, at_k]⟩
    · exact ⟨k, by omega, at_k⟩
  refine ⟨stem.length - 1 + ((cycle.length - 1) * i + k), ?_, ?_⟩
  · have : 1 * i ≤ (cycle.length - 1) * i := Nat.mul_le_mul_right i (by omega)
    omega
  · rw [unrolled, if_neg (by omega), Nat.add_sub_cancel_left, Nat.mul_add_mod,
      Nat.mod_eq_of_lt bound, at_k]

section Related

variable {R : α → β → Prop} {stem' cycle' : List β}

theorem exists_related {l : List α} {l' : List β} (both : List.Forall₂ R l l') {k : Nat} {a : α}
    (at_k : l[k]? = some a) : ∃ b, l'[k]? = some b ∧ R a b := by
  obtain ⟨length, each⟩ := List.forall₂_iff_get.mp both
  obtain ⟨bound, rfl⟩ := List.getElem?_eq_some_iff.mp at_k
  exact ⟨l'[k], List.getElem?_eq_getElem _, each k bound (length ▸ bound)⟩

/-- Sequences of related stems and cycles are related. -/
theorem unrolled_related (stems : List.Forall₂ R stem stem') (cycles : List.Forall₂ R cycle cycle')
    {i : Nat} {a : α} (here : unrolled stem cycle i = some a) :
    ∃ b, unrolled stem' cycle' i = some b ∧ R a b := by
  unfold unrolled at here ⊢
  rw [← stems.length_eq, ← cycles.length_eq]
  split at here
  · next early => simpa [early] using exists_related stems here
  · next late => simpa [late] using exists_related cycles here

theorem Joint.related (joint : Joint stem cycle) (stems : List.Forall₂ R stem stem')
    (cycles : List.Forall₂ R cycle cycle') (functional : ∀ a b b', R a b → R a b' → b = b') :
    Joint stem' cycle' := by
  obtain ⟨r, stemLast, head, last⟩ := joint.joint
  rw [List.getLast?_eq_getElem?] at stemLast last
  rw [List.head?_eq_getElem?] at head
  obtain ⟨b, stemLast, relB⟩ := exists_related stems stemLast
  obtain ⟨b', head, relB'⟩ := exists_related cycles head
  obtain ⟨b'', last, relB''⟩ := exists_related cycles last
  refine ⟨⟨b, ?_, ?_, ?_⟩, cycles.length_eq ▸ joint.long⟩
  · rw [List.getLast?_eq_getElem?, ← stems.length_eq, stemLast]
  · rw [List.head?_eq_getElem?, head, functional r b b' relB relB']
  · rw [List.getLast?_eq_getElem?, ← cycles.length_eq, last, functional r b b'' relB relB'']

theorem isChain_related {S : α → α → Prop} {T : β → β → Prop} {l : List α} {l' : List β}
    (chain : l.IsChain S) (both : List.Forall₂ R l l')
    (step : ∀ a a' b b', S a a' → R a b → R a' b' → T b b') : l'.IsChain T := by
  rw [List.isChain_iff_getElem]
  intro i bound
  obtain ⟨length, each⟩ := List.forall₂_iff_get.mp both
  exact step _ _ _ _ (chain.getElem i (by omega)) (each i (by omega) (by omega))
    (each (i + 1) (by omega) bound)

end Related

end Unrolled

def Lasso.state? {State : Type} (l : Lasso State) (i : Nat) : Option State :=
  unrolled l.stem l.cycle i

end TemporalCheck
