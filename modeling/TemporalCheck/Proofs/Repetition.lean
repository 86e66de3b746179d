import Mathlib

/-! Lists without their repetitions. An entry stays where it stands first. -/
namespace TemporalCheck

variable {α : Type} [BEq α] [LawfulBEq α]

theorem eraseDups_concat [DecidableEq α] (xs : List α) (x : α) : (xs ++ [x]).eraseDups =
    if x ∈ xs then xs.eraseDups else xs.eraseDups ++ [x] := by
  rw [List.eraseDups_append]
  split
  · next old => simp [List.removeAll, old]
  · next new => simp [List.removeAll, new, List.eraseDups_cons]

theorem nodup_eraseDups (xs : List α) : xs.eraseDups.Nodup := by
  classical
  induction xs using List.reverseRecOn with
  | nil => exact .nil
  | append_singleton xs x ih =>
    rw [eraseDups_concat]
    split
    · exact ih
    · next new => exact ih.append (List.nodup_singleton x) (by simpa using new)

theorem eraseDups_of_nodup {xs : List α} (distinct : xs.Nodup) : xs.eraseDups = xs := by
  classical
  induction xs using List.reverseRecOn with
  | nil => rfl
  | append_singleton xs x ih =>
    obtain ⟨distinct, -, apart⟩ := List.nodup_append'.mp distinct
    have new : x ∉ xs := fun old => apart old (List.mem_singleton_self x)
    rw [eraseDups_concat, if_neg new, ih distinct]

end TemporalCheck
