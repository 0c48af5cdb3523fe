import Mathlib.Data.List.Induction
import Mathlib.Data.List.Sublists

/-! # Taking numbered messages in order

A receiver counts the messages it has taken and takes a message only when its number is the count.
Messages that are repeated, or come too early, are left.

* **`takenCount`** — the count; **`le_takenCount_iff`** — it has come to `k` exactly when the
  numbers below `k` have arrived in their order.
* **`Awaits`** — the number that would be taken next, without the count.
* **`TakenAs`** — the message that was taken as number `k`; there is one for each number below the
  count, and no other. -/

namespace HandlingRobot

variable {α : Type*} (num : α → ℕ)

/-! ## The count -/

/-- The count after some messages: one more for each message whose number it is. -/
def takenCount (as : List α) : ℕ := as.foldl (fun c a => if num a = c then c + 1 else c) 0

@[simp] theorem takenCount_nil : takenCount num [] = 0 := rfl

@[simp] theorem takenCount_concat (as : List α) (a : α) : takenCount num (as ++ [a]) =
    if num a = takenCount num as then takenCount num as + 1 else takenCount num as := by
  rw [takenCount, List.foldl_append]
  rfl

/-- A subsequence of a list with one more entry. -/
theorem concat_sublist_concat_iff {β : Type*} (xs ys : List β) (x y : β) :
    (xs ++ [x]).Sublist (ys ++ [y]) ↔ (xs ++ [x]).Sublist ys ∨ x = y ∧ xs.Sublist ys := by
  rw [← List.reverse_sublist, List.reverse_append, List.reverse_append, List.reverse_singleton,
    List.reverse_singleton, List.singleton_append, List.singleton_append, List.sublist_cons_iff,
    ← List.reverse_sublist, List.reverse_cons, List.reverse_reverse, List.reverse_reverse]
  refine or_congr_right ⟨?_, ?_⟩
  · rintro ⟨r, hr, hsub⟩
    obtain ⟨hxy, rfl⟩ := List.cons.inj hr
    exact ⟨hxy, List.reverse_sublist.mp hsub⟩
  · rintro ⟨rfl, hsub⟩
    exact ⟨_, rfl, List.reverse_sublist.mpr hsub⟩

/-- **The count has come to `k`** when the numbers below `k` have arrived in this order. -/
theorem le_takenCount_iff (as : List α) (k : ℕ) :
    k ≤ takenCount num as ↔ (List.range k).Sublist (as.map num) := by
  -- message after message; the last one counts when all the others are there
  induction as using List.reverseRecOn generalizing k with
  | nil => simp
  | append_singleton as a ih =>
      cases k with
      | zero => simp
      | succ k =>
          rw [List.map_append, List.range_succ, List.map_singleton, concat_sublist_concat_iff,
            ← List.range_succ, ← ih, ← ih, takenCount_concat]
          split_ifs <;> omega

/-! ## The messages taken -/

/-- **Number `k` is awaited** after the messages `as`: the numbers below it have arrived in their
order, and after them it has not. -/
def Awaits (as : List α) (k : ℕ) : Prop :=
  (List.range k).Sublist (as.map num) ∧ ¬ (List.range (k + 1)).Sublist (as.map num)

theorem awaits_iff {as : List α} {k : ℕ} : Awaits num as k ↔ k = takenCount num as := by
  unfold Awaits
  rw [← le_takenCount_iff, ← le_takenCount_iff]
  omega

/-- **`a` is taken as number `k`**: it is the first message of this number after those of the lower
numbers have been taken. -/
def TakenAs (as : List α) (k : ℕ) (a : α) : Prop :=
  ∃ bs cs, as = bs ++ a :: cs ∧ num a = k ∧ Awaits num bs k

/-- What is taken has arrived. -/
theorem TakenAs.mem {as : List α} {k : ℕ} {a : α} (h : TakenAs num as k a) : a ∈ as := by
  obtain ⟨bs, cs, rfl, -⟩ := h
  exact List.mem_append_right bs List.mem_cons_self

theorem not_takenAs_nil (k : ℕ) (a : α) : ¬ TakenAs num [] k a := by
  rintro ⟨bs, cs, h, -⟩
  exact absurd h.symm (by simp)

/-- The last message is taken, or another one has been. -/
theorem takenAs_concat {as : List α} {a b : α} {k : ℕ} : TakenAs num (as ++ [a]) k b ↔
    TakenAs num as k b ∨ b = a ∧ num a = k ∧ k = takenCount num as := by
  constructor
  · rintro ⟨bs, cs, h, hk, haw⟩
    -- `b` stands at the end of the list, or before it
    rcases List.eq_nil_or_concat' cs with rfl | ⟨cs', c, rfl⟩
    · obtain ⟨rfl, hab⟩ := List.append_inj' h rfl
      obtain rfl := List.singleton_inj.mp hab
      exact Or.inr ⟨rfl, hk, (awaits_iff num).mp haw⟩
    · have h' : as ++ [a] = (bs ++ b :: cs') ++ [c] := by simp [h]
      obtain ⟨hbs, -⟩ := List.append_inj' h' rfl
      exact Or.inl ⟨bs, cs', hbs, hk, haw⟩
  · rintro (⟨bs, cs, rfl, hk, haw⟩ | ⟨rfl, hk, hcount⟩)
    · exact ⟨bs, cs ++ [a], by simp, hk, haw⟩
    · exact ⟨as, [], rfl, hk, (awaits_iff num).mpr hcount⟩

/-- Only numbers below the count have been taken. -/
theorem TakenAs.lt {as : List α} {k : ℕ} {b : α} (h : TakenAs num as k b) :
    k < takenCount num as := by
  induction as using List.reverseRecOn with
  | nil => exact absurd h (not_takenAs_nil num k b)
  | append_singleton as a ih =>
      rw [takenCount_concat]
      rcases (takenAs_concat num).mp h with h | ⟨rfl, hk, hcount⟩
      · have hlt := ih h
        split_ifs <;> omega
      · rw [if_pos (hk.trans hcount), hcount]
        exact Nat.lt_succ_self _

/-- **Every number below the count** has been taken. -/
theorem exists_takenAs {as : List α} {k : ℕ} (h : k < takenCount num as) :
    ∃ a, TakenAs num as k a := by
  induction as using List.reverseRecOn with
  | nil => exact absurd h (Nat.not_lt_zero k)
  | append_singleton as a ih =>
      rw [takenCount_concat] at h
      split_ifs at h with hnum
      · rcases Nat.lt_succ_iff_lt_or_eq.mp h with hlt | rfl
        · obtain ⟨b, hb⟩ := ih hlt
          exact ⟨b, (takenAs_concat num).mpr (Or.inl hb)⟩
        · exact ⟨a, (takenAs_concat num).mpr (Or.inr ⟨rfl, hnum, rfl⟩)⟩
      · obtain ⟨b, hb⟩ := ih h
        exact ⟨b, (takenAs_concat num).mpr (Or.inl hb)⟩

end HandlingRobot
