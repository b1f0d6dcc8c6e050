import Mathlib.Data.List.Basic
import Mathlib.Data.List.GetD

/-! # Reversal in place

Two ends of a list move towards each other, exchange their entries and put a
function on both. What is between them when they meet gets the function alone.
-/

namespace BBNotifier.Foundation.Reversal

variable {α : Type} (f : α → α) (default : α)

/-- Exchange the entries from `i` up and from `j` down, until they meet. -/
def reverseBetween (i j : Nat) (entries : List α) : List α :=
  if i < j then
    reverseBetween (i + 1) (j - 1)
      ((entries.set i (f (entries.getD j default))).set j (f (entries.getD i default)))
  else entries.set i (f (entries.getD i default))
termination_by j - i

@[simp]
theorem length_reverseBetween (i j : Nat) (entries : List α) :
    (reverseBetween f default i j entries).length = entries.length := by
  fun_induction reverseBetween f default i j entries with
  | case1 i j entries hlt ih => simpa only [List.length_set] using ih
  | case2 i j entries hge => exact List.length_set

theorem getD_set {entries : List α} {i : Nat} (hi : i < entries.length) (entry : α) (k : Nat) :
    (entries.set i entry).getD k default =
      if i = k then entry else entries.getD k default := by
  simp only [List.getD_eq_getElem?_getD, List.getElem?_set]
  rw [apply_ite (Option.getD · default), if_pos hi, Option.getD_some]

/-- The entries between the ends are reversed, the others stay. -/
theorem getD_reverseBetween {i j : Nat} {entries : List α} (hle : i ≤ j) (heven : 2 ∣ j - i)
    (hj : j < entries.length) (k : Nat) :
    (reverseBetween f default i j entries).getD k default =
      if i ≤ k ∧ k ≤ j then f (entries.getD (i + j - k) default) else entries.getD k default := by
  fun_induction reverseBetween f default i j entries with
  | case1 i j entries hlt ih =>
      have hsum : i + 1 + (j - 1) - k = i + j - k := by omega
      have hi : i < entries.length := Nat.lt_trans hlt hj
      have hj' : j < (entries.set i (f (entries.getD j default))).length := by
        rwa [List.length_set]
      rw [ih (by omega) (by omega) (by simp only [List.length_set]; omega), hsum]
      simp only [getD_set default hj', getD_set default hi]
      -- An end gets the other one, and is left alone from then on.
      by_cases hki : k = i
      · subst hki
        rw [if_neg (by omega), if_neg (by omega), if_pos rfl, if_pos (by omega),
          Nat.add_sub_cancel_left]
      by_cases hkj : k = j
      · subst hkj
        rw [if_neg (by omega), if_pos rfl, if_pos (by omega), Nat.add_sub_cancel]
      by_cases hbetween : i ≤ k ∧ k ≤ j
      · rw [if_pos (by omega), if_pos hbetween, if_neg (by omega), if_neg (by omega)]
      · rw [if_neg (by omega), if_neg hbetween, if_neg (by omega), if_neg (by omega)]
  | case2 i j entries hge =>
      obtain rfl : i = j := by omega
      rw [getD_set default hj]
      by_cases hki : i = k
      · rw [if_pos hki, if_pos (by omega), hki, Nat.add_sub_cancel]
      · rw [if_neg hki, if_neg (by omega)]

/-- Everything but the two outermost entries is reversed. -/
theorem reverseBetween_inner {inner : List α} (hodd : 2 ∣ inner.length - 1) (hpos : inner ≠ [])
    (first last : α) :
    reverseBetween f default 1 inner.length (first :: (inner ++ [last])) =
      first :: (inner.reverse.map f ++ [last]) := by
  have hlength : 1 ≤ inner.length := List.length_pos_iff.mpr hpos
  have hsize : (first :: (inner ++ [last])).length = inner.length + 2 := by
    rw [List.length_cons, List.length_append, List.length_singleton]
  apply List.ext_getElem
  · simp only [length_reverseBetween, List.length_cons, List.length_append, List.length_map,
      List.length_reverse]
  intro k hk hk'
  rw [length_reverseBetween, hsize] at hk
  rw [← List.getD_eq_getElem _ default, ← List.getD_eq_getElem _ default,
    getD_reverseBetween f default hlength hodd (hsize ▸ Nat.lt_add_of_pos_right Nat.two_pos)]
  cases k with
  | zero => rfl
  | succ k =>
      rcases Nat.lt_or_eq_of_le (Nat.le_of_lt_succ (Nat.lt_of_succ_lt_succ hk)) with hinner | hlast
      · have hback : 1 + inner.length - (k + 1) = inner.length - 1 - k + 1 := by omega
        rw [if_pos ⟨Nat.le_add_left _ _, hinner⟩, hback, List.getD_cons_succ, List.getD_cons_succ,
          List.getD_append _ _ _ _ (by omega),
          List.getD_append _ _ _ _ (by rwa [List.length_map, List.length_reverse]),
          List.getD_eq_getElem _ _ (by omega),
          List.getD_eq_getElem _ _ (by rwa [List.length_map, List.length_reverse]),
          List.getElem_map, List.getElem_reverse]
      · rw [if_neg (by omega), List.getD_cons_succ, List.getD_cons_succ, hlast,
          List.getD_append_right _ _ _ _ (Nat.le_refl _),
          List.getD_append_right _ _ _ _
            (by simp only [List.length_map, List.length_reverse, Nat.le_refl]),
          List.length_map, List.length_reverse]

end BBNotifier.Foundation.Reversal
