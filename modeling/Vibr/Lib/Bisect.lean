import Mathlib

/-!
# Bisect

`bisect_right` of a list of keys. On any list, the keys on both sides of the place that
is found compare as they should; on a sorted list, so do all the others.
-/

namespace Bisect

variable {α : Type*} [LinearOrder α] [Inhabited α]

/-- Every round makes the window smaller, so its width is fuel enough. -/
def search (keys : List α) (x : α) : (fuel lo hi : Nat) → Nat
  | 0, lo, _ => lo
  | fuel + 1, lo, hi =>
    if lo < hi then
      let mid := (lo + hi) / 2
      if x < keys.getD mid default then search keys x fuel lo mid else search keys x fuel (mid + 1) hi
    else lo

def bisect (keys : List α) (x : α) : Nat := search keys x keys.length 0 keys.length

/-- The search of `bisect_left`: the keys that are equal stay behind the place. -/
def searchLeft (keys : List α) (x : α) : (fuel lo hi : Nat) → Nat
  | 0, lo, _ => lo
  | fuel + 1, lo, hi =>
    if lo < hi then
      let mid := (lo + hi) / 2
      if keys.getD mid default < x then searchLeft keys x fuel (mid + 1) hi else searchLeft keys x fuel lo mid
    else lo

def bisectLeft (keys : List α) (x : α) : Nat := searchLeft keys x keys.length 0 keys.length

theorem search_spec (keys : List α) (x : α) (fuel : Nat) {lo hi : Nat} (hle : lo ≤ hi)
    (hlen : hi ≤ keys.length) (hfuel : hi - lo ≤ fuel)
    (hlo : lo = 0 ∨ keys.getD (lo - 1) default ≤ x) (hhi : hi = keys.length ∨ x < keys.getD hi default) :
    search keys x fuel lo hi ≤ keys.length ∧
      (search keys x fuel lo hi = 0 ∨ keys.getD (search keys x fuel lo hi - 1) default ≤ x) ∧
      (search keys x fuel lo hi = keys.length ∨ x < keys.getD (search keys x fuel lo hi) default) := by
  induction fuel generalizing lo hi with
  | zero =>
    obtain rfl : lo = hi := by omega
    exact ⟨hlen, hlo, hhi⟩
  | succ fuel ih =>
    rw [search]
    split
    · dsimp only
      split
      · rename_i hlt
        exact ih (by omega) (by omega) (by omega) hlo (.inr hlt)
      · rename_i hge
        exact ih (by omega) hlen (by omega) (.inr (by simpa using hge)) hhi
    · obtain rfl : lo = hi := by omega
      exact ⟨hlen, hlo, hhi⟩

/-- The keys next to the place, on any list. -/
theorem bisect_spec (keys : List α) (x : α) :
    bisect keys x ≤ keys.length ∧
      (∀ j, j + 1 = bisect keys x → keys.getD j default ≤ x) ∧
      (bisect keys x < keys.length → x < keys.getD (bisect keys x) default) := by
  obtain ⟨hle, hfront, hback⟩ := search_spec keys x keys.length (Nat.zero_le _) (Nat.le_refl _)
    (by omega) (.inl rfl) (.inl rfl)
  refine ⟨hle, fun j hj => ?_, fun hlt => hback.resolve_left (by unfold bisect at hlt; omega)⟩
  have hj' : j = bisect keys x - 1 := by omega
  subst hj'
  exact hfront.resolve_left (by unfold bisect at hj; omega)

theorem getD_le_of_sorted {keys : List α} (h : keys.Pairwise (· ≤ ·)) {i j : Nat} (hij : i ≤ j)
    (hj : j < keys.length) : keys.getD i default ≤ keys.getD j default := by
  rw [List.getD_eq_getElem _ _ (by omega), List.getD_eq_getElem _ _ hj]
  rcases Nat.eq_or_lt_of_le hij with rfl | hlt
  · exact le_rfl
  · exact List.pairwise_iff_getElem.mp h i j (by omega) hj hlt

theorem mem_take_bisect {keys : List α} (h : keys.Pairwise (· ≤ ·)) {x k : α}
    (hk : k ∈ keys.take (bisect keys x)) : k ≤ x := by
  obtain ⟨hle, hfront, -⟩ := bisect_spec keys x
  obtain ⟨j, hj, rfl⟩ := List.mem_take_iff_getElem.mp hk
  have hlast := hfront (bisect keys x - 1) (by omega)
  have := getD_le_of_sorted h (i := j) (j := bisect keys x - 1) (by omega) (by omega)
  rw [List.getD_eq_getElem _ _ (by omega)] at this
  exact le_trans this hlast

theorem mem_drop_bisect {keys : List α} (h : keys.Pairwise (· ≤ ·)) {x k : α}
    (hk : k ∈ keys.drop (bisect keys x)) : x < k := by
  obtain ⟨hle, -, hback⟩ := bisect_spec keys x
  obtain ⟨j, hj, rfl⟩ := List.mem_drop_iff_getElem.mp hk
  have hfirst := hback (by omega)
  have := getD_le_of_sorted h (i := bisect keys x) (j := bisect keys x + j) (by omega) (by omega)
  rw [List.getD_eq_getElem _ default (by omega : bisect keys x + j < keys.length)] at this
  exact lt_of_lt_of_le hfirst this

/-- Among integers a value is in front of the equal keys where its predecessor is behind them. -/
theorem bisectLeft_eq (keys : List Int) (x : Int) : bisectLeft keys x = bisect keys (x - 1) := by
  have hsearch : ∀ fuel lo hi, searchLeft keys x fuel lo hi = search keys (x - 1) fuel lo hi := by
    intro fuel
    induction fuel with
    | zero => exact fun _ _ => rfl
    | succ fuel ih =>
      intro lo hi
      rw [searchLeft, search]
      simp only [ih]
      have hiff : keys.getD ((lo + hi) / 2) default < x ↔ ¬ x - 1 < keys.getD ((lo + hi) / 2) default := by omega
      simp only [hiff, ite_not]
  exact hsearch _ _ _

end Bisect
