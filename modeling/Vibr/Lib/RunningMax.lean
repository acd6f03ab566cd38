import Vibr.Lib.Bisect

/-!
# Running maxima

`maxima l` has at each place the maximum of the elements up to that place. It ascends
whether or not the list does, so a binary search in it finds the first element of the list
that is greater than a value.
-/

namespace RunningMax

variable {α : Type*} [LinearOrder α]

/-- The running maxima of a list, from a value on. -/
def maximaFrom (running : α) : List α → List α
  | [] => []
  | x :: l => max running x :: maximaFrom (max running x) l

def maxima : List α → List α
  | [] => []
  | x :: l => x :: maximaFrom x l

/-- Every element is raised to a value, up to the first one that is not less. -/
def raise (value : α) : List α → List α
  | [] => []
  | x :: l => if value ≤ x then x :: l else value :: raise value l

variable {running value x y : α} {a b l : List α}

@[simp] theorem length_maximaFrom (running : α) (l : List α) : (maximaFrom running l).length = l.length := by
  induction l generalizing running with
  | nil => rfl
  | cons x l ih => exact congrArg (· + 1) (ih _)

@[simp] theorem length_maxima (l : List α) : (maxima l).length = l.length := by
  cases l with
  | nil => rfl
  | cons x l => exact congrArg (· + 1) (length_maximaFrom x l)

theorem maximaFrom_append (running : α) (a b : List α) :
    maximaFrom running (a ++ b) = maximaFrom running a ++ maximaFrom (a.foldl max running) b := by
  induction a generalizing running with
  | nil => rfl
  | cons x a ih => exact congrArg (max running x :: ·) (ih _)

theorem maxima_cons_append (x : α) (a b : List α) :
    maxima (x :: a ++ b) = maxima (x :: a) ++ maximaFrom (a.foldl max x) b :=
  congrArg (x :: ·) (maximaFrom_append x a b)

/-- A start that is not greater than the first element does not show. -/
theorem maximaFrom_eq (h : ∀ x ∈ l.head?, running ≤ x) : maximaFrom running l = maxima l := by
  cases l with
  | nil => rfl
  | cons x l => rw [maximaFrom, maxima, max_eq_right (h x rfl)]

theorem raise_maximaFrom (value running : α) (l : List α) :
    raise value (maximaFrom running l) = maximaFrom (max running value) l := by
  induction l generalizing running with
  | nil => rfl
  | cons x l ih =>
    rw [maximaFrom, raise, maximaFrom]
    split
    · rename_i hle
      rw [max_right_comm, max_eq_left hle]
    · rename_i hnot
      have hlt : max running x ≤ value := le_of_not_ge hnot
      rw [ih, max_right_comm running value x, max_eq_right hlt]

theorem raise_maxima (value : α) (l : List α) : raise value (maxima l) = maximaFrom value l := by
  cases l with
  | nil => rfl
  | cons x l =>
    rw [maxima, raise, maximaFrom]
    split
    · rename_i hle
      rw [max_eq_right hle]
    · rename_i hnot
      rw [raise_maximaFrom, max_eq_left (le_of_not_ge hnot), max_eq_right (le_of_not_ge hnot)]

theorem take_maxima (a b : List α) : (maxima (a ++ b)).take a.length = maxima a := by
  cases a with
  | nil => rfl
  | cons x a =>
    rw [maxima_cons_append, ← length_maxima (x :: a)]
    exact List.take_left

/-- The running maxima of what is behind a first part. -/
theorem drop_maxima (x : α) (a b : List α) :
    (maxima (x :: a ++ b)).drop (a.length + 1) = maximaFrom (a.foldl max x) b := by
  rw [maxima_cons_append, ← List.length_cons, ← length_maxima (x :: a)]
  exact List.drop_left

/-- The last of the maxima of a first part. -/
theorem getD_maxima (x d : α) (a b : List α) : (maxima (x :: a ++ b)).getD a.length d = a.foldl max x := by
  have hfrom : ∀ (a : List α) (x : α), (x :: maximaFrom x (a ++ b)).getD a.length d = a.foldl max x := by
    intro a
    induction a with
    | nil => exact fun _ => rfl
    | cons y a ih => exact fun x => ih (max x y)
  exact hfrom a x

/-- An element is inserted: the maxima behind it are raised. -/
theorem maxima_insert (x v : α) (a b : List α) :
    maxima (x :: a ++ v :: b) = maxima (x :: a) ++
      max (a.foldl max x) v :: raise (max (a.foldl max x) v) (maximaFrom (a.foldl max x) b) := by
  rw [maxima_cons_append, raise_maximaFrom, max_eq_right (le_max_left (a.foldl max x) v)]
  rfl

/-- A map that keeps the order of the elements keeps their maxima. -/
theorem maxima_map {f : α → α} (hf : Monotone f) (l : List α) : maxima (l.map f) = (maxima l).map f := by
  have hfrom : ∀ (l : List α) (x : α), maximaFrom (f x) (l.map f) = (maximaFrom x l).map f := by
    intro l
    induction l with
    | nil => exact fun _ => rfl
    | cons y l ih =>
      intro x
      rw [List.map_cons, maximaFrom, ← hf.map_max, ih]
      rfl
  cases l with
  | nil => rfl
  | cons x l => exact congrArg (f x :: ·) (hfrom l x)

/-- Each place has the greatest of the elements up to it. -/
theorem isGreatest_maxima (l : List α) (i : Nat) (hi : i < (maxima l).length) :
    IsGreatest {x | x ∈ l.take (i + 1)} (maxima l)[i] := by
  have hfrom : ∀ (l : List α) (x : α) (i : Nat) (hi : i < (maximaFrom x l).length),
      IsGreatest {y | y ∈ x :: l.take (i + 1)} (maximaFrom x l)[i] := by
    intro l
    induction l with
    | nil => exact fun x i hi => absurd hi (Nat.not_lt_zero _)
    | cons z l ih =>
      intro x i hi
      have hmax : max x z ∈ ({x, z} : Set α) := max_choice x z
      cases i with
      | zero =>
        refine ⟨by simpa [maximaFrom] using hmax, fun y hy => ?_⟩
        rcases List.mem_cons.mp hy with rfl | hy
        · exact le_max_left _ _
        · obtain rfl : y = z := by simpa using hy
          exact le_max_right _ _
      | succ i =>
        have hi' : i < (maximaFrom (max x z) l).length := Nat.lt_of_succ_lt_succ hi
        obtain ⟨hmem, hle⟩ := ih (max x z) i hi'
        refine ⟨?_, fun y hy => ?_⟩
        · rcases List.mem_cons.mp hmem with heq | hmem
          · change (maximaFrom (max x z) l)[i] ∈ x :: z :: l.take (i + 1)
            rw [heq]
            rcases max_choice x z with h | h
            · rw [h]
              exact List.mem_cons_self
            · rw [h]
              exact List.mem_cons_of_mem _ List.mem_cons_self
          · exact List.mem_cons_of_mem _ (List.mem_cons_of_mem _ hmem)
        · have hbound : max x z ≤ (maximaFrom (max x z) l)[i] := hle List.mem_cons_self
          rcases List.mem_cons.mp hy with rfl | hy
          · exact (le_max_left _ _).trans hbound
          · rcases List.mem_cons.mp hy with rfl | hy
            · exact (le_max_right _ _).trans hbound
            · exact hle (List.mem_cons_of_mem _ hy)
  cases l with
  | nil => exact absurd hi (Nat.not_lt_zero _)
  | cons x l =>
    cases i with
    | zero =>
      refine ⟨List.mem_cons_self, fun y hy => ?_⟩
      obtain rfl : y = x := List.mem_singleton.mp hy
      exact le_rfl
    | succ i => exact hfrom l x i (Nat.lt_of_succ_lt_succ hi)

theorem sorted_maxima (l : List α) : (maxima l).Pairwise (· ≤ ·) := by
  rw [List.pairwise_iff_getElem]
  intro i j hi hj hij
  obtain ⟨hmem, -⟩ := isGreatest_maxima l i hi
  obtain ⟨-, hle⟩ := isGreatest_maxima l j hj
  exact hle ((List.take_prefix_take_left (by omega)).mem hmem)

/-- The place after the maxima up to a value is that of the first greater element. -/
theorem bisect_maxima [Inhabited α] (l : List α) (x : α) :
    Bisect.bisect (maxima l) x = l.findIdx fun y => decide (x < y) := by
  obtain ⟨hle, -, hback⟩ := Bisect.bisect_spec (maxima l) x
  rw [length_maxima] at hle hback
  have hfront : ∀ j, j < Bisect.bisect (maxima l) x → ∀ hj : j < l.length, l[j] ≤ x := by
    intro j hlt hj
    have hj' : j < (maxima l).length := by rwa [length_maxima]
    have hmem : (maxima l)[j] ∈ (maxima l).take (Bisect.bisect (maxima l) x) :=
      List.mem_take_iff_getElem.mpr ⟨j, by omega, rfl⟩
    refine le_trans ((isGreatest_maxima l j hj').2 ?_) (Bisect.mem_take_bisect (sorted_maxima l) hmem)
    exact List.mem_take_iff_getElem.mpr ⟨j, by omega, rfl⟩
  rcases Nat.lt_or_ge (Bisect.bisect (maxima l) x) l.length with hlt | hge
  · refine ((List.findIdx_eq hlt).mpr ⟨?_, fun j hj => ?_⟩).symm
    · -- the maximum is greater, and no element in front is
      have hmax := hback hlt
      have hi : Bisect.bisect (maxima l) x < (maxima l).length := by rwa [length_maxima]
      rw [List.getD_eq_getElem _ _ hi] at hmax
      obtain ⟨hmem, -⟩ := isGreatest_maxima l _ hi
      obtain ⟨j, hj, heq⟩ := List.mem_take_iff_getElem.mp hmem
      rw [← heq] at hmax
      have hj' : j = Bisect.bisect (maxima l) x := by
        by_contra hne
        exact absurd (hfront j (by omega) (by omega)) (not_le.mpr hmax)
      subst hj'
      exact decide_eq_true hmax
    · exact decide_eq_false (not_lt.mpr (hfront j hj (by omega)))
  · have heq : Bisect.bisect (maxima l) x = l.length := Nat.le_antisymm hle hge
    rw [heq]
    refine (List.findIdx_eq_length.mpr fun y hy => ?_).symm
    obtain ⟨j, hj, rfl⟩ := List.mem_iff_getElem.mp hy
    exact decide_eq_false (not_lt.mpr (hfront j (by omega) hj))

end RunningMax
