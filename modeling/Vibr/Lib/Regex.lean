import Mathlib.Data.List.TakeWhile

/-!
# Regular expressions

A regular expression gives, for a string, what it may match at the front: the rest of the
string and the text of the groups, those preferred first. A repetition is greedy, and its
groups keep what they matched last.
-/

inductive Regex (α : Type) where
  | empty
  | set (p : α → Bool)
  | seq (r s : Regex α)
  | star (r : Regex α)
  | group (n : Nat) (r : Regex α)

namespace Regex

variable {α : Type}

/-- The rest of the string, and the texts of the groups with the last one in front. -/
structure Match (α : Type) where
  rest : List α
  groups : List (Nat × List α)
  deriving DecidableEq

def Match.group (m : Match α) (n : Nat) : Option (List α) := (m.groups.find? fun g => g.1 = n).map Prod.snd

/-- Repetitions that each consume something, the longer ones first. -/
@[grind =] def starFrom (step : Match α → List (Match α)) : Nat → Match α → List (Match α)
  | 0, m => [m]
  | n + 1, m =>
    ((step m).filter fun m' => m'.rest.length < m.rest.length).flatMap (starFrom step n) ++ [m]

@[grind =] def run : Regex α → Match α → List (Match α)
  | .empty, m => [m]
  | .set p, m =>
    match m.rest with
    | [] => []
    | a :: l => if p a then [{ m with rest := l }] else []
  | .seq r s, m => (run r m).flatMap (run s)
  | .star r, m => starFrom (run r) m.rest.length m
  | .group n r, m =>
    (run r m).map fun m' => { m' with groups := (n, m.rest.take (m.rest.length - m'.rest.length)) :: m'.groups }

/-- `r{n}` -/
@[grind =] def times (r : Regex α) : Nat → Regex α
  | 0 => .empty
  | n + 1 => .seq r (times r n)

/-- `r+` -/
def plus (r : Regex α) : Regex α := .seq r (.star r)

/-- The match at the front of a string. -/
def matchPrefix (r : Regex α) (s : List α) : Option (Match α) := (run r ⟨s, []⟩).head?

/-- The match of a whole string. -/
def fullmatch (r : Regex α) (s : List α) : Option (Match α) := (run r ⟨s, []⟩).find? fun m => m.rest.isEmpty

/-! ## Characters of a set -/

/-- The number of characters of a set in front. -/
def lead (p : α → Bool) (s : List α) : Nat := (s.takeWhile p).length

variable {p : α → Bool} {a : α} {s : List α} {groups : List (Nat × List α)} {i k n : Nat}

theorem lead_le (p : α → Bool) (s : List α) : lead p s ≤ s.length := (List.takeWhile_sublist p).length_le

theorem lead_cons_of_pos (h : p a) : lead p (a :: s) = lead p s + 1 := by
  rw [lead, List.takeWhile_cons_of_pos h, List.length_cons, lead]

theorem lead_cons_of_neg (h : ¬ p a) : lead p (a :: s) = 0 := by
  rw [lead, List.takeWhile_cons_of_neg h, List.length_nil]

theorem lead_drop (h : k ≤ lead p s) : lead p (s.drop k) = lead p s - k := by
  induction k generalizing s with
  | zero => rfl
  | succ k ih =>
    cases s with
    | nil =>
      have hzero : lead p ([] : List α) = 0 := rfl
      omega
    | cons a s =>
      by_cases ha : p a
      · rw [lead_cons_of_pos ha] at h ⊢
        rw [List.drop_succ_cons, ih (Nat.le_of_succ_le_succ h)]
        omega
      · rw [lead_cons_of_neg ha] at h
        omega

theorem lead_eq_length : lead p s = s.length ↔ ∀ a ∈ s, p a := by
  constructor
  · intro h a ha
    have hself : s.takeWhile p = s := (List.takeWhile_prefix p).eq_of_length h
    rw [← hself] at ha
    exact List.mem_takeWhile_imp ha
  · intro h
    rw [lead, List.takeWhile_eq_self_iff.mpr h]

theorem all_take (h : n ≤ lead p s) (ha : a ∈ s.take n) : p a := by
  have hstarts : s.take n <+: s.takeWhile p :=
    List.prefix_of_prefix_length_le (List.take_prefix n s) (List.takeWhile_prefix p) ((List.length_take_le n s).trans h)
  exact List.mem_takeWhile_imp (hstarts.subset ha)

theorem run_set_cons (p : α → Bool) (a : α) (s : List α) (groups : List (Nat × List α)) :
    run (.set p) ⟨a :: s, groups⟩ = if p a then [⟨s, groups⟩] else [] := rfl

/-- A fixed number of characters matches in one way. -/
theorem run_times_set (p : α → Bool) (n : Nat) (s : List α) (groups : List (Nat × List α)) :
    run (times (.set p) n) ⟨s, groups⟩ = if n ≤ lead p s then [⟨s.drop n, groups⟩] else [] := by
  induction n generalizing s with
  | zero => rfl
  | succ n ih =>
    cases s with
    | nil => rfl
    | cons a s =>
      rw [times, run, run_set_cons]
      by_cases ha : p a
      · rw [if_pos ha, List.flatMap_singleton, ih, lead_cons_of_pos ha]
        simp only [Nat.add_le_add_iff_right, List.drop_succ_cons]
      · rw [if_neg ha, List.flatMap_nil, lead_cons_of_neg ha, if_neg (by omega)]

theorem run_group_times_set (p : α → Bool) (i n : Nat) (s : List α) (groups : List (Nat × List α)) :
    run (.group i (times (.set p) n)) ⟨s, groups⟩ =
      if n ≤ lead p s then [⟨s.drop n, (i, s.take n) :: groups⟩] else [] := by
  rw [run, run_times_set]
  split
  · rename_i h
    have hlen := lead_le p s
    have htake : s.length - (s.drop n).length = n := by
      rw [List.length_drop]
      omega
    rw [List.map_singleton, htake]
  · rfl

/-- Any number of characters matches the longest run first, and then the shorter ones. -/
theorem run_star_set (p : α → Bool) (s : List α) (groups : List (Nat × List α)) :
    run (.star (.set p)) ⟨s, groups⟩ = (List.range (lead p s + 1)).reverse.map fun k => ⟨s.drop k, groups⟩ := by
  rw [run]
  induction s with
  | nil => rfl
  | cons a s ih =>
    rw [List.length_cons, starFrom, run_set_cons]
    by_cases ha : p a
    · have hstep : (if p a then [Match.mk s groups] else []).filter
          (fun m' => m'.rest.length < (a :: s).length) = [⟨s, groups⟩] := by simp [ha]
      rw [hstep, List.flatMap_singleton, ih, lead_cons_of_pos ha, @List.range_succ_eq_map (lead p s + 1), List.reverse_cons,
        List.map_append, ← List.map_reverse, List.map_map]
      rfl
    · rw [if_neg ha, lead_cons_of_neg ha]
      rfl

theorem run_group_star_set (p : α → Bool) (i : Nat) (s : List α) (groups : List (Nat × List α)) :
    run (.group i (.star (.set p))) ⟨s, groups⟩ =
      (List.range (lead p s + 1)).reverse.map fun k => ⟨s.drop k, (i, s.take k) :: groups⟩ := by
  rw [run, run_star_set, List.map_map]
  refine List.map_congr_left fun k hk => ?_
  have hlen := lead_le p s
  have hk : k < lead p s + 1 := List.mem_range.mp (List.mem_reverse.mp hk)
  have htake : s.length - (s.drop k).length = k := by
    rw [List.length_drop]
    omega
  simp only [Function.comp_apply, htake]

theorem run_seq (r r' : Regex α) (m : Match α) : run (.seq r r') m = (run r m).flatMap (run r') := rfl

/-- A fixed number of characters, and then something else. -/
theorem run_seq_group_times_set (p : α → Bool) (i n : Nat) (r : Regex α) (s : List α) (groups : List (Nat × List α)) :
    run (.seq (.group i (times (.set p) n)) r) ⟨s, groups⟩ =
      if n ≤ lead p s then run r ⟨s.drop n, (i, s.take n) :: groups⟩ else [] := by
  rw [run_seq, run_group_times_set]
  split
  · exact List.flatMap_singleton _ _
  · rfl

/-- The first of the results that are some value, if all the others are none. -/
theorem findSome?_of_forall {β γ : Type} {l : List β} {f : β → Option γ} {v : γ} (hall : ∀ b ∈ l, f b = none ∨ f b = some v)
    (hmem : ∃ b ∈ l, f b = some v) : l.findSome? f = some v := by
  induction l with
  | nil => exact absurd hmem (by simp)
  | cons b l ih =>
    rw [List.findSome?_cons]
    rcases hall b List.mem_cons_self with hnone | hsome
    · rw [hnone]
      refine ih (fun b' hb' => hall b' (List.mem_cons_of_mem _ hb')) ?_
      obtain ⟨b', hb', hv⟩ := hmem
      rcases List.mem_cons.mp hb' with rfl | hb'
      · rw [hnone] at hv
        cases hv
      · exact ⟨b', hb', hv⟩
    · rw [hsome]

end Regex
