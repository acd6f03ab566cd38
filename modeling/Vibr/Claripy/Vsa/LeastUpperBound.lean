import Mathlib.Data.List.Sort
import Vibr.Claripy.Vsa.Join

/-!
# Least upper bounds

A list is sorted, joined from every place on the circle in turn, and the join with the fewest integers is
taken. A join that starts with the greatest of integers goes on to the least one, past zero, and
is given the wrong stride.
-/

namespace Claripy.Vsa.StridedInterval

open Arc

variable {bits : Nat} {a b s r si acc : StridedInterval bits} {intervals L P Q : List (StridedInterval bits)}

/-- `reduce` with the join that is not smart. -/
def reduceJoin : List (StridedInterval bits) → Option (StridedInterval bits)
  | [] => none
  | x :: xs => xs.foldlM (fun x y => pseudoJoin x y false) x

/-- The better one of the join so far and that of another rotation. -/
def betterJoin (ret : Option (StridedInterval bits)) (si : StridedInterval bits) : Option (StridedInterval bits) :=
  match ret with
  | none => some si
  | some ret => do return if (← ret.nValues) > (← si.nValues) then si else ret

def sortedIntervals (intervals : List (StridedInterval bits)) : List (StridedInterval bits) :=
  intervals.insertionSort fun x y => x.lowerBound ≤ y.lowerBound

/-- The loop over the rotations. -/
def bestJoin (sorted : List (StridedInterval bits)) (ret : Option (StridedInterval bits)) (is : List Nat) :
    Option (Option (StridedInterval bits)) :=
  is.foldlM (fun ret i => do
    let si ← reduceJoin (sorted.drop i ++ sorted.take i)
    some (← betterJoin ret si)) ret

def leastUpperBound (intervals : List (StridedInterval bits)) : Option (StridedInterval bits) :=
  match intervals with
  | [] => none
  | [x] => some x.normalize
  | [x, y] => pseudoJoin x y true
  | _ => do
    let sorted := sortedIntervals intervals
    let ret ← (← bestJoin sorted none (List.range sorted.length))
    return if intervals.any (·.uninitialized) then { ret with uninitialized := true } else ret


/-! ## Where joins wrap -/

/-- The intervals that are not empty, sorted. -/
def occupied (intervals : List (StridedInterval bits)) : List (StridedInterval bits) :=
  (sortedIntervals intervals).filter (!·.isBottom)

/-- The first and the last one are integers, and different ones. -/
def WrapsAround (intervals : List (StridedInterval bits)) : Prop :=
  ∃ first last, (occupied intervals).head? = some first ∧ (occupied intervals).getLast? = some last ∧
    first.isInteger = true ∧ last.isInteger = true ∧ first.lowerBound < last.lowerBound

/-- All that are not empty are one integer. -/
def Constant (intervals : List (StridedInterval bits)) : Prop :=
  ∃ v, (∃ si ∈ intervals, si.isBottom = false) ∧
    ∀ si ∈ intervals, si.isBottom = false → si.isInteger = true ∧ si.lowerBound = v

/-! ## Folding the joins -/

/-- What the intervals joined so far are to their join. -/
structure Joined (P : List (StridedInterval bits)) (acc : StridedInterval bits) : Prop where
  wellFormed : acc.WellFormed
  bottom : acc.isBottom = true → ∀ m ∈ P, m.isBottom = true
  occupied : acc.isBottom = false → ∃ m ∈ P, m.isBottom = false
  integer : acc.isBottom = false → acc.isInteger = true → ∀ m ∈ P, m.isBottom = false →
    m.isInteger = true ∧ m.lowerBound = acc.lowerBound
  upper : ∀ m ∈ P, m.gamma ⊆ acc.gamma

/-- An integer stands for itself. -/
theorem eq_of_mem_integer {x : Int} (h : si.WellFormed) (hint : si.isInteger = true) (hx : x ∈ si.gamma) :
    x = si.lowerBound := by
  obtain ⟨hon, hle, _⟩ := (mem_gamma h hx.1).mp hx
  have hx0 := (off_on (size_pos bits) si.lowerBound x).1
  rw [← isInteger_iff.mp hint, off_self] at hle
  exact (off_eq_zero_iff h.lower hon).mp (by omega)

theorem Joined.step (h : Joined P acc) (hsi : si.WellFormed) (hjoin : JoinOf acc si r) : Joined (P ++ [si]) r := by
  have hbottom := hjoin.bottom
  -- a point of an operand is the integer that the join is
  have hbound : r.isInteger = true → ∀ m : StridedInterval bits, m.WellFormed → m.isBottom = false →
      m.gamma ⊆ r.gamma → m.lowerBound = r.lowerBound := by
    intro hint m hm hmb hsub
    exact eq_of_mem_integer hjoin.wellFormed hint (hsub (lowerBound_mem hm hmb))
  refine ⟨hjoin.wellFormed, ?_, ?_, ?_, ?_⟩
  · intro hr m hm
    rw [hr, eq_comm, Bool.and_eq_true] at hbottom
    rcases List.mem_append.mp hm with hm | hm
    · exact h.bottom hbottom.1 m hm
    · rw [List.mem_singleton.mp hm]
      exact hbottom.2
  · intro hr
    cases hsb : si.isBottom with
    | false => exact ⟨si, by simp, hsb⟩
    | true =>
      rw [hr, hsb, Bool.and_true] at hbottom
      obtain ⟨m, hm, hmb⟩ := h.occupied hbottom.symm
      exact ⟨m, List.mem_append_left _ hm, hmb⟩
  · intro hr hint m hm hmb
    obtain ⟨hacc, hlast⟩ := hjoin.integer hr hint
    rcases List.mem_append.mp hm with hm | hm
    · have haccb : acc.isBottom = false := by
        by_contra hne
        rw [h.bottom (Bool.eq_true_of_not_eq_false hne) m hm] at hmb
        cases hmb
      obtain ⟨hmi, hlb⟩ := h.integer haccb (hacc.resolve_left (by rw [haccb]; decide)) m hm hmb
      exact ⟨hmi, hlb.trans (hbound hint acc h.wellFormed haccb hjoin.left)⟩
    · rw [List.mem_singleton.mp hm] at hmb ⊢
      exact ⟨hlast.resolve_left (by rw [hmb]; decide), hbound hint si hsi hmb hjoin.right⟩
  · intro m hm
    rcases List.mem_append.mp hm with hm | hm
    · exact (h.upper m hm).trans hjoin.left
    · rw [List.mem_singleton.mp hm]
      exact hjoin.right

theorem Joined.single (h : si.WellFormed) : Joined [si] si := by
  refine ⟨h, ?_, fun hb => ⟨si, List.mem_singleton.mpr rfl, hb⟩, ?_, ?_⟩ <;> simp only [List.mem_singleton]
  · rintro hb m rfl
    exact hb
  · rintro _ hint m rfl _
    exact ⟨hint, rfl⟩
  · rintro m rfl
    exact fun x hx => hx

/-- Along a list in which no join wraps, the intervals so far are joined. -/
theorem foldlM_joined (hwf : ∀ m ∈ Q, m.WellFormed) (h : Joined P acc)
    (hwraps : ∀ A x B acc', Q = A ++ x :: B → Joined (P ++ A) acc' → ¬ WrapsBetween acc' x false) :
    ∃ r, Q.foldlM (fun x y => pseudoJoin x y false) acc = some r ∧ Joined (P ++ Q) r := by
  induction Q generalizing P acc with
  | nil => exact ⟨acc, rfl, by rwa [List.append_nil]⟩
  | cons x Q ih =>
    have hx := hwf x List.mem_cons_self
    obtain ⟨r, hr, hjoin⟩ := pseudoJoin_spec h.wellFormed hx (hwraps [] x Q acc rfl (by rwa [List.append_nil]))
    obtain ⟨r', hr', hjoined⟩ := ih (P := P ++ [x]) (fun m hm => hwf m (List.mem_cons_of_mem x hm))
      (h.step hx hjoin) (fun A y B acc' hQ hA => hwraps (x :: A) y B acc' (by rw [hQ]; rfl) (by
        rwa [List.append_assoc] at hA))
    refine ⟨r', ?_, by rwa [List.append_assoc] at hjoined⟩
    rw [List.foldlM_cons, hr]
    exact hr'

/-! ## Rotations -/

/-- The lower bounds go up. -/
def Sorted (L : List (StridedInterval bits)) : Prop := L.Pairwise fun x y => x.lowerBound ≤ y.lowerBound

theorem sorted_sortedIntervals : Sorted (sortedIntervals intervals) := by
  have : Std.Total fun x y : StridedInterval bits => x.lowerBound ≤ y.lowerBound :=
    ⟨fun x y => Int.le_total x.lowerBound y.lowerBound⟩
  have : IsTrans (StridedInterval bits) fun x y => x.lowerBound ≤ y.lowerBound :=
    ⟨fun _ _ _ => Int.le_trans⟩
  exact List.pairwise_insertionSort _ _

theorem mem_sortedIntervals : si ∈ sortedIntervals intervals ↔ si ∈ intervals :=
  List.mem_insertionSort _

/-- Where the integers so far are greater than the next one, the rotation goes from the last ones to the
first one. -/
theorem first_last_of_rotation {i : Nat} {v : Int} (hsorted : Sorted L) (hrot : L.drop i ++ L.take i = P ++ si :: Q)
    (hsi : si.isBottom = false) (hlt : si.lowerBound < v) (hocc : ∃ m ∈ P, m.isBottom = false)
    (hP : ∀ m ∈ P, m.isBottom = false → m.isInteger = true ∧ m.lowerBound = v) :
    ∃ last, (L.filter (!·.isBottom)).head? = some si ∧ (L.filter (!·.isBottom)).getLast? = some last ∧
      last.isInteger = true ∧ last.lowerBound = v := by
  have hL : L = L.take i ++ L.drop i := (List.take_append_drop i L).symm
  -- nothing before the next one, in the order of the list, is as great as the ones so far
  have hbefore : ∀ A B : List (StridedInterval bits), Sorted (A ++ si :: B) → (∀ m ∈ A, m ∈ P) →
      A.filter (!·.isBottom) = [] := by
    intro A B hAB hA
    rw [List.filter_eq_nil_iff]
    intro m hm hmb
    have hle := (List.pairwise_append.mp hAB).2.2 m hm si List.mem_cons_self
    rw [(hP m (hA m hm) (by simpa using hmb)).2] at hle
    omega
  have hsub : Sorted (L.take i) ∧ Sorted (L.drop i) := by
    rw [hL] at hsorted
    obtain ⟨h1, h2, _⟩ := List.pairwise_append.mp hsorted
    exact ⟨h1, h2⟩
  obtain ⟨m, hm, hmb⟩ := hocc
  obtain ⟨A, hPA, htake⟩ : ∃ A, P = L.drop i ++ A ∧ L.take i = A ++ si :: Q := by
    rcases List.append_eq_append_iff.mp hrot with ⟨A, hA, hA'⟩ | ⟨C, hC, hC'⟩
    · exact ⟨A, hA, hA'⟩
    cases C with
    | nil => exact ⟨[], by rw [hC, List.append_nil, List.append_nil], hC'.symm⟩
    | cons c C =>
      -- the next one is among the last ones
      obtain ⟨rfl, _⟩ := List.cons.inj hC'
      have hnone := hbefore P C (hC ▸ hsub.2) (fun m hm => hm)
      rw [List.filter_eq_nil_iff] at hnone
      exact absurd (by rw [hmb]; rfl) (hnone m hm)
  have hA := hbefore A Q (htake ▸ hsub.1) (fun m hm => hPA ▸ List.mem_append_right _ hm)
  have hmdrop : m ∈ (L.drop i).filter (!·.isBottom) := by
    rw [hPA] at hm
    rcases List.mem_append.mp hm with hm | hm
    · exact List.mem_filter.mpr ⟨hm, by rw [hmb]; rfl⟩
    · rw [List.filter_eq_nil_iff] at hA
      exact absurd (by rw [hmb]; rfl) (hA m hm)
  have hfilter : L.filter (!·.isBottom) = si :: (Q.filter (!·.isBottom) ++ (L.drop i).filter (!·.isBottom)) := by
    rw [hL, List.filter_append, htake, List.filter_append, hA, List.nil_append, List.filter_cons_of_pos (by rw [hsi]; rfl),
      ← htake, ← hL]
    rfl
  cases hlast : ((L.drop i).filter (!·.isBottom)).getLast? with
  | none =>
    rw [List.getLast?_eq_none_iff] at hlast
    rw [hlast] at hmdrop
    cases hmdrop
  | some last =>
    obtain ⟨hmem, hlastb⟩ := List.mem_filter.mp (List.mem_of_getLast? hlast)
    obtain ⟨hint, hv⟩ := hP last (hPA ▸ List.mem_append_left _ hmem) (by simpa using hlastb)
    refine ⟨last, by rw [hfilter]; rfl, ?_, hint, hv⟩
    rw [hfilter, ← List.cons_append, List.getLast?_append, hlast]
    rfl

theorem Joined.of_mem_iff (h : Joined P r) (hmem : ∀ m, m ∈ P ↔ m ∈ Q) : Joined Q r where
  wellFormed := h.wellFormed
  bottom := fun hb m hm => h.bottom hb m ((hmem m).mpr hm)
  occupied := fun hb => by
    obtain ⟨m, hm, hmb⟩ := h.occupied hb
    exact ⟨m, (hmem m).mp hm, hmb⟩
  integer := fun hb hint m hm => h.integer hb hint m ((hmem m).mpr hm)
  upper := fun m hm => h.upper m ((hmem m).mpr hm)

theorem mem_rotation {i : Nat} {m : StridedInterval bits} : m ∈ L.drop i ++ L.take i ↔ m ∈ L := by
  rw [List.mem_append, or_comm, ← List.mem_append, List.take_append_drop]

/-- Every rotation is joined. -/
theorem reduceJoin_joined (hwf : ∀ m ∈ intervals, m.WellFormed) (hwraps : ¬ WrapsAround intervals) {i : Nat}
    (hi : i < (sortedIntervals intervals).length) :
    ∃ r, reduceJoin ((sortedIntervals intervals).drop i ++ (sortedIntervals intervals).take i) = some r ∧
      Joined intervals r := by
  generalize hrot : (sortedIntervals intervals).drop i ++ (sortedIntervals intervals).take i = R
  have hmem : ∀ m, m ∈ R ↔ m ∈ intervals := by
    intro m
    rw [← hrot, mem_rotation, mem_sortedIntervals]
  cases R with
  | nil =>
    have hlength := congrArg List.length hrot
    rw [List.length_append, List.length_drop, List.length_nil] at hlength
    omega
  | cons x R =>
    have hRwf : ∀ m ∈ x :: R, m.WellFormed := fun m hm => hwf m ((hmem m).mp hm)
    obtain ⟨r, hr, hjoined⟩ := foldlM_joined (fun m hm => hRwf m (List.mem_cons_of_mem x hm))
      (Joined.single (hRwf x List.mem_cons_self)) (by
        rintro A y B acc rfl hA ⟨_, hacc, hy, hint, hyint, hlt⟩
        obtain ⟨last, hhead, hlast, hlastint, hv⟩ := first_last_of_rotation sorted_sortedIntervals hrot hy hlt
          (hA.occupied hacc) (hA.integer hacc hint)
        exact hwraps ⟨y, last, hhead, hlast, hyint, hlastint, hv ▸ hlt⟩)
    exact ⟨r, hr, hjoined.of_mem_iff hmem⟩

/-! ## The join with the fewest integers -/

/-- The integers of a join are counted, unless it is a single one. -/
theorem Joined.nValues (h : Joined intervals r) (hconstant : ¬ Constant intervals) : ∃ n, r.nValues = some n := by
  refine ⟨_, if_neg ?_⟩
  intro hzero
  cases hb : r.isBottom with
  | true =>
    rw [h.wellFormed.bottom hb] at hzero
    cases hzero
  | false =>
    have hint := isInteger_iff.mpr ((h.wellFormed.stride hb).mp hzero)
    exact hconstant ⟨r.lowerBound, h.occupied hb, h.integer hb hint⟩

theorem betterJoin_joined {ret : Option (StridedInterval bits)} (hret : ∀ x, ret = some x → Joined intervals x)
    (hsi : Joined intervals si) (hconstant : ¬ Constant intervals) :
    ∃ r, betterJoin ret si = some r ∧ Joined intervals r := by
  cases ret with
  | none => exact ⟨si, rfl, hsi⟩
  | some x =>
    have hx := hret x rfl
    obtain ⟨n, hn⟩ := hx.nValues hconstant
    obtain ⟨k, hk⟩ := hsi.nValues hconstant
    unfold betterJoin
    dsimp only
    rw [hn, hk]
    refine ⟨if n > k then si else x, rfl, ?_⟩
    split
    · exact hsi
    · exact hx

theorem bestJoin_cons {i : Nat} {is : List Nat} {ret : Option (StridedInterval bits)}
    (h : reduceJoin (L.drop i ++ L.take i) = some si) :
    bestJoin L ret (i :: is) = (betterJoin ret si).bind fun y => bestJoin L (some y) is := by
  unfold bestJoin
  rw [List.foldlM_cons, h]
  show (betterJoin ret si >>= fun y => some (some y)) >>= _ = _
  cases betterJoin ret si <;> rfl

theorem bestJoin_joined (hwf : ∀ m ∈ intervals, m.WellFormed) (hwraps : ¬ WrapsAround intervals)
    (hconstant : ¬ Constant intervals) {is : List Nat} (his : ∀ i ∈ is, i < (sortedIntervals intervals).length)
    {x : StridedInterval bits} (hx : Joined intervals x) :
    ∃ r, bestJoin (sortedIntervals intervals) (some x) is = some (some r) ∧ Joined intervals r := by
  induction is generalizing x with
  | nil => exact ⟨x, rfl, hx⟩
  | cons i is ih =>
    obtain ⟨si, hsi, hjoined⟩ := reduceJoin_joined hwf hwraps (his i List.mem_cons_self)
    obtain ⟨y, hy, hy'⟩ := @betterJoin_joined _ _ _ (some x) (fun z hz => Option.some.inj hz ▸ hx) hjoined hconstant
    obtain ⟨r, hr, hr'⟩ := ih (fun j hj => his j (List.mem_cons_of_mem i hj)) hy'
    exact ⟨r, by rw [bestJoin_cons hsi, hy]; exact hr, hr'⟩

/-! ## Least upper bounds -/

theorem gamma_uninitialized (r : StridedInterval bits) (uninitialized : Bool) :
    ({ r with uninitialized := uninitialized } : StridedInterval bits).gamma = r.gamma := rfl

theorem wellFormed_uninitialized (h : r.WellFormed) (uninitialized : Bool) :
    ({ r with uninitialized := uninitialized } : StridedInterval bits).WellFormed where
  bottom := fun hb => by
    rw [h.bottom hb]
  lower := h.lower
  upper := h.upper
  stride := h.stride
  whole := h.whole

theorem leastUpperBound_of_length (h : 2 < intervals.length) : leastUpperBound intervals = do
    let ret ← (← bestJoin (sortedIntervals intervals) none (List.range (sortedIntervals intervals).length))
    return if intervals.any (·.uninitialized) then { ret with uninitialized := true } else ret := by
  match intervals, h with
  | _ :: _ :: _ :: _, _ => rfl

theorem leastUpperBound_joined (hlength : 2 < intervals.length) (hwf : ∀ m ∈ intervals, m.WellFormed)
    (hwraps : ¬ WrapsAround intervals) (hconstant : ¬ Constant intervals) :
    ∃ r, leastUpperBound intervals = some r ∧ r.WellFormed ∧ ∀ m ∈ intervals, m.gamma ⊆ r.gamma := by
  have hsorted : (sortedIntervals intervals).length = intervals.length := List.length_insertionSort _ _
  obtain ⟨n, hn⟩ : ∃ n, (sortedIntervals intervals).length = n + 1 := ⟨intervals.length - 1, by omega⟩
  obtain ⟨x, hx, hjoined⟩ := @reduceJoin_joined _ intervals hwf hwraps 0 (by omega)
  obtain ⟨r, hr, hr'⟩ := @bestJoin_joined _ _ hwf hwraps hconstant ((List.range n).map Nat.succ) (by
    intro i hi
    obtain ⟨j, hj, rfl⟩ := List.mem_map.mp hi
    rw [List.mem_range] at hj
    omega) _ hjoined
  have hbest : bestJoin (sortedIntervals intervals) none (List.range (n + 1)) = some (some r) := by
    rw [List.range_succ_eq_map, bestJoin_cons hx]
    exact hr
  rw [leastUpperBound_of_length hlength, hn, hbest]
  refine ⟨_, rfl, ?_, fun m hm => ?_⟩
  · split
    · exact wellFormed_uninitialized hr'.wellFormed true
    · exact hr'.wellFormed
  split
  · rw [gamma_uninitialized]
    exact hr'.upper m hm
  · exact hr'.upper m hm

/-- The join of a list contains all of it, if there are at most two intervals or it does not wrap around. -/
theorem leastUpperBound_spec (hne : intervals ≠ []) (hwf : ∀ m ∈ intervals, m.WellFormed)
    (h : intervals.length ≤ 2 ∨ ¬ WrapsAround intervals ∧ ¬ Constant intervals) :
    ∃ r, leastUpperBound intervals = some r ∧ r.WellFormed ∧ ∀ m ∈ intervals, m.gamma ⊆ r.gamma := by
  match intervals, hne with
  | [x], _ =>
    refine ⟨x, congrArg some (normalize_eq (hwf x List.mem_cons_self)), hwf x List.mem_cons_self, fun m hm => ?_⟩
    rw [List.mem_singleton.mp hm]
  | [x, y], _ =>
    obtain ⟨r, hr, hjoin⟩ := @pseudoJoin_spec _ _ _ (hwf x (by simp)) (hwf y (by simp)) true
      (fun h => absurd h.1 (by decide))
    refine ⟨r, hr, hjoin.wellFormed, fun m hm => ?_⟩
    rcases List.mem_pair.mp hm with rfl | rfl
    · exact hjoin.left
    · exact hjoin.right
  | x :: y :: z :: rest, _ =>
    have hlength : 2 < (x :: y :: z :: rest).length := by simp
    have hnot := h.resolve_left (by omega)
    exact leastUpperBound_joined hlength hwf hnot.1 hnot.2

/-! ## One integer, three times -/

/-- Empty, or one integer. -/
def ConstantAt (v : Int) (si : StridedInterval bits) : Prop :=
  si.isBottom = false → si.isInteger = true ∧ si.lowerBound = v

theorem pseudoJoin_constant {v : Int} (hs : s.WellFormed) (hsv : ConstantAt v s) (hbv : ConstantAt v b)
    (hjoin : pseudoJoin s b false = some r) : ConstantAt v r := by
  unfold pseudoJoin isEmpty at hjoin
  cases hsb : s.isBottom with
  | true =>
    rw [hsb, if_pos rfl] at hjoin
    exact Option.some.inj hjoin ▸ hbv
  | false =>
    cases hbb : b.isBottom with
    | true =>
      rw [hsb, hbb, if_neg Bool.false_ne_true, if_pos rfl] at hjoin
      exact Option.some.inj hjoin ▸ hsv
    | false =>
      obtain ⟨his, hslb⟩ := hsv hsb
      obtain ⟨hib, hblb⟩ := hbv hbb
      rw [hsb, hbb, his, hib, if_neg Bool.false_ne_true, if_neg Bool.false_ne_true, if_pos rfl,
        if_neg Bool.false_ne_true, if_neg Bool.false_ne_true, ← isInteger_iff.mp hib, hslb, hblb] at hjoin
      rw [← Option.some.inj hjoin]
      have hv : v % 2 ^ bits = v := hslb ▸ emod_of_on hs.lower
      intro _
      obtain ⟨_, hn⟩ | ⟨hne, _⟩ | ⟨hne, _⟩ := @new_cases bits (v - v).natAbs v v (s.uninitialized || b.uninitialized)
      · rw [hn, hv]
        exact ⟨isInteger_iff.mpr rfl, rfl⟩
      · exact absurd rfl hne
      · exact absurd rfl hne

theorem foldlM_constant {v : Int} (hwf : ∀ m ∈ Q, m.WellFormed) (hacc : acc.WellFormed) (hQ : ∀ m ∈ Q, ConstantAt v m)
    (haccv : ConstantAt v acc) (h : Q.foldlM (fun x y => pseudoJoin x y false) acc = some r) : ConstantAt v r := by
  induction Q generalizing acc with
  | nil => exact Option.some.inj h ▸ haccv
  | cons x Q ih =>
    have hx := hQ x List.mem_cons_self
    have hwraps : ¬ WrapsBetween acc x false := by
      rintro ⟨_, ha, hb, _, _, hlt⟩
      have h1 := (haccv ha).2
      have h2 := (hx hb).2
      omega
    obtain ⟨y, hy, hjoin⟩ := pseudoJoin_spec hacc (hwf x List.mem_cons_self) hwraps
    rw [List.foldlM_cons, hy] at h
    exact ih (fun m hm => hwf m (List.mem_cons_of_mem x hm)) hjoin.wellFormed
      (fun m hm => hQ m (List.mem_cons_of_mem x hm)) (pseudoJoin_constant hacc haccv hx hy) h

theorem not_wrapsAround_of_constant (h : Constant intervals) : ¬ WrapsAround intervals := by
  obtain ⟨v, _, hv⟩ := h
  rintro ⟨first, last, hfirst, hlast, _, _, hlt⟩
  obtain ⟨hf, hfb⟩ := List.mem_filter.mp (List.mem_of_head? hfirst)
  obtain ⟨hl, hlb⟩ := List.mem_filter.mp (List.mem_of_getLast? hlast)
  rw [(hv first (mem_sortedIntervals.mp hf) (by simpa using hfb)).2,
    (hv last (mem_sortedIntervals.mp hl) (by simpa using hlb)).2] at hlt
  omega

/-- The integers of a join are not counted when it is a single one. -/
theorem leastUpperBound_constant (hlength : 2 < intervals.length) (hwf : ∀ m ∈ intervals, m.WellFormed)
    (hconstant : Constant intervals) : leastUpperBound intervals = none := by
  have hsorted : (sortedIntervals intervals).length = intervals.length := List.length_insertionSort _ _
  obtain ⟨n, hn⟩ : ∃ n, (sortedIntervals intervals).length = n + 2 := ⟨intervals.length - 2, by omega⟩
  have hwraps := not_wrapsAround_of_constant hconstant
  obtain ⟨x, hx, hjoined⟩ := @reduceJoin_joined _ intervals hwf hwraps 0 (by omega)
  obtain ⟨y, hy, _⟩ := @reduceJoin_joined _ intervals hwf hwraps 1 (by omega)
  obtain ⟨v, ⟨m, hm, hmb⟩, hv⟩ := hconstant
  have hxb : x.isBottom = false := by
    by_contra hne
    rw [hjoined.bottom (Bool.eq_true_of_not_eq_false hne) m hm] at hmb
    cases hmb
  have hxv : ConstantAt v x := by
    have hmem : ∀ m ∈ (sortedIntervals intervals).drop 0 ++ (sortedIntervals intervals).take 0, m ∈ intervals :=
      fun m hm => mem_sortedIntervals.mp (mem_rotation.mp hm)
    generalize (sortedIntervals intervals).drop 0 ++ (sortedIntervals intervals).take 0 = R at hx hmem
    cases R with
    | nil => cases hx
    | cons z R =>
      exact foldlM_constant (fun m hm => hwf m (hmem m (List.mem_cons_of_mem z hm))) (hwf z (hmem z List.mem_cons_self))
        (fun m hm => hv m (hmem m (List.mem_cons_of_mem z hm))) (hv z (hmem z List.mem_cons_self)) hx
  have hzero : x.stride = 0 := (hjoined.wellFormed.stride hxb).mpr (isInteger_iff.mp (hxv hxb).1)
  have hnone : x.nValues = none := if_pos hzero
  have hbest : bestJoin (sortedIntervals intervals) none (List.range (n + 2)) = none := by
    have hbetter : betterJoin (some x) y = none := by
      unfold betterJoin
      dsimp only
      rw [hnone]
      rfl
    rw [List.range_succ_eq_map, List.range_succ_eq_map, List.map_cons, bestJoin_cons hx, betterJoin, Option.bind_some,
      bestJoin_cons hy, hbetter, Option.bind_none]
  rw [leastUpperBound_of_length hlength, hn, hbest]
  rfl

/-- Unless the least and the greatest bound belong to different integers, the join of the list contains
all of them, and is missing only for one integer, three times or more. -/
theorem leastUpperBound_upper_iff (hne : intervals ≠ []) (hwf : ∀ m ∈ intervals, m.WellFormed)
    (hwraps : intervals.length ≤ 2 ∨ ¬ WrapsAround intervals) :
    (∃ r, leastUpperBound intervals = some r ∧ ∀ m ∈ intervals, m.gamma ⊆ r.gamma) ↔
      intervals.length ≤ 2 ∨ ¬ Constant intervals := by
  by_cases hlength : intervals.length ≤ 2
  · refine iff_of_true ?_ (.inl hlength)
    obtain ⟨r, hr, _, hsub⟩ := leastUpperBound_spec hne hwf (.inl hlength)
    exact ⟨r, hr, hsub⟩
  · have hnot := hwraps.resolve_left hlength
    by_cases hconstant : Constant intervals
    · refine iff_of_false ?_ (fun h => h.elim hlength (fun h => h hconstant))
      rintro ⟨r, hr, _⟩
      rw [leastUpperBound_constant (by omega) hwf hconstant] at hr
      cases hr
    · refine iff_of_true ?_ (.inr hconstant)
      obtain ⟨r, hr, _, hsub⟩ := leastUpperBound_spec hne hwf (.inr ⟨hnot, hconstant⟩)
      exact ⟨r, hr, hsub⟩

theorem leastUpperBound_of_three : ∃ r,
    leastUpperBound [(new 1 0 3 false : StridedInterval 4), new 2 4 8 false, new 0 12 12 false] = some r ∧
      ∀ m ∈ [(new 1 0 3 false : StridedInterval 4), new 2 4 8 false, new 0 12 12 false], m.gamma ⊆ r.gamma := by
  refine (leastUpperBound_upper_iff (by decide) ?_ (.inr ?_)).mpr (.inr ?_)
  · intro m hm
    simp only [List.mem_cons, List.not_mem_nil, or_false] at hm
    rcases hm with rfl | rfl | rfl <;> exact new_wellFormed (by decide)
  · rintro ⟨first, _, hfirst, _, hint, _⟩
    have hhead : (occupied [(new 1 0 3 false : StridedInterval 4), new 2 4 8 false, new 0 12 12 false]).head? =
        some (new 1 0 3 false) := by decide +kernel
    rw [hhead] at hfirst
    rw [← Option.some.inj hfirst] at hint
    revert hint
    decide
  · rintro ⟨v, _, hv⟩
    have hint := (hv (new 1 0 3 false) (by simp) new_isBottom).1
    revert hint
    decide

/-- From 250 past zero to 1, the stride is taken to be 249 instead of 7. -/
theorem leastUpperBound_loses_one : ¬ ∀ (bits : Nat) (intervals : List (StridedInterval bits)), intervals ≠ [] →
    (∀ m ∈ intervals, m.WellFormed) →
    ∃ r, leastUpperBound intervals = some r ∧ ∀ m ∈ intervals, m.gamma ⊆ r.gamma := by
  intro h
  obtain ⟨r, hr, hsub⟩ := h 8 [new 0 1 1 false, new 0 3 3 false, new 0 250 250 false] (by decide) (by
    intro m hm
    simp only [List.mem_cons, List.not_mem_nil, or_false] at hm
    rcases hm with rfl | rfl | rfl <;> exact new_wellFormed (by decide))
  have hlub : leastUpperBound [(new 0 1 1 false : StridedInterval 8), new 0 3 3 false, new 0 250 250 false] =
      some (new 3 250 3 false) := by decide +kernel
  rw [hlub] at hr
  have hone : (1 : Int) ∈ (new 0 1 1 false : StridedInterval 8).gamma :=
    (mem_gamma_new (by decide)).mpr ⟨by decide, by decide, by decide⟩
  have hlost := hsub _ List.mem_cons_self hone
  rw [← Option.some.inj hr, mem_gamma_new (by decide)] at hlost
  revert hlost
  decide

end Claripy.Vsa.StridedInterval
